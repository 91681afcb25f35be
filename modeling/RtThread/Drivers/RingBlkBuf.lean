import RtThread.Lib.Rotation
import RtThread.Lib.Transition
import RtThread.Lib.Word

/-!
# Ring block buffers (`ringblk_buf.c`)

Blocks of any size are cut from one buffer, behind the last block of `blk_list` or from the start
of the buffer. A block is the number of its entry in `blk_set`; an address is a natural number.
-/

namespace RtThread.Drivers.RingBlkBuf

open RtThread.Lib.Rotation RtThread.Lib.Transition RtThread.Lib.Word

/-- `enum rt_rbb_status` (`ringblk_buf.h:26-36`). -/
inductive RtRbbStatus where
  | unused
  | inited
  | put
  | get
  deriving DecidableEq, Repr

/-- `struct rt_rbb_blk` (`ringblk_buf.h:42-49`); `size` is a bit field of 24 bits. -/
structure RtRbbBlk where
  status : RtRbbStatus
  size : ℕ
  buf : ℕ
  deriving DecidableEq, Repr

/-- `struct rt_rbb` (`ringblk_buf.h:65-74`). -/
structure RtRbb where
  buf : ℕ
  bufSize : ℕ
  blkSet : ℕ → RtRbbBlk
  blkMaxNum : ℕ
  blkList : List ℕ

/-- `rt_rbb_init` (`ringblk_buf.c:26-44`). -/
def rtRbbInit (buf bufSize : ℕ) (blockSet : ℕ → RtRbbBlk) (blkMaxNum : ℕ) : RtRbb where
  buf := buf
  bufSize := bufSize
  blkSet i := if i < blkMaxNum then { blockSet i with status := .unused } else blockSet i
  blkMaxNum := blkMaxNum
  blkList := []

def findEmptyBlkInSet (rbb : RtRbb) : Option ℕ :=
  (List.range rbb.blkMaxNum).find? fun i => (rbb.blkSet i).status = .unused

def RtRbb.setBlk (rbb : RtRbb) (i : ℕ) (blk : RtRbbBlk) : RtRbb :=
  { rbb with blkSet := Function.update rbb.blkSet i blk }

def RtRbb.setStatus (rbb : RtRbb) (i : ℕ) (status : RtRbbStatus) : RtRbb :=
  rbb.setBlk i { rbb.blkSet i with status := status }

def RtRbb.blkEnd (rbb : RtRbb) (i : ℕ) : ℕ := (rbb.blkSet i).buf + (rbb.blkSet i).size

/-- `rt_slist_append` and the fields of the new block. -/
def RtRbb.append (rbb : RtRbb) (new buf blkSize : ℕ) : RtRbb :=
  { rbb.setBlk new ⟨.inited, blkSize % 2 ^ 24, buf⟩ with blkList := rbb.blkList ++ [new] }

/-- `rt_rbb_blk_alloc` (`ringblk_buf.c:133-226`). -/
def rtRbbBlkAlloc (rbb : RtRbb) (blkSize : ℕ) : RtRbb × Option ℕ :=
  match findEmptyBlkInSet rbb with
  | none => (rbb, none)
  | some new =>
    if rbb.blkList.length < rbb.blkMaxNum then
      match rbb.blkList with
      | [] => (rbb.append new rbb.buf blkSize, some new)
      | head :: rest =>
        let tail := rest.getLastD head
        if (rbb.blkSet head).buf ≤ (rbb.blkSet tail).buf then
          let empty1 := sub 32 (rbb.buf + rbb.bufSize) (rbb.blkEnd tail)
          let empty2 := sub 32 (rbb.blkSet head).buf rbb.buf
          if blkSize ≤ empty1 then (rbb.append new (rbb.blkEnd tail) blkSize, some new)
          else if blkSize ≤ empty2 then (rbb.append new rbb.buf blkSize, some new)
          else (rbb, none)
        else
          let empty1 := sub 32 (rbb.blkSet head).buf (rbb.blkEnd tail)
          if blkSize ≤ empty1 then (rbb.append new (rbb.blkEnd tail) blkSize, some new)
          else (rbb, none)
    else (rbb, none)

/-- `rt_rbb_blk_put` (`ringblk_buf.c:234-241`), of a block with the status `inited`. -/
def rtRbbBlkPut (rbb : RtRbb) (block : ℕ) : RtRbb := rbb.setStatus block .put

/-- `rt_rbb_blk_get` (`ringblk_buf.c:252-281`). -/
def rtRbbBlkGet (rbb : RtRbb) : RtRbb × Option ℕ :=
  match rbb.blkList.find? fun i => (rbb.blkSet i).status = .put with
  | none => (rbb, none)
  | some block => (rbb.setStatus block .get, some block)

/-- `rt_rbb_blk_free` (`ringblk_buf.c:320-336`), of a block with another status than `unused`. -/
def rtRbbBlkFree (rbb : RtRbb) (block : ℕ) : RtRbb :=
  { rbb.setStatus block .unused with blkList := rbb.blkList.erase block }

/-- `struct rt_rbb_blk_queue` (`ringblk_buf.h:55-60`): `blocks` points into `blk_set`. -/
structure RtRbbBlkQueue where
  blocks : ℕ
  blkNum : ℕ
  deriving DecidableEq, Repr

/-- The local variables of `rt_rbb_blk_queue_get`, with the caller's queue once it is written. -/
structure QueueGet where
  rbb : RtRbb
  dataTotalSize : ℕ
  lastBlock : Option ℕ
  blkQueue : Option RtRbbBlkQueue

/-- The end of the loop's body (`ringblk_buf.c:412-417`): the block leaves `blk_list`. -/
def QueueGet.take (v : QueueGet) (block : ℕ) (blkQueue : RtRbbBlkQueue) : QueueGet where
  rbb := { v.rbb.setStatus block .get with blkList := v.rbb.blkList.erase block }
  dataTotalSize := add 32 v.dataTotalSize (v.rbb.blkSet block).size
  lastBlock := some block
  blkQueue := some { blkQueue with blkNum := blkQueue.blkNum + 1 }

/-- The loop of `rt_rbb_blk_queue_get` over the nodes that are left. A node keeps its `next` when
it is removed, so the nodes are those of the list before the call. -/
def queueGetLoop (queueDataLen : ℕ) : List ℕ → QueueGet → QueueGet
  | [], v => v
  | node :: nodes, v =>
    match v.lastBlock, v.blkQueue with
    | some last, some blkQueue =>
      if (v.rbb.blkSet node).status ≠ .put ∨ (v.rbb.blkSet node).buf < (v.rbb.blkSet last).buf ∨
          queueDataLen < add 32 v.dataTotalSize (v.rbb.blkSet node).size then v
      else queueGetLoop queueDataLen nodes (v.take node blkQueue)
    | _, _ =>
      if (v.rbb.blkSet node).status = .put then queueGetLoop queueDataLen nodes (v.take node ⟨node, 0⟩)
      else queueGetLoop queueDataLen nodes v

/-- `rt_rbb_blk_queue_get` (`ringblk_buf.c:362-423`). -/
def rtRbbBlkQueueGet (rbb : RtRbb) (queueDataLen : ℕ) : QueueGet :=
  queueGetLoop queueDataLen rbb.blkList ⟨rbb, 0, none, none⟩

/-- `rt_rbb_blk_queue_len` (`ringblk_buf.c:433-445`). -/
def rtRbbBlkQueueLen (rbb : RtRbb) (blkQueue : RtRbbBlkQueue) : ℕ :=
  (List.range blkQueue.blkNum).foldl (fun len i => add 32 len (rbb.blkSet (blkQueue.blocks + i)).size) 0

/-- `rt_rbb_blk_queue_buf` (`ringblk_buf.c:455-460`). -/
def rtRbbBlkQueueBuf (rbb : RtRbb) (blkQueue : RtRbbBlkQueue) : ℕ := (rbb.blkSet blkQueue.blocks).buf

/-- `rt_rbb_blk_queue_free` (`ringblk_buf.c:469-480`). -/
def rtRbbBlkQueueFree (rbb : RtRbb) (blkQueue : RtRbbBlkQueue) : RtRbb :=
  (List.range blkQueue.blkNum).foldl (fun rbb i => rtRbbBlkFree rbb (blkQueue.blocks + i)) rbb

/-! ### The blocks of the list -/

section Fields

variable (rbb : RtRbb) (i j : ℕ) (blk : RtRbbBlk) (status : RtRbbStatus)

@[simp] theorem setBlk_self : (rbb.setBlk i blk).blkSet i = blk := Function.update_self ..

@[simp] theorem setBlk_of_ne (h : j ≠ i) : (rbb.setBlk i blk).blkSet j = rbb.blkSet j := Function.update_of_ne h ..

@[simp] theorem setStatus_buf : ((rbb.setStatus i status).blkSet j).buf = (rbb.blkSet j).buf := by
  by_cases h : j = i
  · rw [h, RtRbb.setStatus, setBlk_self]
  · rw [RtRbb.setStatus, setBlk_of_ne _ _ _ _ h]

@[simp] theorem setStatus_size : ((rbb.setStatus i status).blkSet j).size = (rbb.blkSet j).size := by
  by_cases h : j = i
  · rw [h, RtRbb.setStatus, setBlk_self]
  · rw [RtRbb.setStatus, setBlk_of_ne _ _ _ _ h]

@[simp] theorem setStatus_status_self : ((rbb.setStatus i status).blkSet i).status = status := by
  rw [RtRbb.setStatus, setBlk_self]

theorem setStatus_status_of_ne (h : j ≠ i) : ((rbb.setStatus i status).blkSet j).status = (rbb.blkSet j).status := by
  rw [RtRbb.setStatus, setBlk_of_ne _ _ _ _ h]

end Fields

theorem findEmpty_spec {rbb : RtRbb} {new : ℕ} (h : findEmptyBlkInSet rbb = some new) :
    new < rbb.blkMaxNum ∧ (rbb.blkSet new).status = .unused :=
  ⟨List.mem_range.mp (List.mem_of_find?_eq_some h), by simpa using List.find?_some h⟩

/-- The first block ends before the second begins. -/
def Before (blkSet : ℕ → RtRbbBlk) (i j : ℕ) : Prop := (blkSet i).buf + (blkSet i).size ≤ (blkSet j).buf

instance (blkSet : ℕ → RtRbbBlk) (i j : ℕ) : Decidable (Before blkSet i j) := Nat.decLe _ _

theorem Before.trans (blkSet : ℕ → RtRbbBlk) : ∀ i j k, Before blkSet i j → Before blkSet j k → Before blkSet i k := by
  intro i j k hij hjk
  unfold Before at hij hjk ⊢
  omega

/-- What `rt_rbb_blk_alloc` relies on. -/
structure Arranged (rbb : RtRbb) : Prop where
  bound : rbb.buf + rbb.bufSize < 2 ^ 32
  inside : ∀ i ∈ rbb.blkList, rbb.buf ≤ (rbb.blkSet i).buf ∧ rbb.blkEnd i ≤ rbb.buf + rbb.bufSize
  pos : ∀ i ∈ rbb.blkList, 0 < (rbb.blkSet i).size
  rotated : Rotated (Before rbb.blkSet) rbb.blkList

/-- The blocks lie where they lay; only their status and the list may be others. -/
structure SameLayout (rbb rbb' : RtRbb) : Prop where
  buf : rbb'.buf = rbb.buf
  bufSize : rbb'.bufSize = rbb.bufSize
  blkMaxNum : rbb'.blkMaxNum = rbb.blkMaxNum
  blkBuf : ∀ i, (rbb'.blkSet i).buf = (rbb.blkSet i).buf
  blkSize : ∀ i, (rbb'.blkSet i).size = (rbb.blkSet i).size

theorem SameLayout.refl (rbb : RtRbb) : SameLayout rbb rbb := ⟨rfl, rfl, rfl, fun _ => rfl, fun _ => rfl⟩

theorem SameLayout.trans {r r' r'' : RtRbb} (h : SameLayout r r') (h' : SameLayout r' r'') : SameLayout r r'' :=
  ⟨h'.buf.trans h.buf, h'.bufSize.trans h.bufSize, h'.blkMaxNum.trans h.blkMaxNum,
    fun i => (h'.blkBuf i).trans (h.blkBuf i), fun i => (h'.blkSize i).trans (h.blkSize i)⟩

theorem SameLayout.blkEnd {r r' : RtRbb} (h : SameLayout r r') (i : ℕ) : r'.blkEnd i = r.blkEnd i :=
  congrArg₂ (· + ·) (h.blkBuf i) (h.blkSize i)

theorem setStatus_layout (rbb : RtRbb) (i : ℕ) (status : RtRbbStatus) : SameLayout rbb (rbb.setStatus i status) :=
  ⟨rfl, rfl, rfl, fun _ => setStatus_buf .., fun _ => setStatus_size ..⟩

theorem free_layout (rbb : RtRbb) (i : ℕ) : SameLayout rbb (rtRbbBlkFree rbb i) :=
  ⟨rfl, rfl, rfl, fun _ => setStatus_buf .., fun _ => setStatus_size ..⟩

theorem Arranged.sublist {r r' : RtRbb} (h : Arranged r) (hlay : SameLayout r r')
    (hsub : List.Sublist r'.blkList r.blkList) : Arranged r' := by
  refine ⟨?_, fun i hi => ?_, fun i hi => ?_, ?_⟩
  · rw [hlay.buf, hlay.bufSize]
    exact h.bound
  · rw [hlay.buf, hlay.bufSize, hlay.blkBuf, hlay.blkEnd]
    exact h.inside i (hsub.subset hi)
  · rw [hlay.blkSize]
    exact h.pos i (hsub.subset hi)
  · refine (h.rotated.sublist hsub).congr fun i _ j _ hij => ?_
    rwa [Before, hlay.blkBuf, hlay.blkBuf, hlay.blkSize]

/-- The part of the buffer that is taken for empty, from which a block of the given size would be
cut: behind the last block, before the first one, or the whole buffer. -/
def gap (rbb : RtRbb) (blkSize : ℕ) : ℕ × ℕ :=
  match rbb.blkList with
  | [] => (rbb.buf, rbb.buf + rbb.bufSize)
  | head :: rest =>
    let tail := rest.getLastD head
    if (rbb.blkSet head).buf ≤ (rbb.blkSet tail).buf then
      if rbb.blkEnd tail + blkSize ≤ rbb.buf + rbb.bufSize then (rbb.blkEnd tail, rbb.buf + rbb.bufSize)
      else (rbb.buf, (rbb.blkSet head).buf)
    else (rbb.blkEnd tail, (rbb.blkSet head).buf)

theorem append_blkSet_self (rbb : RtRbb) (new buf n : ℕ) :
    (rbb.append new buf n).blkSet new = ⟨.inited, n % 2 ^ 24, buf⟩ := Function.update_self ..

theorem append_blkSet_of_ne (rbb : RtRbb) {new i : ℕ} (buf n : ℕ) (h : i ≠ new) :
    (rbb.append new buf n).blkSet i = rbb.blkSet i := Function.update_of_ne h ..

theorem getLast?_cons_getLastD (head : ℕ) (rest : List ℕ) : (head :: rest).getLast? = some (rest.getLastD head) := by
  rw [List.getLast?_cons, List.getLastD_eq_getLast?]

variable {rbb : RtRbb} {n : ℕ}

theorem Arranged.ordered_or_before (h : Arranged rbb) {head : ℕ} {rest : List ℕ} (hlist : rbb.blkList = head :: rest) :
    rbb.blkList.Pairwise (Before rbb.blkSet) ∨ Before rbb.blkSet (rest.getLastD head) head :=
  h.rotated.pairwise_or_last (by rw [hlist, List.head?_cons]) (by rw [hlist, getLast?_cons_getLastD])

theorem Arranged.ordered_of_le (h : Arranged rbb) {head : ℕ} {rest : List ℕ} (hlist : rbb.blkList = head :: rest)
    (hle : (rbb.blkSet head).buf ≤ (rbb.blkSet (rest.getLastD head)).buf) :
    rbb.blkList.Pairwise (Before rbb.blkSet) := by
  refine (h.ordered_or_before hlist).resolve_right fun hbefore => ?_
  have hlast : rbb.blkList.getLast? = some (rest.getLastD head) := by rw [hlist, getLast?_cons_getLastD]
  have hpos := h.pos _ (List.mem_of_getLast? hlast)
  unfold Before at hbefore
  omega

theorem not_ordered_of_lt {head : ℕ} {rest : List ℕ} (hlist : rbb.blkList = head :: rest)
    (hlt : ¬(rbb.blkSet head).buf ≤ (rbb.blkSet (rest.getLastD head)).buf) :
    ¬rbb.blkList.Pairwise (Before rbb.blkSet) := by
  intro hpair
  rw [hlist] at hpair
  rcases List.eq_nil_or_concat rest with rfl | ⟨mid, z, rfl⟩
  · exact hlt le_rfl
  · rw [List.concat_eq_append] at hpair hlt
    have hbefore := List.rel_of_pairwise_cons hpair (show z ∈ mid ++ [z] by simp)
    rw [List.getLastD_concat] at hlt
    unfold Before at hbefore
    omega

theorem Arranged.tail_before (h : Arranged rbb) {head : ℕ} {rest : List ℕ} (hlist : rbb.blkList = head :: rest)
    (hlt : ¬(rbb.blkSet head).buf ≤ (rbb.blkSet (rest.getLastD head)).buf) :
    Before rbb.blkSet (rest.getLastD head) head :=
  (h.ordered_or_before hlist).resolve_left (not_ordered_of_lt hlist hlt)

theorem gap_cases (h : Arranged rbb) (n : ℕ) :
    (rbb.blkList = [] ∧ gap rbb n = (rbb.buf, rbb.buf + rbb.bufSize)) ∨
    ∃ head rest, rbb.blkList = head :: rest ∧
      (rbb.buf ≤ (rbb.blkSet head).buf ∧ (rbb.blkSet head).buf ≤ rbb.buf + rbb.bufSize) ∧
      (rbb.buf ≤ rbb.blkEnd (rest.getLastD head) ∧ rbb.blkEnd (rest.getLastD head) ≤ rbb.buf + rbb.bufSize) ∧
      (((rbb.blkSet head).buf ≤ (rbb.blkSet (rest.getLastD head)).buf ∧
          rbb.blkEnd (rest.getLastD head) + n ≤ rbb.buf + rbb.bufSize ∧
          gap rbb n = (rbb.blkEnd (rest.getLastD head), rbb.buf + rbb.bufSize)) ∨
        ((rbb.blkSet head).buf ≤ (rbb.blkSet (rest.getLastD head)).buf ∧
          ¬rbb.blkEnd (rest.getLastD head) + n ≤ rbb.buf + rbb.bufSize ∧
          gap rbb n = (rbb.buf, (rbb.blkSet head).buf)) ∨
        (¬(rbb.blkSet head).buf ≤ (rbb.blkSet (rest.getLastD head)).buf ∧
          rbb.blkEnd (rest.getLastD head) ≤ (rbb.blkSet head).buf ∧
          gap rbb n = (rbb.blkEnd (rest.getLastD head), (rbb.blkSet head).buf))) := by
  cases hlist : rbb.blkList with
  | nil => exact Or.inl ⟨rfl, by simp only [gap, hlist]⟩
  | cons head rest =>
    have hlast : rbb.blkList.getLast? = some (rest.getLastD head) := by rw [hlist, getLast?_cons_getLastD]
    have hhead := h.inside head (hlist ▸ List.mem_cons_self)
    have htail := h.inside _ (List.mem_of_getLast? hlast)
    refine Or.inr ⟨head, rest, rfl, ⟨hhead.1, (Nat.le_add_right _ _).trans hhead.2⟩,
      ⟨htail.1.trans (Nat.le_add_right _ _), htail.2⟩, ?_⟩
    by_cases hle : (rbb.blkSet head).buf ≤ (rbb.blkSet (rest.getLastD head)).buf
    · by_cases hend : rbb.blkEnd (rest.getLastD head) + n ≤ rbb.buf + rbb.bufSize
      · exact Or.inl ⟨hle, hend, by simp only [gap, hlist, if_pos hle, if_pos hend]⟩
      · exact Or.inr (Or.inl ⟨hle, hend, by simp only [gap, hlist, if_pos hle, if_neg hend]⟩)
    · exact Or.inr (Or.inr ⟨hle, h.tail_before hlist hle, by simp only [gap, hlist, if_neg hle]⟩)

theorem Arranged.append_rotated {new : ℕ} (h : Arranged rbb) (hnew : new ∉ rbb.blkList) (hn : n < 2 ^ 24)
    (hfit : (gap rbb n).1 + n ≤ (gap rbb n).2) :
    Rotated (Before (rbb.append new (gap rbb n).1 n).blkSet) (rbb.blkList ++ [new]) := by
  have hself := append_blkSet_self rbb new (gap rbb n).1 n
  have hother : ∀ i ∈ rbb.blkList, (rbb.append new (gap rbb n).1 n).blkSet i = rbb.blkSet i := fun i hi =>
    append_blkSet_of_ne rbb _ n fun he => hnew (he ▸ hi)
  rw [Nat.mod_eq_of_lt hn] at hself
  generalize hset : (rbb.append new (gap rbb n).1 n).blkSet = set at hself hother ⊢
  have hiff : ∀ i ∈ rbb.blkList, ∀ j ∈ rbb.blkList, Before rbb.blkSet i j → Before set i j := fun i hi j hj hij => by
    rwa [Before, hother i hi, hother j hj]
  have hiff' : ∀ i ∈ rbb.blkList, ∀ j ∈ rbb.blkList, Before set i j → Before rbb.blkSet i j := fun i hi j hj hij => by
    rwa [Before, hother i hi, hother j hj] at hij
  rcases gap_cases h n with ⟨hlist, -⟩ | ⟨head, rest, hlist, -, -, hcases⟩
  · rw [hlist]
    exact Rotated.of_pairwise (List.pairwise_singleton _ _)
  · have hhead : head ∈ rbb.blkList := hlist ▸ List.mem_cons_self
    have hlast : rbb.blkList.getLast? = some (rest.getLastD head) := by rw [hlist, getLast?_cons_getLastD]
    have htail : rest.getLastD head ∈ rbb.blkList := List.mem_of_getLast? hlast
    -- where the new block stands with respect to the first and the last one
    have hafter : Before set (rest.getLastD head) new ↔ rbb.blkEnd (rest.getLastD head) ≤ (gap rbb n).1 := by
      rw [Before, hother _ htail, hself, RtRbb.blkEnd]
    have hbefore : Before set new head ↔ (gap rbb n).1 + n ≤ (rbb.blkSet head).buf := by
      rw [Before, hother _ hhead, hself]
    have hordered (hle : (rbb.blkSet head).buf ≤ (rbb.blkSet (rest.getLastD head)).buf) :
        rbb.blkList.Pairwise (Before set) :=
      (h.ordered_of_le hlist hle).imp_of_mem fun {i j} hi hj hij => hiff i hi j hj hij
    rcases hcases with ⟨hle, -, hgap⟩ | ⟨hle, -, hgap⟩ | ⟨hlt, -, hgap⟩
    · obtain ⟨front, hfront⟩ := List.getLast?_eq_some_iff.mp hlast
      have hpair := hordered hle
      rw [hfront] at hpair ⊢
      rw [List.append_assoc]
      exact Rotated.of_pairwise (pairwise_snoc (Before.trans set) hpair (hafter.mpr (by rw [hgap])))
    · have hpair := hordered hle
      rw [hgap] at hfit hbefore
      rw [hlist] at hpair ⊢
      exact ⟨head :: rest, [new], rfl, pairwise_cons_cons (Before.trans set) hpair (hbefore.mpr hfit)⟩
    · have hnot : ¬rbb.blkList.Pairwise (Before set) := fun hpair =>
        not_ordered_of_lt hlist hlt (hpair.imp_of_mem fun {i j} hi hj hij => hiff' i hi j hj hij)
      have hxf := hbefore.mpr (by rw [hgap] at hfit ⊢; exact hfit)
      exact (h.rotated.congr hiff).snoc_between (Before.trans set) hnot (by rw [hlist, List.head?_cons]) hlast
        (hafter.mpr (by rw [hgap])) hxf

theorem Arranged.gap_inside (h : Arranged rbb) : rbb.buf ≤ (gap rbb n).1 ∧ (gap rbb n).2 ≤ rbb.buf + rbb.bufSize := by
  rcases gap_cases h n with ⟨-, hgap⟩ | ⟨head, rest, hlist, hhead, htail, hgap⟩
  · rw [hgap]
    exact ⟨le_rfl, le_rfl⟩
  · rcases hgap with ⟨-, -, hgap⟩ | ⟨-, -, hgap⟩ | ⟨-, -, hgap⟩ <;> rw [hgap] <;> simp only <;> omega

/-- The conditions under which there is a block to hand out. -/
def Available (rbb : RtRbb) (n : ℕ) : Prop :=
  (findEmptyBlkInSet rbb).isSome = true ∧ rbb.blkList.length < rbb.blkMaxNum ∧ (gap rbb n).1 + n ≤ (gap rbb n).2

instance (rbb : RtRbb) (n : ℕ) : Decidable (Available rbb n) := inferInstanceAs (Decidable (_ ∧ _))

/-- `rt_rbb_blk_alloc` cuts the new block from the start of the gap. -/
theorem rtRbbBlkAlloc_eq (h : Arranged rbb) (hn : n ≤ rbb.bufSize) :
    (¬Available rbb n ∧ rtRbbBlkAlloc rbb n = (rbb, none)) ∨
      (Available rbb n ∧ ∃ new, findEmptyBlkInSet rbb = some new ∧
        rtRbbBlkAlloc rbb n = (rbb.append new (gap rbb n).1 n, some new)) := by
  have hbound := h.bound
  unfold rtRbbBlkAlloc Available
  cases hfind : findEmptyBlkInSet rbb with
  | none => exact Or.inl ⟨fun ha => by simp at ha, rfl⟩
  | some new =>
    simp only [Option.isSome_some, true_and]
    by_cases hlen : rbb.blkList.length < rbb.blkMaxNum
    · simp only [hlen, true_and, if_true]
      rcases gap_cases h n with ⟨hlist, hgap⟩ | ⟨head, rest, hlist, hhead, htail, hcases⟩
      · simp only [hlist, hgap]
        exact Or.inr ⟨by omega, new, rfl, rfl⟩
      · simp only [hlist]
        rcases hcases with ⟨hle, hend, hgap⟩ | ⟨hle, hend, hgap⟩ | ⟨hlt, hend, hgap⟩
        · rw [if_pos hle, sub_of_le htail.2 hbound, if_pos (by omega), hgap]
          exact Or.inr ⟨hend, new, rfl, rfl⟩
        · rw [if_pos hle, sub_of_le htail.2 hbound, sub_of_le hhead.1 (by omega), if_neg (by omega), hgap]
          by_cases hempty : n ≤ (rbb.blkSet head).buf - rbb.buf
          · rw [if_pos hempty]
            exact Or.inr ⟨by simp only; omega, new, rfl, rfl⟩
          · rw [if_neg hempty]
            exact Or.inl ⟨by simp only; omega, rfl⟩
        · rw [if_neg hlt, sub_of_le hend (by omega), hgap]
          by_cases hempty : n ≤ (rbb.blkSet head).buf - rbb.blkEnd (rest.getLastD head)
          · rw [if_pos hempty]
            exact Or.inr ⟨by simp only; omega, new, rfl, rfl⟩
          · rw [if_neg hempty]
            exact Or.inl ⟨by simp only; omega, rfl⟩
    · simp only [hlen, false_and, if_false]
      exact Or.inl ⟨not_false, trivial⟩

theorem Arranged.append {new : ℕ} (h : Arranged rbb) (hnew : new ∉ rbb.blkList) (hpos : 0 < n) (hn : n < 2 ^ 24)
    (hfit : (gap rbb n).1 + n ≤ (gap rbb n).2) : Arranged (rbb.append new (gap rbb n).1 n) := by
  have hother : ∀ i ∈ rbb.blkList, (rbb.append new (gap rbb n).1 n).blkSet i = rbb.blkSet i := fun i hi =>
    append_blkSet_of_ne rbb _ n fun he => hnew (he ▸ hi)
  have hself := append_blkSet_self rbb new (gap rbb n).1 n
  have hinside := @Arranged.gap_inside rbb n h
  rw [Nat.mod_eq_of_lt hn] at hself
  refine ⟨h.bound, fun i hi => ?_, fun i hi => ?_, h.append_rotated hnew hn hfit⟩
  · rcases List.mem_append.mp hi with hi | hi
    · rw [RtRbb.blkEnd, hother i hi]
      exact h.inside i hi
    · rw [List.mem_singleton.mp hi, RtRbb.blkEnd, hself]
      exact ⟨hinside.1, hfit.trans hinside.2⟩
  · rcases List.mem_append.mp hi with hi | hi
    · rw [hother i hi]
      exact h.pos i hi
    · rw [List.mem_singleton.mp hi, hself]
      exact hpos

end RtThread.Drivers.RingBlkBuf
