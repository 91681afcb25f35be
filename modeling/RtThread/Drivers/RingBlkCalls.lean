import RtThread.Drivers.RingBlkQueue
import RtThread.Lib.Fitting

/-!
# What a block queue takes (`ringblk_buf.c:362-538`)

Runs of all the calls on a ring block buffer, with every size that the assertion of
`rt_rbb_blk_alloc` admits and with queues that are freed in any order. `rt_rbb_blk_queue_get` takes
the first block with the status `put` whatever its size, and then the blocks behind it as long as the
limit admits them.
-/

namespace RtThread.Drivers.RingBlkBuf.Calls

open RtThread.Lib.Fitting RtThread.Lib.Transition RtThread.Lib.Word
open RtThread.Drivers.RingBlkBuf.Queue

inductive Act where
  | alloc (blkSize : ℕ)
  | put (block : ℕ)
  | get
  | free (block : ℕ)
  | queueGet (queueDataLen : ℕ)
  | queueFree (blkQueue : RtRbbBlkQueue)
  deriving DecidableEq, Repr

/-- An entry of `blk_set` that `rt_rbb_blk_free` accepts. -/
def Freeable (rbb : RtRbb) (block : ℕ) : Prop := block < rbb.blkMaxNum ∧ (rbb.blkSet block).status ≠ .unused

instance (rbb : RtRbb) (block : ℕ) : Decidable (Freeable rbb block) := inferInstanceAs (Decidable (_ ∧ _))

/-- One call that passes the assertions of the code. -/
def step (rbb : RtRbb) : Act → Option RtRbb
  | .alloc n => if n < 2 ^ 24 then some (rtRbbBlkAlloc rbb n).1 else none
  | .put block =>
    if block < rbb.blkMaxNum ∧ (rbb.blkSet block).status = .inited then some (rtRbbBlkPut rbb block) else none
  | .get => some (rtRbbBlkGet rbb).1
  | .free block => if Freeable rbb block then some (rtRbbBlkFree rbb block) else none
  | .queueGet queueDataLen => some (rtRbbBlkQueueGet rbb queueDataLen).rbb
  | .queueFree blkQueue =>
    if ∀ i ∈ List.range' blkQueue.blocks blkQueue.blkNum, Freeable rbb i then some (rtRbbBlkQueueFree rbb blkQueue)
    else none

/-- The blocks of the list are entries in use, each of them once, with sizes of 24 bits. -/
structure Listed (rbb : RtRbb) : Prop where
  nodup : rbb.blkList.Nodup
  used : ∀ i ∈ rbb.blkList, Freeable rbb i
  small : ∀ i ∈ rbb.blkList, (rbb.blkSet i).size < 2 ^ 24

variable {rbb rbb' : RtRbb} {i j : ℕ}

theorem freeable_setStatus {status : RtRbbStatus} (hstatus : status ≠ .unused) (h : Freeable rbb j) :
    Freeable (rbb.setStatus i status) j := by
  refine ⟨h.1, ?_⟩
  by_cases he : j = i
  · rw [he, setStatus_status_self]
    exact hstatus
  · rw [setStatus_status_of_ne _ _ _ _ he]
    exact h.2

theorem Listed.setStatus {status : RtRbbStatus} (h : Listed rbb) (hstatus : status ≠ .unused) :
    Listed (rbb.setStatus i status) :=
  ⟨h.nodup, fun j hj => freeable_setStatus hstatus (h.used j hj), fun j hj => by
    rw [setStatus_size]
    exact h.small j hj⟩

theorem Listed.takeOff (h : Listed rbb) (i : ℕ) : Listed (takeOff rbb i) :=
  ⟨h.nodup.erase i, fun j hj => freeable_setStatus RtRbbStatus.noConfusion (h.used j (List.mem_of_mem_erase hj)),
    fun j hj => by
      rw [(takeOff_layout rbb i).blkSize]
      exact h.small j (List.mem_of_mem_erase hj)⟩

theorem free_status_of_ne (rbb : RtRbb) (hne : j ≠ i) :
    ((rtRbbBlkFree rbb i).blkSet j).status = (rbb.blkSet j).status := setStatus_status_of_ne _ _ _ _ hne

theorem Listed.free (h : Listed rbb) (i : ℕ) : Listed (rtRbbBlkFree rbb i) := by
  refine ⟨h.nodup.erase i, fun j hj => ?_, fun j hj => ?_⟩
  · obtain ⟨hne, hmem⟩ := h.nodup.mem_erase_iff.mp hj
    refine ⟨(h.used j hmem).1, ?_⟩
    rw [free_status_of_ne rbb hne]
    exact (h.used j hmem).2
  · rw [(free_layout rbb i).blkSize]
    exact h.small j (List.mem_of_mem_erase hj)

theorem Listed.freeAll (h : Listed rbb) (l : List ℕ) : Listed (l.foldl rtRbbBlkFree rbb) := by
  induction l generalizing rbb with
  | nil => exact h
  | cons i l ih => exact ih (h.free i)

theorem Listed.takeOffAll (h : Listed rbb) (l : List ℕ) : Listed (l.foldl Queue.takeOff rbb) := by
  induction l generalizing rbb with
  | nil => exact h
  | cons i l ih => exact ih (h.takeOff i)

theorem rtRbbBlkAlloc_cases (rbb : RtRbb) (n : ℕ) :
    rtRbbBlkAlloc rbb n = (rbb, none) ∨
      ∃ new buf, findEmptyBlkInSet rbb = some new ∧ rtRbbBlkAlloc rbb n = (rbb.append new buf n, some new) := by
  unfold rtRbbBlkAlloc
  cases hfind : findEmptyBlkInSet rbb with
  | none => exact Or.inl rfl
  | some new =>
    simp only
    split
    · split
      · exact Or.inr ⟨new, _, rfl, rfl⟩
      · split
        · split
          · exact Or.inr ⟨new, _, rfl, rfl⟩
          · split
            · exact Or.inr ⟨new, _, rfl, rfl⟩
            · exact Or.inl rfl
        · split
          · exact Or.inr ⟨new, _, rfl, rfl⟩
          · exact Or.inl rfl
    · exact Or.inl rfl

theorem Listed.append {new buf n : ℕ} (h : Listed rbb) (hfind : findEmptyBlkInSet rbb = some new) :
    Listed (rbb.append new buf n) := by
  obtain ⟨hlt, hunused⟩ := findEmpty_spec hfind
  have hnew : new ∉ rbb.blkList := fun hmem => (h.used new hmem).2 hunused
  refine ⟨List.nodup_append.mpr ⟨h.nodup, List.nodup_singleton new, fun i hi j hj hij =>
    hnew (List.mem_singleton.mp hj ▸ hij ▸ hi)⟩, fun i hi => ?_, fun i hi => ?_⟩
  · unfold Freeable
    by_cases he : i = new
    · rw [he, append_blkSet_self]
      exact ⟨hlt, RtRbbStatus.noConfusion⟩
    · rw [append_blkSet_of_ne _ _ _ he]
      exact h.used i ((List.mem_append.mp hi).resolve_right fun hs => he (List.mem_singleton.mp hs))
  · by_cases he : i = new
    · rw [he, append_blkSet_self]
      exact Nat.mod_lt _ (Nat.two_pow_pos 24)
    · rw [append_blkSet_of_ne _ _ _ he]
      exact h.small i ((List.mem_append.mp hi).resolve_right fun hs => he (List.mem_singleton.mp hs))

/-! ### The loop -/

/-- The blocks behind `last` that the loop takes after `total` bytes. -/
def takenFrom (blkSet : ℕ → RtRbbBlk) (queueDataLen : ℕ) : ℕ → ℕ → List ℕ → List ℕ
  | _, _, [] => []
  | total, last, i :: rest =>
    if (blkSet i).status = .put ∧ (blkSet last).buf ≤ (blkSet i).buf ∧ add 32 total (blkSet i).size ≤ queueDataLen then
      i :: takenFrom blkSet queueDataLen (add 32 total (blkSet i).size) i rest
    else []

/-- The blocks that `rt_rbb_blk_queue_get` takes off a list. -/
def taken (blkSet : ℕ → RtRbbBlk) (queueDataLen : ℕ) : List ℕ → List ℕ
  | [] => []
  | i :: rest =>
    if (blkSet i).status = .put then i :: takenFrom blkSet queueDataLen (blkSet i).size i rest
    else taken blkSet queueDataLen rest

theorem takenFrom_congr {r r' : RtRbb} {len : ℕ} (hlay : SameLayout r r') {l : List ℕ} (total last : ℕ)
    (hstatus : ∀ i ∈ l, (r'.blkSet i).status = (r.blkSet i).status) :
    takenFrom r'.blkSet len total last l = takenFrom r.blkSet len total last l := by
  induction l generalizing total last with
  | nil => rfl
  | cons i l ih =>
    rw [takenFrom, takenFrom, hstatus i List.mem_cons_self, hlay.blkBuf, hlay.blkBuf, hlay.blkSize,
      ih _ _ fun j hj => hstatus j (List.mem_cons_of_mem i hj)]

theorem takenFrom_sublist (blkSet : ℕ → RtRbbBlk) (len total last : ℕ) (l : List ℕ) :
    (takenFrom blkSet len total last l).Sublist l := by
  induction l generalizing total last with
  | nil => exact List.Sublist.refl _
  | cons i l ih =>
    unfold takenFrom
    split
    · exact (ih _ _).cons_cons i
    · exact List.nil_sublist _

theorem taken_sublist (blkSet : ℕ → RtRbbBlk) (len : ℕ) (l : List ℕ) : (taken blkSet len l).Sublist l := by
  induction l with
  | nil => exact List.Sublist.refl _
  | cons i l ih =>
    unfold taken
    split
    · exact (takenFrom_sublist blkSet len _ i l).cons_cons i
    · exact ih.cons i

theorem takenFrom_put (blkSet : ℕ → RtRbbBlk) (len total last : ℕ) (l : List ℕ) :
    ∀ i ∈ takenFrom blkSet len total last l, (blkSet i).status = .put := by
  induction l generalizing total last with
  | nil => exact fun i hi => absurd hi List.not_mem_nil
  | cons j l ih =>
    unfold takenFrom
    split
    · next hgo =>
      intro i hi
      rcases List.mem_cons.mp hi with rfl | hi
      · exact hgo.1
      · exact ih _ _ i hi
    · exact fun i hi => absurd hi List.not_mem_nil

theorem taken_put (blkSet : ℕ → RtRbbBlk) (len : ℕ) (l : List ℕ) :
    ∀ i ∈ taken blkSet len l, (blkSet i).status = .put := by
  induction l with
  | nil => exact fun i hi => absurd hi List.not_mem_nil
  | cons j l ih =>
    unfold taken
    split
    · next hput =>
      intro i hi
      rcases List.mem_cons.mp hi with rfl | hi
      · exact hput
      · exact takenFrom_put blkSet len _ j l i hi
    · exact ih

theorem queueGetLoop_eq {len last : ℕ} {blkQueue : RtRbbBlkQueue} {nodes : List ℕ} (hnodup : nodes.Nodup)
    (rbb : RtRbb) (total : ℕ) :
    queueGetLoop len nodes ⟨rbb, total, some last, some blkQueue⟩ =
      ⟨(takenFrom rbb.blkSet len total last nodes).foldl takeOff rbb,
        (takenFrom rbb.blkSet len total last nodes).foldl (fun t i => add 32 t (rbb.blkSet i).size) total,
        some ((takenFrom rbb.blkSet len total last nodes).getLastD last),
        some { blkQueue with blkNum := blkQueue.blkNum + (takenFrom rbb.blkSet len total last nodes).length }⟩ := by
  induction nodes generalizing rbb total last blkQueue with
  | nil => rfl
  | cons node nodes ih =>
    obtain ⟨hnot, hrest⟩ := List.nodup_cons.mp hnodup
    simp only [queueGetLoop, takenFrom]
    by_cases hgo : (rbb.blkSet node).status = .put ∧ (rbb.blkSet last).buf ≤ (rbb.blkSet node).buf ∧
        add 32 total (rbb.blkSet node).size ≤ len
    · rw [if_pos hgo, if_neg (by simp only [not_or, not_not, not_lt]; exact hgo)]
      have hcongr : takenFrom (takeOff rbb node).blkSet len (add 32 total (rbb.blkSet node).size) node nodes =
          takenFrom rbb.blkSet len (add 32 total (rbb.blkSet node).size) node nodes :=
        takenFrom_congr (takeOff_layout rbb node) _ _ fun j hj => takeOff_status_of_ne rbb fun he => hnot (he ▸ hj)
      have hloop := @ih node { blkQueue with blkNum := blkQueue.blkNum + 1 } hrest (takeOff rbb node)
        (add 32 total (rbb.blkSet node).size)
      rw [hcongr] at hloop
      simp only [(takeOff_layout rbb node).blkSize] at hloop
      refine hloop.trans ?_
      rw [List.foldl_cons, List.foldl_cons, List.getLastD_cons, List.length_cons, Nat.add_assoc, Nat.add_comm 1]
    · rw [if_neg hgo, if_pos (by
        by_contra hno
        simp only [not_or, not_not, not_lt] at hno
        exact hgo hno)]
      rfl

/-- What a call leaves behind. -/
structure Takes (rbb : RtRbb) (l : List ℕ) (r : QueueGet) : Prop where
  rbb_eq : r.rbb = l.foldl takeOff rbb
  total_eq : r.dataTotalSize = l.foldl (fun t i => add 32 t (rbb.blkSet i).size) 0
  queue_eq : r.blkQueue = l.head?.map fun first => ⟨first, l.length⟩

theorem queueGetLoop_takes {len : ℕ} {nodes : List ℕ} (hnodup : nodes.Nodup)
    (hsmall : ∀ i ∈ nodes, (rbb.blkSet i).size < 2 ^ 24) :
    Takes rbb (taken rbb.blkSet len nodes) (queueGetLoop len nodes ⟨rbb, 0, none, none⟩) := by
  induction nodes with
  | nil => exact ⟨rfl, rfl, rfl⟩
  | cons node nodes ih =>
    obtain ⟨hnot, hrest⟩ := List.nodup_cons.mp hnodup
    simp only [queueGetLoop, taken]
    by_cases hput : (rbb.blkSet node).status = .put
    · rw [if_pos hput, if_pos hput]
      have hfirst : add 32 0 (rbb.blkSet node).size = (rbb.blkSet node).size := by
        have := hsmall node List.mem_cons_self
        rw [add_of_lt (by omega), Nat.zero_add]
      have hcongr : takenFrom (takeOff rbb node).blkSet len (rbb.blkSet node).size node nodes =
          takenFrom rbb.blkSet len (rbb.blkSet node).size node nodes :=
        takenFrom_congr (takeOff_layout rbb node) _ _ fun j hj => takeOff_status_of_ne rbb fun he => hnot (he ▸ hj)
      have hloop := @queueGetLoop_eq len node ⟨node, 1⟩ nodes hrest (takeOff rbb node) (rbb.blkSet node).size
      rw [hcongr] at hloop
      simp only [(takeOff_layout rbb node).blkSize] at hloop
      have htake : (⟨rbb, 0, none, none⟩ : QueueGet).take node ⟨node, 0⟩ =
          ⟨takeOff rbb node, (rbb.blkSet node).size, some node, some ⟨node, 1⟩⟩ := by
        simp only [QueueGet.take, hfirst]
        rfl
      rw [htake, hloop]
      refine ⟨rfl, ?_, ?_⟩
      · simp only [List.foldl_cons, hfirst]
      · simp only [List.head?_cons, Option.map_some, List.length_cons, Nat.add_comm 1]
    · rw [if_neg hput, if_neg hput]
      exact ih hrest fun i hi => hsmall i (List.mem_cons_of_mem node hi)

theorem queueGet_takes (h : Listed rbb) (len : ℕ) :
    Takes rbb (taken rbb.blkSet len rbb.blkList) (rtRbbBlkQueueGet rbb len) := queueGetLoop_takes h.nodup h.small

/-- The sum of the sizes as the code computes it. -/
def size (blkSet : ℕ → RtRbbBlk) (i : ℕ) : ℕ := (blkSet i).size

theorem foldl_add_mod (blkSet : ℕ → RtRbbBlk) (l : List ℕ) (total : ℕ) :
    l.foldl (fun t i => add 32 t (blkSet i).size) total % 2 ^ 32 = (total + weight (size blkSet) l) % 2 ^ 32 := by
  induction l generalizing total with
  | nil => rfl
  | cons i l ih =>
    rw [List.foldl_cons, ih, weight_cons, add, Nat.mod_add_mod, Nat.add_assoc, size]

theorem foldl_add_lt (blkSet : ℕ → RtRbbBlk) (l : List ℕ) {total : ℕ} (h : total < 2 ^ 32) :
    l.foldl (fun t i => add 32 t (blkSet i).size) total < 2 ^ 32 := by
  induction l generalizing total with
  | nil => exact h
  | cons i l ih => exact ih (Nat.mod_lt _ (Nat.two_pow_pos 32))

theorem foldl_add_eq (blkSet : ℕ → RtRbbBlk) (l : List ℕ) :
    l.foldl (fun t i => add 32 t (blkSet i).size) 0 = weight (size blkSet) l % 2 ^ 32 := by
  have hmod := foldl_add_mod blkSet l 0
  rwa [Nat.mod_eq_of_lt (foldl_add_lt blkSet l (Nat.two_pow_pos 32)), Nat.zero_add] at hmod

theorem takeOffAll_layout (l : List ℕ) (rbb : RtRbb) : SameLayout rbb (l.foldl takeOff rbb) := by
  induction l generalizing rbb with
  | nil => exact SameLayout.refl rbb
  | cons i l ih => exact (takeOff_layout rbb i).trans (ih _)

theorem takeOffAll_status (l : List ℕ) (rbb : RtRbb) (j : ℕ) :
    ((l.foldl takeOff rbb).blkSet j).status = if j ∈ l then .get else (rbb.blkSet j).status := by
  induction l generalizing rbb with
  | nil => rfl
  | cons i l ih =>
    rw [List.foldl_cons, ih]
    by_cases hl : j ∈ l
    · rw [if_pos hl, if_pos (List.mem_cons_of_mem i hl)]
    · rw [if_neg hl]
      by_cases he : j = i
      · rw [if_pos (List.mem_cons.mpr (Or.inl he)), he]
        exact setStatus_status_self ..
      · rw [if_neg (List.not_mem_cons_of_ne_of_not_mem he hl), takeOff_status_of_ne rbb he]

theorem freeAll_status (l : List ℕ) (rbb : RtRbb) (j : ℕ) :
    ((l.foldl rtRbbBlkFree rbb).blkSet j).status = if j ∈ l then .unused else (rbb.blkSet j).status := by
  induction l generalizing rbb with
  | nil => rfl
  | cons i l ih =>
    rw [List.foldl_cons, ih]
    by_cases hl : j ∈ l
    · rw [if_pos hl, if_pos (List.mem_cons_of_mem i hl)]
    · rw [if_neg hl]
      by_cases he : j = i
      · rw [if_pos (List.mem_cons.mpr (Or.inl he)), he]
        exact setStatus_status_self ..
      · rw [if_neg (List.not_mem_cons_of_ne_of_not_mem he hl), free_status_of_ne rbb he]

theorem Listed.step {a : Act} (h : Listed rbb) (hstep : step rbb a = some rbb') : Listed rbb' := by
  cases a with
  | alloc n =>
    obtain ⟨-, heq⟩ := Option.ite_none_right_eq_some.mp hstep
    cases heq
    rcases rtRbbBlkAlloc_cases rbb n with heq | ⟨new, buf, hfind, heq⟩ <;> rw [heq]
    · exact h
    · exact h.append hfind
  | put block =>
    obtain ⟨-, heq⟩ := Option.ite_none_right_eq_some.mp hstep
    cases heq
    exact h.setStatus RtRbbStatus.noConfusion
  | get =>
    cases hstep
    unfold rtRbbBlkGet
    split
    · exact h
    · exact h.setStatus RtRbbStatus.noConfusion
  | free block =>
    obtain ⟨-, heq⟩ := Option.ite_none_right_eq_some.mp hstep
    cases heq
    exact h.free block
  | queueGet len =>
    cases hstep
    rw [(queueGet_takes h len).rbb_eq]
    exact h.takeOffAll _
  | queueFree blkQueue =>
    obtain ⟨-, heq⟩ := Option.ite_none_right_eq_some.mp hstep
    cases heq
    rw [queueFree_eq]
    exact h.freeAll _

theorem listed_init (buf bufSize : ℕ) (blockSet : ℕ → RtRbbBlk) (blkMaxNum : ℕ) :
    Listed (rtRbbInit buf bufSize blockSet blkMaxNum) where
  nodup := List.nodup_nil
  used _ hi := absurd hi List.not_mem_nil
  small _ hi := absurd hi List.not_mem_nil

/-! ### What a queue accounts for -/

/-- The call of `rt_rbb_blk_queue_get` changed the status of the entry to `get`. -/
def Changed (rbb : RtRbb) (queueDataLen i : ℕ) : Prop :=
  (rbb.blkSet i).status ≠ .get ∧ ((rtRbbBlkQueueGet rbb queueDataLen).rbb.blkSet i).status = .get

/-- The queue that the call returns has the length that the call returns, and when it is freed then exactly
the entries that the call changed become unused. -/
def Accounts (rbb : RtRbb) (queueDataLen : ℕ) : Prop :=
  ∃ blkQueue rbb', (rtRbbBlkQueueGet rbb queueDataLen).blkQueue = some blkQueue ∧
    rtRbbBlkQueueLen (rtRbbBlkQueueGet rbb queueDataLen).rbb blkQueue =
      (rtRbbBlkQueueGet rbb queueDataLen).dataTotalSize ∧
    step (rtRbbBlkQueueGet rbb queueDataLen).rbb (.queueFree blkQueue) = some rbb' ∧
    ∀ i, (((rtRbbBlkQueueGet rbb queueDataLen).rbb.blkSet i).status ≠ .unused ∧ (rbb'.blkSet i).status = .unused) ↔
      Changed rbb queueDataLen i

/-- The blocks are, in some order, as many entries of `blk_set` from the first of them on. -/
def Consecutive : List ℕ → Prop
  | [] => True
  | first :: rest => ∀ i ∈ first :: rest, first ≤ i ∧ i < first + (rest.length + 1)

instance : DecidablePred Consecutive
  | [] => isTrue trivial
  | first :: rest => inferInstanceAs (Decidable (∀ i ∈ first :: rest, first ≤ i ∧ i < first + (rest.length + 1)))

theorem Consecutive.perm {first : ℕ} {rest : List ℕ} (h : Consecutive (first :: rest))
    (hnodup : (first :: rest).Nodup) : (first :: rest).Perm (List.range' first (rest.length + 1)) := by
  refine (hnodup.subperm fun i hi => ?_).perm_of_length_le ?_
  · exact List.mem_range'_1.mpr (h i hi)
  · rw [List.length_range', List.length_cons]

theorem queueLen_eq_foldl (rbb : RtRbb) (blkQueue : RtRbbBlkQueue) : rtRbbBlkQueueLen rbb blkQueue =
    (List.range' blkQueue.blocks blkQueue.blkNum).foldl (fun t i => add 32 t (rbb.blkSet i).size) 0 := by
  rw [rtRbbBlkQueueLen, List.range'_eq_map_range, List.foldl_map]

theorem changed_iff (h : Listed rbb) (len i : ℕ) : Changed rbb len i ↔ i ∈ taken rbb.blkSet len rbb.blkList := by
  unfold Changed
  rw [(queueGet_takes h len).rbb_eq, takeOffAll_status]
  by_cases hi : i ∈ taken rbb.blkSet len rbb.blkList
  · rw [if_pos hi, taken_put rbb.blkSet len rbb.blkList i hi]
    exact iff_of_true ⟨RtRbbStatus.noConfusion, rfl⟩ hi
  · rw [if_neg hi]
    exact iff_of_false (fun hc => hc.1 hc.2) hi

theorem accounts_iff (h : Listed rbb) {len first : ℕ} {rest : List ℕ}
    (htaken : taken rbb.blkSet len rbb.blkList = first :: rest) : Accounts rbb len ↔ Consecutive (first :: rest) := by
  have hr := queueGet_takes h len
  have hchanged := changed_iff h len
  have hsub := taken_sublist rbb.blkSet len rbb.blkList
  unfold Accounts
  generalize rtRbbBlkQueueGet rbb len = r at hr ⊢
  rw [htaken] at hr hchanged hsub
  obtain ⟨hrbb, htotal, hqueue⟩ := hr
  have hstatus : ∀ i, (r.rbb.blkSet i).status = if i ∈ first :: rest then .get else (rbb.blkSet i).status := by
    rw [hrbb]
    exact takeOffAll_status (first :: rest) rbb
  have hlay := takeOffAll_layout (first :: rest) rbb
  rw [← hrbb] at hlay
  constructor
  · rintro ⟨blkQueue, rbb', hq, -, hstep, hiff⟩
    rw [hqueue] at hq
    cases hq
    obtain ⟨-, heq⟩ := Option.ite_none_right_eq_some.mp hstep
    cases heq
    intro i hi
    have hfreed := ((hiff i).mpr ((hchanged i).mpr hi)).2
    rw [queueFree_eq, freeAll_status, hstatus, if_pos hi] at hfreed
    split at hfreed
    · next hmem => exact List.mem_range'_1.mp hmem
    · cases hfreed
  · intro hcons
    have hperm := hcons.perm (h.nodup.sublist hsub)
    have hget : ∀ i ∈ List.range' first (rest.length + 1), (r.rbb.blkSet i).status = .get := by
      intro i hi
      rw [hstatus, if_pos (hperm.mem_iff.mpr hi)]
    refine ⟨⟨first, rest.length + 1⟩, rtRbbBlkQueueFree r.rbb ⟨first, rest.length + 1⟩, hqueue, ?_, if_pos ?_,
      fun i => ?_⟩
    · simp only [queueLen_eq_foldl, hlay.blkSize]
      rw [htotal, foldl_add_eq, foldl_add_eq, weight_perm _ hperm]
    · intro i hi
      refine ⟨?_, ?_⟩
      · rw [hlay.blkMaxNum]
        exact (h.used i (hsub.subset (hperm.mem_iff.mpr hi))).1
      · rw [hget i hi]
        exact RtRbbStatus.noConfusion
    · rw [hchanged, hperm.mem_iff, queueFree_eq, freeAll_status]
      by_cases hi : i ∈ List.range' first (rest.length + 1)
      · rw [if_pos hi, hget i hi]
        exact iff_of_true ⟨RtRbbStatus.noConfusion, rfl⟩ hi
      · rw [if_neg hi]
        exact iff_of_false (fun hc => hc.1 hc.2) hi

/-- In every state that the calls reach, a call of `rt_rbb_blk_queue_get` that returns a length accounts for
its blocks exactly if they are consecutive entries of `blk_set`. -/
theorem queue_accounts_iff {buf bufSize blkMaxNum : ℕ} {blockSet : ℕ → RtRbbBlk} {acts : List Act}
    (hrun : exec step (rtRbbInit buf bufSize blockSet blkMaxNum) acts = some rbb) {queueDataLen : ℕ}
    (hpos : 0 < (rtRbbBlkQueueGet rbb queueDataLen).dataTotalSize) :
    Accounts rbb queueDataLen ↔ Consecutive (taken rbb.blkSet queueDataLen rbb.blkList) := by
  have h := exec_inv Listed (fun _ _ _ h hstep => h.step hstep) (listed_init buf bufSize blockSet blkMaxNum) hrun
  cases htaken : taken rbb.blkSet queueDataLen rbb.blkList with
  | nil =>
    rw [(queueGet_takes h queueDataLen).total_eq, htaken] at hpos
    exact absurd hpos (lt_irrefl 0)
  | cons first rest => exact accounts_iff h htaken

/-- Two blocks that were put, of three. -/
def twoPut : List Act := [.alloc 4, .alloc 4, .alloc 4, .put 0, .put 1]

theorem queue_accounts_iff_twoPut :
    ∃ rbb, exec step (rtRbbInit 1000 16 blankSet 3) twoPut = some rbb ∧
      (rtRbbBlkQueueGet rbb 8).dataTotalSize = 8 ∧ Accounts rbb 8 :=
  ⟨_, rfl, rfl, (@queue_accounts_iff _ 1000 16 3 blankSet twoPut rfl 8 (by decide)).mpr (by decide)⟩

/-- The entry 0 is freed and used again behind the entry 2, before the entry 3. -/
def reused : List Act :=
  [.alloc 4, .alloc 4, .alloc 4, .put 0, .queueGet 4, .queueFree ⟨0, 1⟩, .alloc 4, .alloc 6, .put 2, .put 0]

/-- The queue of the entries 2 and 0 has eight bytes; its length is that of the entries 2 and 3, and
these are freed. -/
theorem queue_of_reused :
    ∃ rbb, exec step (rtRbbInit 1000 24 blankSet 4) reused = some rbb ∧
      (rtRbbBlkQueueGet rbb 8).dataTotalSize = 8 ∧ (rtRbbBlkQueueGet rbb 8).blkQueue = some ⟨2, 2⟩ ∧
      rtRbbBlkQueueLen (rtRbbBlkQueueGet rbb 8).rbb ⟨2, 2⟩ = 10 ∧
      ((rtRbbBlkQueueFree (rtRbbBlkQueueGet rbb 8).rbb ⟨2, 2⟩).blkSet 0).status = .get ∧ ¬Accounts rbb 8 := by
  refine ⟨_, rfl, rfl, rfl, rfl, rfl, ?_⟩
  rintro ⟨blkQueue, rbb', hq, hlen, -⟩
  cases hq
  exact absurd hlen (by decide)

/-! ### What the limit admits -/

/-- The blocks behind `last` that have been put and do not lie before the one ahead of them. -/
def runFrom (blkSet : ℕ → RtRbbBlk) : ℕ → List ℕ → List ℕ
  | _, [] => []
  | last, i :: rest =>
    if (blkSet i).status = .put ∧ (blkSet last).buf ≤ (blkSet i).buf then i :: runFrom blkSet i rest else []

/-- The run of blocks that have been put, from the first one of a list on, with addresses that do not
decrease. -/
def putRun (blkSet : ℕ → RtRbbBlk) : List ℕ → List ℕ
  | [] => []
  | i :: rest => if (blkSet i).status = .put then i :: runFrom blkSet i rest else putRun blkSet rest

/-- The loop of `rt_rbb_next_blk_queue_len` (`ringblk_buf.c:504-533`). -/
def nextBlkQueueLoop (blkSet : ℕ → RtRbbBlk) : List ℕ → Option ℕ → ℕ → ℕ
  | [], _, dataLen => dataLen
  | node :: nodes, none, dataLen =>
    if (blkSet node).status ≠ .put then nextBlkQueueLoop blkSet nodes none dataLen
    else nextBlkQueueLoop blkSet nodes (some node) (add 32 dataLen (blkSet node).size)
  | node :: nodes, some last, dataLen =>
    if (blkSet node).status ≠ .put ∨ (blkSet node).buf < (blkSet last).buf then dataLen
    else nextBlkQueueLoop blkSet nodes (some node) (add 32 dataLen (blkSet node).size)

/-- `rt_rbb_next_blk_queue_len` (`ringblk_buf.c:491-538`). -/
def rtRbbNextBlkQueueLen (rbb : RtRbb) : ℕ := nextBlkQueueLoop rbb.blkSet rbb.blkList none 0

theorem nextBlkQueueLoop_some (blkSet : ℕ → RtRbbBlk) (nodes : List ℕ) (last dataLen : ℕ) :
    nextBlkQueueLoop blkSet nodes (some last) dataLen =
      (runFrom blkSet last nodes).foldl (fun t i => add 32 t (blkSet i).size) dataLen := by
  induction nodes generalizing last dataLen with
  | nil => rfl
  | cons node nodes ih =>
    unfold nextBlkQueueLoop runFrom
    by_cases hgo : (blkSet node).status = .put ∧ (blkSet last).buf ≤ (blkSet node).buf
    · rw [if_pos hgo, if_neg (by simp only [not_or, not_not, not_lt]; exact hgo), ih]
      rfl
    · rw [if_neg hgo, if_pos (by
        by_contra hno
        simp only [not_or, not_not, not_lt] at hno
        exact hgo hno)]
      rfl

theorem nextBlkQueueLen_eq (rbb : RtRbb) :
    rtRbbNextBlkQueueLen rbb = weight (size rbb.blkSet) (putRun rbb.blkSet rbb.blkList) % 2 ^ 32 := by
  rw [← foldl_add_eq]
  unfold rtRbbNextBlkQueueLen
  generalize rbb.blkList = nodes
  induction nodes with
  | nil => rfl
  | cons node nodes ih =>
    unfold nextBlkQueueLoop putRun
    by_cases hput : (rbb.blkSet node).status = .put
    · rw [if_neg (not_not.mpr hput), if_pos hput, nextBlkQueueLoop_some]
      rfl
    · rw [if_pos hput, if_neg hput]
      exact ih

theorem takenFrom_eq_fitting (blkSet : ℕ → RtRbbBlk) (len : ℕ) {nodes : List ℕ} {total last : ℕ}
    (hsum : total + weight (size blkSet) (runFrom blkSet last nodes) < 2 ^ 32) :
    takenFrom blkSet len total last nodes = fitting (size blkSet) len total (runFrom blkSet last nodes) := by
  induction nodes generalizing total last with
  | nil => rfl
  | cons node nodes ih =>
    unfold takenFrom
    unfold runFrom at hsum ⊢
    by_cases hgo : (blkSet node).status = .put ∧ (blkSet last).buf ≤ (blkSet node).buf
    · rw [if_pos hgo, weight_cons] at hsum
      have hadd : add 32 total (blkSet node).size = total + size blkSet node := by
        unfold size at hsum ⊢
        exact add_of_lt (by omega)
      rw [if_pos hgo, fitting, hadd]
      by_cases hfit : total + size blkSet node ≤ len
      · rw [if_pos ⟨hgo.1, hgo.2, hfit⟩, if_pos hfit, ih (by omega)]
      · rw [if_neg fun hc => hfit hc.2.2, if_neg hfit]
    · rw [if_neg hgo, if_neg fun hc => hgo ⟨hc.1, hc.2.1⟩]
      rfl

theorem taken_eq (blkSet : ℕ → RtRbbBlk) (len : ℕ) (nodes : List ℕ)
    (hsum : weight (size blkSet) (putRun blkSet nodes) < 2 ^ 32) :
    (putRun blkSet nodes = [] ∧ taken blkSet len nodes = []) ∨
      ∃ first rest, putRun blkSet nodes = first :: rest ∧
        taken blkSet len nodes = first :: fitting (size blkSet) len (size blkSet first) rest := by
  induction nodes with
  | nil => exact Or.inl ⟨rfl, rfl⟩
  | cons node nodes ih =>
    unfold taken
    unfold putRun at hsum ⊢
    by_cases hput : (blkSet node).status = .put
    · rw [if_pos hput, weight_cons] at hsum
      rw [if_pos hput, if_pos hput]
      exact Or.inr ⟨node, _, rfl, congrArg (node :: ·) (takenFrom_eq_fitting blkSet len hsum)⟩
    · rw [if_neg hput] at hsum
      rw [if_neg hput, if_neg hput]
      exact ih hsum

/-- The result is the total of the longest part of the run that fits the limit, and that of the whole run
when the limit is not below it. -/
def RespectsLimit (rbb : RtRbb) (queueDataLen : ℕ) : Prop :=
  IsGreatest {n | ∃ k, n = weight (size rbb.blkSet) ((putRun rbb.blkSet rbb.blkList).take k) ∧ n ≤ queueDataLen}
      (rtRbbBlkQueueGet rbb queueDataLen).dataTotalSize ∧
    (rtRbbNextBlkQueueLen rbb ≤ queueDataLen →
      (rtRbbBlkQueueGet rbb queueDataLen).dataTotalSize = rtRbbNextBlkQueueLen rbb)

/-- The first block that has been put, if there is one, is not larger than the limit. -/
def FirstFits (rbb : RtRbb) (queueDataLen : ℕ) : Prop :=
  ∀ i ∈ (putRun rbb.blkSet rbb.blkList).head?, (rbb.blkSet i).size ≤ queueDataLen

instance (rbb : RtRbb) (queueDataLen : ℕ) : Decidable (FirstFits rbb queueDataLen) :=
  match h : (putRun rbb.blkSet rbb.blkList).head? with
  | none => isTrue fun i hi => by rw [h] at hi; cases hi
  | some i =>
    if hle : (rbb.blkSet i).size ≤ queueDataLen then isTrue fun j hj => by rw [h] at hj; cases hj; exact hle
    else isFalse fun hall => hle (hall i h)

theorem respectsLimit_iff (h : Listed rbb) (len : ℕ)
    (hsum : weight (size rbb.blkSet) (putRun rbb.blkSet rbb.blkList) < 2 ^ 32) :
    RespectsLimit rbb len ↔ FirstFits rbb len := by
  have htotal := (queueGet_takes h len).total_eq
  rw [foldl_add_eq] at htotal
  have hnext := nextBlkQueueLen_eq rbb
  rw [Nat.mod_eq_of_lt hsum] at hnext
  unfold RespectsLimit FirstFits
  rw [htotal, hnext]
  rcases taken_eq rbb.blkSet len rbb.blkList hsum with ⟨hrun, htaken⟩ | ⟨first, rest, hrun, htaken⟩
  · rw [hrun, htaken]
    refine iff_of_true ⟨⟨⟨0, rfl, Nat.zero_le _⟩, ?_⟩, fun _ => rfl⟩ fun i hi => by cases hi
    rintro n ⟨k, rfl, -⟩
    rw [List.take_nil]
    exact le_rfl
  · rw [hrun, weight_cons] at hsum
    have hle : weight (size rbb.blkSet) (fitting (size rbb.blkSet) len (size rbb.blkSet first) rest) ≤
        weight (size rbb.blkSet) rest := by
      obtain ⟨k, hk⟩ := @exists_take_eq_fitting ℕ (size rbb.blkSet) len rest (size rbb.blkSet first)
      rw [hk]
      exact weight_take_le _ rest k
    rw [hrun, htaken, weight_cons, weight_cons, Nat.mod_eq_of_lt (by omega)]
    constructor
    · rintro ⟨⟨⟨k, -, hn⟩, -⟩, -⟩ i hi
      cases hi
      unfold size at hn
      omega
    · intro hfits
      have hfirst : size rbb.blkSet first ≤ len := hfits first rfl
      obtain ⟨⟨k, hk, hn⟩, hgreatest⟩ := @isGreatest_fitting ℕ (size rbb.blkSet) len rest _ hfirst
      refine ⟨⟨⟨k + 1, ?_, hn⟩, ?_⟩, fun hwhole => ?_⟩
      · rw [List.take_succ_cons, weight_cons, hk]
      · rintro n ⟨k', rfl, hn'⟩
        cases k' with
        | zero => exact Nat.zero_le _
        | succ k' =>
          rw [List.take_succ_cons, weight_cons] at hn' ⊢
          exact hgreatest ⟨k', rfl, hn'⟩
      · rw [fitting_of_le rest hwhole]

/-- In every state that the calls reach, while the sizes of the run do not wrap, `rt_rbb_blk_queue_get` respects
its limit exactly if the first block that has been put does. -/
theorem queue_respects_limit_iff {buf bufSize blkMaxNum : ℕ} {blockSet : ℕ → RtRbbBlk} {acts : List Act}
    (hrun : exec step (rtRbbInit buf bufSize blockSet blkMaxNum) acts = some rbb)
    (hsum : weight (size rbb.blkSet) (putRun rbb.blkSet rbb.blkList) < 2 ^ 32) (queueDataLen : ℕ) :
    RespectsLimit rbb queueDataLen ↔ FirstFits rbb queueDataLen :=
  respectsLimit_iff
    (exec_inv Listed (fun _ _ _ h hstep => h.step hstep) (listed_init buf bufSize blockSet blkMaxNum) hrun)
    queueDataLen hsum

theorem queue_respects_limit_iff_twoPut :
    ∃ rbb, exec step (rtRbbInit 1000 16 blankSet 3) twoPut = some rbb ∧
      (rtRbbBlkQueueGet rbb 7).dataTotalSize = 4 ∧ RespectsLimit rbb 7 :=
  ⟨_, rfl, rfl, (@queue_respects_limit_iff _ 1000 16 3 blankSet twoPut rfl (by decide) 7).mpr (by decide)⟩

/-- With a limit of two bytes the first block is taken, of four. -/
theorem queue_exceeds_limit :
    ∃ rbb, exec step (rtRbbInit 1000 16 blankSet 3) twoPut = some rbb ∧
      (rtRbbBlkQueueGet rbb 2).dataTotalSize = 4 ∧ ¬RespectsLimit rbb 2 := by
  refine ⟨_, rfl, rfl, ?_⟩
  rintro ⟨⟨⟨k, -, hn⟩, -⟩, -⟩
  exact absurd hn (by decide)

end RtThread.Drivers.RingBlkBuf.Calls
