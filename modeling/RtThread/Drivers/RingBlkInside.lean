import RtThread.Drivers.RingBlkCalls

/-!
# Whether a block lies in the buffer (`ringblk_buf.c:133-226`)

`rt_rbb_blk_alloc` places the first block of an empty list at the start of the buffer without a look
at its size. A block of size 0 may end up where the first one begins, and then the list no longer shows
that it is wrapped; both make room where there is none. An address past the end of the address space,
which C leaves undefined, stays a number.
-/

namespace RtThread.Drivers.RingBlkBuf.Inside

open RtThread.Lib.Fitting RtThread.Lib.Rotation RtThread.Lib.Transition RtThread.Lib.Word
open RtThread.Drivers.RingBlkBuf.Queue (takeOff takeOff_layout queueFree_eq freeAll_layout blankSet)
open RtThread.Drivers.RingBlkBuf.Calls hiding Act step

/-- A block lies in the storage of the buffer. -/
def InStorage (rbb : RtRbb) (i : ℕ) : Prop := rbb.buf ≤ (rbb.blkSet i).buf ∧ rbb.blkEnd i ≤ rbb.buf + rbb.bufSize

/-- The block that an allocation hands out, if any, lies in the storage. -/
def AllocInside (rbb : RtRbb) : Calls.Act → Prop
  | .alloc n => ∀ block ∈ (rtRbbBlkAlloc rbb n).2, InStorage (rtRbbBlkAlloc rbb n).1 block
  | _ => True

/-- There is an entry for another block. -/
def HasEntry (rbb : RtRbb) : Prop := (findEmptyBlkInSet rbb).isSome = true ∧ rbb.blkList.length < rbb.blkMaxNum

/-- An empty list gets a block that fits the buffer; when the last block begins before the first one, it
also ends before it, or there is room behind it anyway, or the difference is too small even as it wraps. -/
def Fits (rbb : RtRbb) (n : ℕ) : Prop :=
  match rbb.blkList with
  | [] => n ≤ rbb.bufSize
  | head :: rest =>
    (rbb.blkSet (rest.getLastD head)).buf < (rbb.blkSet head).buf →
      rbb.blkEnd (rest.getLastD head) ≤ (rbb.blkSet head).buf ∨
        rbb.blkEnd (rest.getLastD head) + n ≤ rbb.buf + rbb.bufSize ∨
        sub 32 (rbb.blkSet head).buf (rbb.blkEnd (rest.getLastD head)) < n

def AllocFits (rbb : RtRbb) : Calls.Act → Prop
  | .alloc n => HasEntry rbb → Fits rbb n
  | _ => True

/-- What the placement relies on. -/
structure Stored (rbb : RtRbb) : Prop where
  listed : Listed rbb
  bound : rbb.buf + rbb.bufSize < 2 ^ 32
  inside : ∀ i ∈ rbb.blkList, InStorage rbb i

variable {rbb rbb' : RtRbb} {n : ℕ}

theorem append_inStorage {new buf : ℕ} (hn : n < 2 ^ 24) :
    InStorage (rbb.append new buf n) new ↔ rbb.buf ≤ buf ∧ buf + n ≤ rbb.buf + rbb.bufSize := by
  unfold InStorage RtRbb.blkEnd
  rw [append_blkSet_self, Nat.mod_eq_of_lt hn]
  exact Iff.rfl

theorem allocInside_iff_of_append {new buf : ℕ} (hn : n < 2 ^ 24)
    (h : rtRbbBlkAlloc rbb n = (rbb.append new buf n, some new)) :
    AllocInside rbb (.alloc n) ↔ rbb.buf ≤ buf ∧ buf + n ≤ rbb.buf + rbb.bufSize := by
  rw [← @append_inStorage rbb n new buf hn]
  simp only [AllocInside, h]
  constructor
  · intro hall
    exact hall new rfl
  · intro hin block hblock
    cases hblock
    exact hin

theorem inStorage_of_layout (hlay : SameLayout rbb rbb') {i : ℕ} (h : InStorage rbb i) : InStorage rbb' i := by
  unfold InStorage at h ⊢
  rwa [hlay.buf, hlay.bufSize, hlay.blkBuf, hlay.blkEnd]

theorem Stored.sublist (h : Stored rbb) (hlisted : Listed rbb') (hlay : SameLayout rbb rbb')
    (hsub : List.Sublist rbb'.blkList rbb.blkList) : Stored rbb' where
  listed := hlisted
  bound := by
    rw [hlay.buf, hlay.bufSize]
    exact h.bound
  inside i hi := inStorage_of_layout hlay (h.inside i (hsub.subset hi))

theorem takeOffAll_sublist (l : List ℕ) (rbb : RtRbb) : (l.foldl takeOff rbb).blkList.Sublist rbb.blkList := by
  induction l generalizing rbb with
  | nil => exact List.Sublist.refl _
  | cons i l ih => exact (ih _).trans List.erase_sublist

theorem freeAll_sublist (l : List ℕ) (rbb : RtRbb) : (l.foldl rtRbbBlkFree rbb).blkList.Sublist rbb.blkList := by
  induction l generalizing rbb with
  | nil => exact List.Sublist.refl _
  | cons i l ih => exact (ih _).trans List.erase_sublist

theorem step_sublist {a : Calls.Act} (h : Listed rbb) (hstep : Calls.step rbb a = some rbb') (ha : ∀ n, a ≠ .alloc n) :
    SameLayout rbb rbb' ∧ rbb'.blkList.Sublist rbb.blkList := by
  cases a with
  | alloc n => exact absurd rfl (ha n)
  | put block =>
    obtain ⟨-, heq⟩ := Option.ite_none_right_eq_some.mp hstep
    cases heq
    exact ⟨setStatus_layout .., List.Sublist.refl _⟩
  | get =>
    cases hstep
    unfold rtRbbBlkGet
    split
    · exact ⟨SameLayout.refl _, List.Sublist.refl _⟩
    · exact ⟨setStatus_layout .., List.Sublist.refl _⟩
  | free block =>
    obtain ⟨-, heq⟩ := Option.ite_none_right_eq_some.mp hstep
    cases heq
    exact ⟨free_layout .., List.erase_sublist⟩
  | queueGet len =>
    cases hstep
    rw [(queueGet_takes h len).rbb_eq]
    exact ⟨takeOffAll_layout .., takeOffAll_sublist ..⟩
  | queueFree blkQueue =>
    obtain ⟨-, heq⟩ := Option.ite_none_right_eq_some.mp hstep
    cases heq
    rw [queueFree_eq]
    exact ⟨freeAll_layout .., freeAll_sublist ..⟩

theorem Stored.step {a : Calls.Act} (h : Stored rbb) (hin : AllocInside rbb a) (hstep : Calls.step rbb a = some rbb') :
    Stored rbb' := by
  have hlisted := h.listed.step hstep
  by_cases ha : ∃ n, a = .alloc n
  · obtain ⟨n, rfl⟩ := ha
    obtain ⟨hn, heq⟩ := Option.ite_none_right_eq_some.mp hstep
    cases heq
    rcases rtRbbBlkAlloc_cases rbb n with heq | ⟨new, buf, hfind, heq⟩
    · rw [heq]
      exact h
    · have hnew := (allocInside_iff_of_append hn heq).mp hin
      rw [heq] at hlisted ⊢
      refine ⟨hlisted, h.bound, fun i hi => ?_⟩
      by_cases he : i = new
      · rw [he]
        exact (append_inStorage hn).mpr hnew
      · unfold InStorage RtRbb.blkEnd
        rw [append_blkSet_of_ne _ _ _ he]
        exact h.inside i ((List.mem_append.mp hi).resolve_right fun hs => he (List.mem_singleton.mp hs))
  · obtain ⟨hlay, hsub⟩ := step_sublist h.listed hstep fun n he => ha ⟨n, he⟩
    exact h.sublist hlisted hlay hsub

instance (rbb : RtRbb) (n : ℕ) : Decidable (Fits rbb n) :=
  match h : rbb.blkList with
  | [] => decidable_of_iff (n ≤ rbb.bufSize) (by unfold Fits; rw [h])
  | head :: rest => decidable_of_iff ((rbb.blkSet (rest.getLastD head)).buf < (rbb.blkSet head).buf →
      rbb.blkEnd (rest.getLastD head) ≤ (rbb.blkSet head).buf ∨
        rbb.blkEnd (rest.getLastD head) + n ≤ rbb.buf + rbb.bufSize ∨
        sub 32 (rbb.blkSet head).buf (rbb.blkEnd (rest.getLastD head)) < n) (by unfold Fits; rw [h])

instance (rbb : RtRbb) : Decidable (HasEntry rbb) := inferInstanceAs (Decidable (_ ∧ _))

instance (rbb : RtRbb) : (a : Calls.Act) → Decidable (AllocFits rbb a)
  | .alloc n => inferInstanceAs (Decidable (HasEntry rbb → Fits rbb n))
  | .put _ => isTrue trivial
  | .get => isTrue trivial
  | .free _ => isTrue trivial
  | .queueGet _ => isTrue trivial
  | .queueFree _ => isTrue trivial

/-- A list that is wrapped, and a request that is refused. -/
def refused : List Calls.Act :=
  [.alloc 6, .alloc 8, .put 0, .queueGet 6, .queueFree ⟨0, 1⟩, .alloc 5, .alloc 3]

end RtThread.Drivers.RingBlkBuf.Inside
