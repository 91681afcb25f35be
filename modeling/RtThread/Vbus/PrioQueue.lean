import RtThread.Lib.Chain
import RtThread.Sched.Bitmap

/-!
# Priority queues of the virtual bus (`components/vbus/prio_queue.c`)

One list of items for each of 32 priorities, and a bitmap of the lists that are not empty. `Fifos` is
what the queue is for: a queue of values for each priority, of which the first of the smallest number
is served first.
-/

namespace RtThread.Vbus.PrioQueue

open RtThread.Lib.Chain RtThread.Sched.Bitmap

/-- `RT_PRIO_QUEUE_PRIO_MAX`. -/
def prioMax : ℕ := 32

/-- `struct rt_prio_queue` without the waiting threads, and the links of the items. -/
structure RtPrioQueue (B : Type*) where
  bitmap : BitVec 32
  head : ℕ → Option B
  tail : ℕ → Option B
  next : B → Option B

variable {B : Type*} [DecidableEq B]

/-- `_do_push` (`prio_queue.c:21-36`); `none` when its assertion fails. -/
def doPush (que : RtPrioQueue B) (prio : ℕ) (item : B) : Option (RtPrioQueue B) :=
  match que.head prio with
  | none =>
    some { que with
      head := Function.update que.head prio (some item)
      bitmap := que.bitmap ||| (1#32 <<< prio)
      tail := Function.update que.tail prio (some item) }
  | some _ =>
    match que.tail prio with
    | none => none
    | some last =>
      some { que with
        next := Function.update que.next last (some item)
        tail := Function.update que.tail prio (some item) }

/-- `_do_pop` (`prio_queue.c:38-58`): the item, if there is one; `none` when the assertion fails. -/
def doPop (que : RtPrioQueue B) : Option (RtPrioQueue B × Option B) :=
  let ffs := rtFfs que.bitmap
  if ffs = 0 then some (que, none)
  else
    let ffs := ffs - 1
    match que.head ffs with
    | none => none
    | some item =>
      some ({ que with
        head := Function.update que.head ffs (que.next item)
        bitmap := if que.next item = none then que.bitmap &&& ~~~(1#32 <<< ffs) else que.bitmap }, some item)

/-- `rt_prio_queue_init` (`prio_queue.c:60-78`). -/
def rtPrioQueueInit (next : B → Option B) : RtPrioQueue B := ⟨0, fun _ => none, fun _ => none, next⟩

/-! ### Queues with priorities -/

section Fifos

variable {D : Type*}

def Fifos.push (q : ℕ → List D) (prio : ℕ) (d : D) : ℕ → List D := Function.update q prio (q prio ++ [d])

/-- The smallest priority number with a value. -/
def Fifos.first (q : ℕ → List D) : Option ℕ := (List.range prioMax).find? fun p => !(q p).isEmpty

/-- The oldest value of the smallest priority number that has one. -/
def Fifos.pop (q : ℕ → List D) : (ℕ → List D) × Option D :=
  match Fifos.first q with
  | none => (q, none)
  | some p => (Function.update q p (q p).tail, (q p).head?)

theorem Fifos.pop_of_empty {q : ℕ → List D} (h : ∀ p, q p = []) : Fifos.pop q = (q, none) := by
  have hnone : Fifos.first q = none := List.find?_eq_none.mpr fun p _ => by simp [h p]
  simp only [Fifos.pop, hnone]

theorem Fifos.pop_of_first {q : ℕ → List D} {p : ℕ} {d : D} {rest : List D} (hp : p < prioMax) (hq : q p = d :: rest)
    (hsmaller : ∀ r < p, q r = []) : Fifos.pop q = (Function.update q p rest, some d) := by
  have hfirst : Fifos.first q = some p := by
    rw [Fifos.first, List.find?_range_eq_some]
    refine ⟨by simp [hq], List.mem_range.mpr hp, fun r hr => by simp [hsmaller r hr]⟩
  simp only [Fifos.pop, hfirst, hq, List.tail_cons, List.head?_cons]

end Fifos

/-! ### The lists of a queue -/

/-- The items that the queue holds are those of `l`, list by list. -/
structure Lists (que : RtPrioQueue B) (l : ℕ → List B) : Prop where
  bit_iff : ∀ p, que.bitmap.getLsbD p = true ↔ l p ≠ []
  linked : ∀ p, Linked que.next (que.head p) (l p)
  tail_eq : ∀ p, l p ≠ [] → que.tail p = (l p).getLast?
  nodup : ∀ p, (l p).Nodup
  disjoint : ∀ p r b, b ∈ l p → b ∈ l r → p = r

variable {que que' : RtPrioQueue B} {l : ℕ → List B} {prio : ℕ} {item : B}

omit [DecidableEq B] in
theorem Lists.head_eq_none_iff (h : Lists que l) (p : ℕ) : que.head p = none ↔ l p = [] := by
  have hlinked := h.linked p
  cases hl : l p with
  | nil =>
    rw [hl] at hlinked
    exact iff_of_true hlinked rfl
  | cons b rest =>
    rw [hl] at hlinked
    rw [hlinked.1]
    exact iff_of_false (Option.some_ne_none b) (List.cons_ne_nil b rest)

omit [DecidableEq B] in
theorem Lists.lt_prioMax (h : Lists que l) {p : ℕ} (hp : l p ≠ []) : p < prioMax := by
  by_contra hge
  have hbit := (h.bit_iff p).mpr hp
  rw [BitVec.getLsbD_of_ge que.bitmap p (not_lt.mp hge)] at hbit
  cases hbit

omit [DecidableEq B] in
theorem append_new (prio : ℕ) {l : ℕ → List B} (hnodup : ∀ p, (l p).Nodup) (hdisjoint : ∀ p r b, b ∈ l p → b ∈ l r → p = r)
    (hnew : ∀ p, item ∉ l p) : (∀ p, (Function.update l prio (l prio ++ [item]) p).Nodup) ∧
      ∀ p r b, b ∈ Function.update l prio (l prio ++ [item]) p → b ∈ Function.update l prio (l prio ++ [item]) r →
        p = r := by
  have hmem : ∀ p b, b ∈ Function.update l prio (l prio ++ [item]) p ↔ b ∈ l p ∨ p = prio ∧ b = item := by
    intro p b
    rcases eq_or_ne p prio with rfl | hne
    · rw [Function.update_self, List.mem_append, List.mem_singleton]
      simp
    · rw [Function.update_of_ne hne]
      simp [hne]
  constructor
  · intro p
    rcases eq_or_ne p prio with rfl | hne
    · rw [Function.update_self]
      exact List.nodup_append.mpr ⟨hnodup p, List.nodup_singleton item, fun a ha b hb hab =>
        hnew p (List.mem_singleton.mp hb ▸ hab ▸ ha)⟩
    · rw [Function.update_of_ne hne]
      exact hnodup p
  · intro p r b hp hr
    rcases (hmem p b).mp hp with hp | ⟨hpp, hpb⟩ <;> rcases (hmem r b).mp hr with hr | ⟨hrp, hrb⟩
    · exact hdisjoint p r b hp hr
    · rw [hrb] at hp
      exact absurd hp (hnew p)
    · rw [hpb] at hr
      exact absurd hr (hnew r)
    · exact hpp.trans hrp.symm

theorem doPush_empty (hhead : que.head prio = none) : doPush que prio item = some { que with
    head := Function.update que.head prio (some item)
    bitmap := que.bitmap ||| (1#32 <<< prio)
    tail := Function.update que.tail prio (some item) } := by
  simp only [doPush, hhead]

theorem doPush_behind {first last : B} (hhead : que.head prio = some first) (htail : que.tail prio = some last) :
    doPush que prio item = some { que with
      next := Function.update que.next last (some item)
      tail := Function.update que.tail prio (some item) } := by
  simp only [doPush, hhead, htail]

omit [DecidableEq B] in
theorem doPop_first (hffs : rtFfs que.bitmap = prio + 1) (hhead : que.head prio = some item) :
    doPop que = some ({ que with
      head := Function.update que.head prio (que.next item)
      bitmap := if que.next item = none then que.bitmap &&& ~~~(1#32 <<< prio) else que.bitmap }, some item) := by
  simp only [doPop, hffs, Nat.succ_ne_zero, if_false, Nat.add_sub_cancel, hhead]

theorem doPush_spec (h : Lists que l) (hprio : prio < prioMax) (hnew : ∀ p, item ∉ l p)
    (hnext : que.next item = none) :
    ∃ que', doPush que prio item = some que' ∧ Lists que' (Function.update l prio (l prio ++ [item])) ∧
      ∀ b, (∀ p, b ∉ l p) → que'.next b = que.next b := by
  obtain ⟨hnodup, hdisjoint⟩ := append_new prio h.nodup h.disjoint hnew
  have htail : ∀ p, Function.update l prio (l prio ++ [item]) p ≠ [] →
      Function.update que.tail prio (some item) p = (Function.update l prio (l prio ++ [item]) p).getLast? := by
    intro p hp
    rcases eq_or_ne p prio with rfl | hne
    · rw [Function.update_self, Function.update_self, List.getLast?_concat]
    · rw [Function.update_of_ne hne] at hp ⊢
      rw [Function.update_of_ne hne]
      exact h.tail_eq p hp
  cases hl : l prio with
  | nil =>
    have hhead := (h.head_eq_none_iff prio).mpr hl
    rw [hl] at hnodup hdisjoint htail
    refine ⟨_, doPush_empty hhead, ⟨fun p => ?_, fun p => ?_, htail, hnodup, hdisjoint⟩, fun b _ => rfl⟩
    · rw [BitVec.getLsbD_or, getLsbD_one_shiftLeft (show prio < 32 from hprio), Bool.or_eq_true, h.bit_iff, decide_eq_true_iff]
      rcases eq_or_ne p prio with rfl | hne
      · simp
      · simp [hne]
    · rcases eq_or_ne p prio with rfl | hne
      · simp only [Function.update_self]
        exact ⟨rfl, hnext⟩
      · simp only [Function.update_of_ne hne]
        exact h.linked p
  | cons a rest =>
    have hlinked := h.linked prio
    have hne : l prio ≠ [] := by
      rw [hl]
      exact List.cons_ne_nil a rest
    obtain ⟨last, hlast⟩ := Option.ne_none_iff_exists'.mp (mt List.getLast?_eq_none_iff.mp hne)
    have htail' : que.tail prio = some last := (h.tail_eq prio hne).trans hlast
    have hhead : que.head prio = some a := by
      rw [hl] at hlinked
      exact hlinked.1
    have hmem : last ∈ l prio := List.mem_of_getLast? hlast
    rw [← hl]
    refine ⟨_, doPush_behind hhead htail', ⟨fun p => ?_, fun p => ?_, htail, hnodup, hdisjoint⟩, fun b hb => ?_⟩
    · rcases eq_or_ne p prio with rfl | hnep
      · rw [Function.update_self]
        exact iff_of_true ((h.bit_iff p).mpr hne) (by simp)
      · rw [Function.update_of_ne hnep]
        exact h.bit_iff p
    · rcases eq_or_ne p prio with rfl | hnep
      · rw [Function.update_self]
        exact hlinked.snoc hnext (h.nodup p) hlast (hnew p)
      · rw [Function.update_of_ne hnep]
        exact (h.linked p).update (fun hb => hnep (h.disjoint p prio last hb hmem)) _
    · refine Function.update_of_ne ?_ _ _
      rintro rfl
      exact hb prio hmem

omit [DecidableEq B] in
theorem doPop_spec (h : Lists que l) :
    ((∀ p, l p = []) ∧ doPop que = some (que, none)) ∨
    ∃ p item rest que', l p = item :: rest ∧ (∀ r < p, l r = []) ∧ doPop que = some (que', some item) ∧
      Lists que' (Function.update l p rest) ∧ que'.next = que.next := by
  by_cases hbitmap : que.bitmap = 0
  · left
    constructor
    · intro p
      by_contra hp
      have hbit := (h.bit_iff p).mpr hp
      rw [hbitmap] at hbit
      simp at hbit
    · rw [doPop, hbitmap]
      rfl
  · right
    obtain ⟨p, hffs, hset, hlow⟩ := rtFfs_spec hbitmap
    have hne := (h.bit_iff p).mp hset
    have hprio := h.lt_prioMax hne
    obtain ⟨item, rest, hl⟩ := List.exists_cons_of_ne_nil hne
    have hlinked := h.linked p
    have hnodup := h.nodup p
    rw [hl] at hlinked hnodup
    obtain ⟨hhead, hrest⟩ := hlinked
    have hempty : que.next item = none ↔ rest = [] := by
      cases rest with
      | nil => exact iff_of_true hrest rfl
      | cons b bs =>
        rw [hrest.1]
        exact iff_of_false (Option.some_ne_none b) (List.cons_ne_nil b bs)
    refine ⟨p, item, rest, _, hl, fun r hr => ?_, doPop_first hffs hhead, ⟨fun r => ?_, fun r => ?_, fun r hr => ?_,
      fun r => ?_, fun r r' b hb hb' => ?_⟩, rfl⟩
    · by_contra hne'
      have hbit := (h.bit_iff r).mpr hne'
      rw [hlow r hr] at hbit
      cases hbit
    · simp only
      rcases eq_or_ne r p with rfl | hner
      · rw [Function.update_self]
        split
        · rename_i hlast
          rw [BitVec.getLsbD_and, BitVec.getLsbD_not, getLsbD_one_shiftLeft (show _ < 32 from hprio), hempty.mp hlast]
          simp
        · rename_i hmore
          exact iff_of_true hset fun he => hmore (hempty.mpr he)
      · rw [Function.update_of_ne hner]
        split
        · rw [BitVec.getLsbD_and, BitVec.getLsbD_not, getLsbD_one_shiftLeft (show _ < 32 from hprio), decide_eq_false hner, ← h.bit_iff,
            Bool.not_false, Bool.and_true, Bool.and_eq_true, decide_eq_true_iff]
          exact and_iff_left_of_imp fun hbit => h.lt_prioMax ((h.bit_iff r).mp hbit)
        · exact h.bit_iff r
    · simp only
      rcases eq_or_ne r p with rfl | hner
      · rw [Function.update_self, Function.update_self]
        exact hrest
      · rw [Function.update_of_ne hner, Function.update_of_ne hner]
        exact h.linked r
    · simp only
      rcases eq_or_ne r p with rfl | hner
      · rw [Function.update_self] at hr ⊢
        rw [h.tail_eq r hne, hl, List.getLast?_cons_of_ne_nil hr]
      · rw [Function.update_of_ne hner] at hr ⊢
        exact h.tail_eq r hr
    · rcases eq_or_ne r p with rfl | hner
      · rw [Function.update_self]
        exact (List.nodup_cons.mp hnodup).2
      · rw [Function.update_of_ne hner]
        exact h.nodup r
    · have hmem : ∀ r, b ∈ Function.update l p rest r → b ∈ l r := by
        intro r hb
        rcases eq_or_ne r p with rfl | hner
        · rw [Function.update_self] at hb
          rw [hl]
          exact List.mem_cons_of_mem item hb
        · rwa [Function.update_of_ne hner] at hb
      exact h.disjoint r r' b (hmem r hb) (hmem r' hb')

end RtThread.Vbus.PrioQueue
