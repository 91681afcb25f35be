import RtThread.Drivers.DataQueueRuns

/-!
# Threads that wait on a data queue

A thread that was resumed with `RT_EOK` looks at the queue again before its call returns. The waiting
pushers are counted against these: while one waits, the items in the queue and the woken pushers are
more than `lwm`; while a popper waits, the items are no more than the woken poppers.
-/

namespace RtThread.Drivers.DataQueue

open RtThread.Lib.Word RtThread.Lib.Transition RtThread.Ipc.Base

inductive Side where
  | pusher
  | popper
  deriving DecidableEq, Repr

variable {V T : Type*}

def Frame.side : Frame V → Side
  | .pushing _ _ => .pusher
  | .popping _ => .popper

/-- A call that is suspended, or that was woken with `RT_EOK` and has not looked at the queue yet. -/
def Sys.status (s : Sys V T) (t : T) : Option (Side × Bool) :=
  match s.frame t with
  | none => none
  | some f => if (s.state.thread t).error = .eok then some (f.side, s.state.suspended t) else none

/-- No thread is between its wake-up and its next look at the queue. -/
def Quiet (s : Sys V T) : Prop := ∀ t side, s.status t ≠ some (side, false)

/-! ### One list -/

/-- The threads of `list` are suspended on one side, and those of `woken` have been woken there. -/
structure Waiters (side : Side) (status : T → Option (Side × Bool)) (list : List T) (woken : Finset T) : Prop where
  nodup : list.Nodup
  listed : ∀ t ∈ list, status t = some (side, true)
  awake : ∀ t ∈ woken, status t = some (side, false)

section Lists

variable [DecidableEq T] {side : Side} {status : T → Option (Side × Bool)} {list rest : List T} {woken : Finset T} {t w : T}

theorem Waiters.remove (h : Waiters side status list woken) (t : T) (x : Option (Side × Bool)) :
    Waiters side (Function.update status t x) (list.erase t) (woken.erase t) := by
  refine ⟨h.nodup.erase t, fun u hu => ?_, fun u hu => ?_⟩
  · obtain ⟨hut, hmem⟩ := h.nodup.mem_erase_iff.mp hu
    rw [Function.update_of_ne hut]
    exact h.listed u hmem
  · obtain ⟨hut, hmem⟩ := Finset.mem_erase.mp hu
    rw [Function.update_of_ne hut]
    exact h.awake u hmem

omit [DecidableEq T] in
theorem Waiters.notMem (h : Waiters side status list woken) (ht : status t ≠ some (side, true)) : t ∉ list :=
  fun hmem => ht (h.listed t hmem)

theorem Waiters.leave (h : Waiters side status list woken) (ht : status t ≠ some (side, true))
    (x : Option (Side × Bool)) : Waiters side (Function.update status t x) list (woken.erase t) := by
  have hremove := h.remove t x
  rw [List.erase_of_not_mem (h.notMem ht)] at hremove
  exact hremove

theorem Waiters.join (h : Waiters side status list woken) (ht : status t ≠ some (side, true)) :
    Waiters side (Function.update status t (some (side, true))) (list ++ [t]) (woken.erase t) := by
  have hleave := h.leave ht (some (side, true))
  refine ⟨?_, fun u hu => ?_, hleave.awake⟩
  · exact h.nodup.append (List.nodup_singleton t) (List.disjoint_singleton.mpr (h.notMem ht))
  · rcases List.mem_append.mp hu with hu | hu
    · exact hleave.listed u hu
    · rw [List.mem_singleton.mp hu, Function.update_self]

theorem Waiters.wake (h : Waiters side status (w :: rest) woken) :
    Waiters side (Function.update status w (some (side, false))) rest (insert w woken) ∧ w ∉ woken := by
  obtain ⟨hnotMem, hnodup⟩ := List.nodup_cons.mp h.nodup
  have hne : ∀ u ∈ rest, u ≠ w := fun u hu he => hnotMem (he ▸ hu)
  refine ⟨⟨hnodup, fun u hu => ?_, fun u hu => ?_⟩, fun hw => ?_⟩
  · rw [Function.update_of_ne (hne u hu)]
    exact h.listed u (List.mem_cons_of_mem w hu)
  · by_cases huw : u = w
    · rw [huw, Function.update_self]
    · rw [Function.update_of_ne huw]
      exact h.awake u (Finset.mem_of_mem_insert_of_ne hu huw)
  · have heq := (h.listed w List.mem_cons_self).symm.trans (h.awake w hw)
    cases heq

theorem Waiters.other (h : Waiters side status list woken) (ht : ∀ b, status t ≠ some (side, b))
    (x : Option (Side × Bool)) : Waiters side (Function.update status t x) list woken := by
  have hleave := h.leave (ht true) x
  rw [Finset.erase_eq_of_notMem fun hmem => ht false (h.awake t hmem)] at hleave
  exact hleave

end Lists

/-! ### Both lists -/

/-- The waiting threads of both sides against those that have been woken. -/
def Balanced (lwm items : ℕ) (status : T → Option (Side × Bool)) (pushList popList : List T) : Prop :=
  ∃ pushers poppers : Finset T, Waiters .pusher status pushList pushers ∧ Waiters .popper status popList poppers ∧
    (pushList ≠ [] → lwm < items + pushers.card) ∧ (popList ≠ [] → items ≤ poppers.card)

section Balance

variable [DecidableEq T] {lwm items : ℕ} {status : T → Option (Side × Bool)} {pushList popList rest : List T} {t w : T}

omit [DecidableEq T] in
/-- When nobody is between a wake-up and the next look at the queue, the pushers do not wait at an
empty queue nor the poppers at another. -/
theorem Balanced.quiet (h : Balanced lwm items status pushList popList) (hquiet : ∀ t side, status t ≠ some (side, false)) :
    (items = 0 → pushList = []) ∧ (popList ≠ [] → items = 0) := by
  obtain ⟨pushers, poppers, hpush, hpop, hlow, hhigh⟩ := h
  have hnone : ∀ {side : Side} {list : List T} {woken : Finset T}, Waiters side status list woken → woken = ∅ :=
    fun hw => Finset.eq_empty_of_forall_notMem fun t ht => hquiet t _ (hw.awake t ht)
  rw [hnone hpush, Finset.card_empty] at hlow
  rw [hnone hpop, Finset.card_empty] at hhigh
  refine ⟨fun hzero => ?_, fun hne => Nat.le_zero.mp (hhigh hne)⟩
  by_contra hne
  have hlt := hlow hne
  omega

theorem Balanced.suspendPusher (h : Balanced lwm items status pushList popList) (hlwm : lwm < items)
    (ht : status t ≠ some (.pusher, true)) (hside : ∀ b, status t ≠ some (.popper, b)) :
    Balanced lwm items (Function.update status t (some (.pusher, true))) (pushList ++ [t]) popList := by
  obtain ⟨pushers, poppers, hpush, hpop, -, hhigh⟩ := h
  exact ⟨pushers.erase t, poppers, hpush.join ht, hpop.other hside _, fun _ => by omega, hhigh⟩

theorem Balanced.suspendPopper (h : Balanced lwm 0 status pushList popList)
    (ht : status t ≠ some (.popper, true)) (hside : ∀ b, status t ≠ some (.pusher, b)) :
    Balanced lwm 0 (Function.update status t (some (.popper, true))) pushList (popList ++ [t]) := by
  obtain ⟨pushers, poppers, hpush, hpop, hlow, -⟩ := h
  exact ⟨pushers, poppers.erase t, hpush.other hside _, hpop.join ht, hlow, fun _ => Nat.zero_le _⟩

theorem Balanced.pusherFails (h : Balanced lwm items status pushList popList) (hlwm : lwm < items)
    (ht : status t ≠ some (.pusher, true)) (hside : ∀ b, status t ≠ some (.popper, b)) :
    Balanced lwm items (Function.update status t none) pushList popList := by
  obtain ⟨pushers, poppers, hpush, hpop, -, hhigh⟩ := h
  exact ⟨pushers.erase t, poppers, hpush.leave ht _, hpop.other hside _, fun _ => by omega, hhigh⟩

theorem Balanced.popperFails (h : Balanced lwm 0 status pushList popList)
    (ht : status t ≠ some (.popper, true)) (hside : ∀ b, status t ≠ some (.pusher, b)) :
    Balanced lwm 0 (Function.update status t none) pushList popList := by
  obtain ⟨pushers, poppers, hpush, hpop, hlow, -⟩ := h
  exact ⟨pushers, poppers.erase t, hpush.other hside _, hpop.leave ht _, hlow, fun _ => Nat.zero_le _⟩

theorem Balanced.remove (h : Balanced lwm items status pushList popList) (t : T)
    (ht : ∀ side, status t ≠ some (side, false)) :
    Balanced lwm items (Function.update status t none) (pushList.erase t) (popList.erase t) := by
  obtain ⟨pushers, poppers, hpush, hpop, hlow, hhigh⟩ := h
  have hpushers := hpush.remove t none
  have hpoppers := hpop.remove t none
  rw [Finset.erase_eq_of_notMem fun hmem => ht _ (hpush.awake t hmem)] at hpushers
  rw [Finset.erase_eq_of_notMem fun hmem => ht _ (hpop.awake t hmem)] at hpoppers
  refine ⟨pushers, poppers, hpushers, hpoppers, fun hne => hlow fun he => hne ?_, fun hne => hhigh fun he => hne ?_⟩
  · rw [he, List.erase_nil]
  · rw [he, List.erase_nil]

theorem Balanced.store_nil (h : Balanced lwm items status pushList [])
    (ht : status t ≠ some (.pusher, true)) (hside : ∀ b, status t ≠ some (.popper, b)) :
    Balanced lwm (items + 1) (Function.update status t none) pushList [] := by
  obtain ⟨pushers, poppers, hpush, hpop, hlow, -⟩ := h
  refine ⟨pushers.erase t, poppers, hpush.leave ht _, hpop.other hside _, fun hne => ?_, fun hne => absurd rfl hne⟩
  have hcard := Finset.pred_card_le_card_erase (s := pushers) (a := t)
  have hlt := hlow hne
  omega

theorem Balanced.store_cons (h : Balanced lwm items status pushList (w :: rest))
    (ht : status t ≠ some (.pusher, true)) (hside : ∀ b, status t ≠ some (.popper, b)) :
    Balanced lwm (items + 1) (Function.update (Function.update status w (some (.popper, false))) t none) pushList rest := by
  obtain ⟨pushers, poppers, hpush, hpop, hlow, hhigh⟩ := h
  have hw := hpop.listed w List.mem_cons_self
  have htw : t ≠ w := fun he => hside true (he ▸ hw)
  obtain ⟨hwake, hnotMem⟩ := hpop.wake
  have hpushers := hpush.other (fun b hb => (by rw [hw] at hb; cases hb)) (some (.popper, false))
  refine ⟨pushers.erase t, insert w poppers, hpushers.leave ?_ _, hwake.other ?_ _, fun hne => ?_, fun _ => ?_⟩
  · rw [Function.update_of_ne htw]
    exact ht
  · rw [Function.update_of_ne htw]
    exact hside
  · have hcard := Finset.pred_card_le_card_erase (s := pushers) (a := t)
    have hlt := hlow hne
    omega
  · have hle := hhigh fun he => (by cases he)
    rw [Finset.card_insert_of_notMem hnotMem]
    omega

theorem Balanced.fetch (h : Balanced lwm (items + 1) status pushList popList)
    (hlwm : pushList ≠ [] → lwm < items) (ht : status t ≠ some (.popper, true))
    (hside : ∀ b, status t ≠ some (.pusher, b)) :
    Balanced lwm items (Function.update status t none) pushList popList := by
  obtain ⟨pushers, poppers, hpush, hpop, -, hhigh⟩ := h
  refine ⟨pushers, poppers.erase t, hpush.other hside _, hpop.leave ht _, fun hne => ?_, fun hne => ?_⟩
  · have hlt := hlwm hne
    omega
  · have hcard := Finset.pred_card_le_card_erase (s := poppers) (a := t)
    have hle := hhigh hne
    omega

theorem Balanced.fetch_cons (h : Balanced lwm (items + 1) status (w :: rest) popList)
    (ht : status t ≠ some (.popper, true)) (hside : ∀ b, status t ≠ some (.pusher, b)) :
    Balanced lwm items (Function.update (Function.update status w (some (.pusher, false))) t none) rest popList := by
  obtain ⟨pushers, poppers, hpush, hpop, hlow, hhigh⟩ := h
  have hw := hpush.listed w List.mem_cons_self
  have htw : t ≠ w := fun he => hside true (he ▸ hw)
  obtain ⟨hwake, hnotMem⟩ := hpush.wake
  have hpoppers := hpop.other (fun b hb => (by rw [hw] at hb; cases hb)) (some (.pusher, false))
  refine ⟨insert w pushers, poppers.erase t, hwake.other ?_ _, hpoppers.leave ?_ _, fun _ => ?_, fun hne => ?_⟩
  · rw [Function.update_of_ne htw]
    exact hside
  · rw [Function.update_of_ne htw]
    exact ht
  · have hlt := hlow fun he => (by cases he)
    rw [Finset.card_insert_of_notMem hnotMem]
    omega
  · have hcard := Finset.pred_card_le_card_erase (s := poppers) (a := t)
    have hle := hhigh hne
    omega

end Balance

/-! ### The runs -/

section Runs

variable [DecidableEq T] {size lwm : ℕ} {s s' : Sys V T}

theorem status_eq {t : T} (hframe : ∀ u, u ≠ t → s'.frame u = s.frame u)
    (hthread : ∀ u, u ≠ t → (s'.state.thread u).error = (s.state.thread u).error)
    (hsuspended : ∀ u, u ≠ t → s'.state.suspended u = s.state.suspended u) {x : Option (Side × Bool)}
    (hx : s'.status t = x) : s'.status = Function.update s.status t x := by
  funext u
  by_cases hut : u = t
  · rw [hut, Function.update_self, hx]
  · rw [Function.update_of_ne hut, Sys.status, Sys.status, hframe u hut, hthread u hut, hsuspended u hut]

structure Stranding (size lwm : ℕ) (s : Sys V T) : Prop where
  inv : Inv size s
  lwm_eq : s.state.dq.lwm = lwm
  balanced : Balanced lwm s.items s.status s.state.dq.suspendedPushList s.state.dq.suspendedPopList

@[simp] theorem record_state (t : T) (f : Frame V) (r : State V T × Outcome V) : (s.record t f r).state = r.1 := by
  obtain ⟨state, o⟩ := r
  cases o <;> rfl

theorem record_frame_suspended (t : T) (f : Frame V) (state : State V T) :
    (s.record t f (state, .suspended)).frame = Function.update s.frame t (some f) := by
  cases f <;> rfl

theorem record_frame_of_ends (t : T) (f : Frame V) (state : State V T) {o : Outcome V} (ho : o ≠ .suspended) :
    (s.record t f (state, o)).frame = Function.update s.frame t none := by
  cases o with
  | suspended => exact absurd rfl ho
  | failed e => cases f <;> rfl
  | pushed v => rfl
  | popped v => rfl

theorem status_ends (t : T) (f : Frame V) (state : State V T) {o : Outcome V} (ho : o ≠ .suspended) :
    (s.record t f (state, o)).status = Function.update ({ s with state := state } : Sys V T).status t none := by
  have hframe := record_frame_of_ends (s := s) t f state ho
  refine status_eq (fun u hu => ?_) (fun u _ => by rw [record_state]) (fun u _ => by rw [record_state]) ?_
  · rw [hframe, Function.update_of_ne hu]
  · rw [Sys.status, hframe, Function.update_self]

theorem status_suspended (dq : RtDataQueue V T) (t : T) (f : Frame V) (timeout : ℤ) :
    (s.record t f (suspend { s.state with dq := dq } t timeout, .suspended)).status =
      Function.update s.status t (some (f.side, true)) := by
  have hframe := record_frame_suspended (s := s) t f (suspend { s.state with dq := dq } t timeout)
  refine status_eq (fun u hu => ?_) (fun u hu => ?_) (fun u hu => ?_) ?_
  · rw [hframe, Function.update_of_ne hu]
  · rw [record_state]
    simp only [suspend, Function.update_of_ne hu]
  · rw [record_state]
    simp only [suspend, Function.update_of_ne hu]
  · rw [Sys.status, hframe, record_state]
    simp only [suspend, Function.update_self]
    rfl

theorem status_resume (dq : RtDataQueue V T) {w : T} {side : Side} (hw : s.status w = some (side, true)) :
    ({ s with state := resume { s.state with dq := dq } w } : Sys V T).status =
      Function.update s.status w (some (side, false)) := by
  refine @status_eq V T _ s { s with state := resume { s.state with dq := dq } w } w (fun _ _ => rfl) (fun u hu => ?_)
    (fun u hu => ?_) _ ?_
  · simp only [resume, Function.update_of_ne hu]
  · simp only [resume, Function.update_of_ne hu]
  · simp only [Sys.status, resume, Function.update_self, Thread.resume] at hw ⊢
    cases hf : s.frame w with
    | none => simp only [hf, reduceCtorEq] at hw
    | some f =>
      simp only [hf, Option.ite_none_right_eq_some, Option.some.injEq, Prod.mk.injEq] at hw
      simp only [hw.1, hw.2.1, if_true]

theorem status_return {t : T} (herror : (s.state.thread t).error ≠ .eok) :
    ({ s with frame := Function.update s.frame t none } : Sys V T).status = s.status := by
  have hnone : s.status t = none := by
    unfold Sys.status
    split
    · rfl
    · exact if_neg herror
  have hupdate := @status_eq V T _ s { s with frame := Function.update s.frame t none } t
    (fun u hu => Function.update_of_ne hu _ _) (fun _ _ => rfl) (fun _ _ => rfl) none
    (by simp only [Sys.status, Function.update_self])
  rw [hupdate, ← hnone, Function.update_eq_self]

theorem status_timeout (t : T) :
    ({ s with state := rtThreadTimeout s.state t } : Sys V T).status = Function.update s.status t none := by
  refine @status_eq V T _ s { s with state := rtThreadTimeout s.state t } t (fun _ _ => rfl) (fun u hu => ?_)
    (fun u hu => Function.update_of_ne hu _ _) none ?_
  · exact congrArg Thread.error (Function.update_of_ne hu _ _)
  · simp only [Sys.status, rtThreadTimeout, Function.update_self, Thread.timeout]
    split
    · rfl
    · rw [if_neg (by decide)]

theorem push_balanced (hsize : size < 65536) (h : Stranding size lwm s) (hlwm : lwm < size) {t : T}
    (ht : s.status t = none ∨ s.status t = some (.pusher, false)) (v : V) (timeout : ℤ)
    (hs' : s' = s.record t (.pushing v timeout) (rtDataQueuePushPass s.state t v timeout)) :
    Balanced lwm s'.items s'.status s'.state.dq.suspendedPushList s'.state.dq.suspendedPopList := by
  have hown : s.status t ≠ some (.pusher, true) := by
    rcases ht with ht | ht <;> rw [ht] <;> intro he <;> cases he
  have hother : ∀ b, s.status t ≠ some (.popper, b) := by
    rcases ht with ht | ht <;> rw [ht] <;> intro b he <;> cases he
  have hb := h.balanced
  unfold rtDataQueuePushPass at hs'
  by_cases hfull : full s.state.dq
  · have hitems : lwm < s.items := by
      rw [Sys.items, h.inv.holds.length_of_full hsize hfull, Nat.add_sub_cancel_left]
      exact hlwm
    rw [if_pos hfull] at hs'
    split at hs'
    · rw [hs', status_ends t _ s.state fun he => (by cases he), record_state]
      exact hb.pusherFails hitems hown hother
    · rw [hs', status_suspended, record_state]
      exact hb.suspendPusher hitems hown hother
  · rw [if_neg hfull] at hs'
    have hitems : s'.items = s.items + 1 := by
      have hle := h.inv.holds.le
      rw [hs']
      simp only [Sys.items, Sys.record, List.length_append, List.length_singleton]
      omega
    rw [hitems, hs', status_ends t _ _ fun he => (by cases he), record_state]
    cases hlist : s.state.dq.suspendedPopList with
    | nil =>
      rw [hlist] at hb
      simp only [store, hlist]
      exact hb.store_nil hown hother
    | cons w rest =>
      rw [hlist] at hb
      simp only [store, hlist]
      have hw : s.status w = some (.popper, true) := by
        obtain ⟨_, _, _, hpop, _⟩ := hb
        exact hpop.listed w List.mem_cons_self
      rw [status_resume _ hw]
      exact hb.store_cons hown hother

/-- A popper looks at the queue; `put_index` has not been reduced. -/
theorem pop_balanced (hsize : size < 65536) (h : Stranding size lwm s) (hpushes : s.pushed.length < 65536) {t : T}
    (ht : s.status t = none ∨ s.status t = some (.popper, false)) (timeout : ℤ)
    (hs' : s' = s.record t (.popping timeout) (rtDataQueuePopPass s.state t timeout)) :
    Balanced lwm s'.items s'.status s'.state.dq.suspendedPushList s'.state.dq.suspendedPopList := by
  have hown : s.status t ≠ some (.popper, true) := by
    rcases ht with ht | ht <;> rw [ht] <;> intro he <;> cases he
  have hother : ∀ b, s.status t ≠ some (.pusher, b) := by
    rcases ht with ht | ht <;> rw [ht] <;> intro b he <;> cases he
  have hb := h.balanced
  have hle := h.inv.holds.le
  have hempty := h.inv.holds.empty_iff hsize
  unfold rtDataQueuePopPass at hs'
  by_cases hzero : s.state.dq.getIndex = s.state.dq.putIndex
  · have hitems : s.items = 0 := by
      rw [Sys.items, hempty.mp hzero, Nat.sub_self]
    rw [hitems] at hb
    rw [if_pos hzero] at hs'
    split at hs'
    · rw [hs', status_ends t _ s.state fun he => (by cases he), record_state]
      exact hitems ▸ hb.popperFails hown hother
    · rw [hs', status_suspended, record_state]
      exact hitems ▸ hb.suspendPopper hown hother
  · rw [if_neg hzero] at hs'
    have hne : s.pushed.length ≠ s.popped.length := fun he => hzero (hempty.mpr he)
    have hitems : s.items = s'.items + 1 := by
      rw [hs']
      simp only [Sys.items, Sys.record, List.length_append, List.length_singleton]
      omega
    have hlow : (s.state.dq.putIndex : ℤ) - (inc 16 s.state.dq.getIndex : ℕ) ≤ (s.state.dq.lwm : ℤ) ↔ s'.items ≤ lwm := by
      have hput := h.inv.holds.put_eq
      have hget := h.inv.holds.get_eq
      rw [h.lwm_eq, hput, hget, Nat.mod_eq_of_lt hpushes, Nat.mod_eq_of_lt (show s.popped.length < 65536 by omega),
        inc_of_lt (by omega)]
      rw [Sys.items] at hitems
      omega
    rw [hitems] at hb
    rw [hs', status_ends t _ _ fun he => (by cases he), record_state, ← hs']
    by_cases hwake : s'.items ≤ lwm
    · cases hlist : s.state.dq.suspendedPushList with
      | nil =>
        rw [hlist] at hb
        simp only [fetch, hlow, if_pos hwake, hlist]
        exact hb.fetch (fun hne => absurd rfl hne) hown hother
      | cons w rest =>
        rw [hlist] at hb
        have hw : s.status w = some (.pusher, true) := by
          obtain ⟨_, _, hpush, _, _⟩ := hb
          exact hpush.listed w List.mem_cons_self
        simp only [fetch, hlow, if_pos hwake, hlist]
        rw [status_resume _ hw]
        exact hb.fetch_cons hown hother
    · simp only [fetch, hlow, if_neg hwake]
      exact hb.fetch (fun _ => Nat.lt_of_not_le hwake) hown hother

theorem pass_lwm (state : State V T) (t : T) (f : Frame V) : (pass state t f).1.dq.lwm = state.dq.lwm := by
  cases f with
  | pushing v timeout =>
    simp only [pass, rtDataQueuePushPass, store]
    split
    · split <;> rfl
    · split <;> rfl
  | popping timeout =>
    simp only [pass, rtDataQueuePopPass, fetch]
    split
    · split <;> rfl
    · split
      · split <;> rfl
      · rfl

omit [DecidableEq T] in
theorem Stranding.safe (h : Stranding size lwm s) (hpushes : s.pushed.length < 65536) (a : Act V T) : Safe s a := by
  have hroom : Room s.state.dq := by
    have hle := h.inv.holds.le
    refine .inl ?_
    rw [h.inv.holds.put_eq, h.inv.holds.get_eq, Nat.mod_eq_of_lt hpushes, Nat.mod_eq_of_lt (by omega)]
    exact hle
  cases a with
  | push t v timeout => exact hroom
  | resume t => exact fun _ _ => hroom
  | _ => trivial

theorem pass_stranding (hsize : size < 65536) (hlwm : lwm < size) (h : Stranding size lwm s)
    (hpushes : s.pushed.length < 65536) {t : T} {f : Frame V}
    (ht : s.status t = none ∨ s.status t = some (f.side, false)) (hinv : Inv size (s.record t f (pass s.state t f))) :
    Stranding size lwm (s.record t f (pass s.state t f)) := by
  refine ⟨hinv, ?_, ?_⟩
  · rw [record_state, pass_lwm, h.lwm_eq]
  · cases f with
    | pushing v timeout => exact push_balanced hsize h hlwm ht v timeout rfl
    | popping timeout => exact pop_balanced hsize h hpushes ht timeout rfl

theorem step_stranding (hpos : 0 < size) (hsize : size < 65536) (hlwm : lwm < size) {a : Act V T}
    (h : Stranding size lwm s) (hpushes : s.pushed.length < 65536) (hstep : step s a = some s') :
    Stranding size lwm s' := by
  have hinv := step_inv hpos hsize h.inv (h.safe hpushes a) hstep
  have hb := h.balanced
  cases a with
  | push t v timeout =>
    simp only [step, Option.ite_none_right_eq_some, Option.some.injEq] at hstep
    obtain ⟨hframe, rfl⟩ := hstep
    refine pass_stranding (f := .pushing v timeout) hsize hlwm h hpushes (.inl ?_) hinv
    rw [Sys.status, Option.isNone_iff_eq_none.mp hframe]
  | pop t timeout =>
    simp only [step, Option.ite_none_right_eq_some, Option.some.injEq] at hstep
    obtain ⟨hframe, rfl⟩ := hstep
    refine pass_stranding (f := .popping timeout) hsize hlwm h hpushes (.inl ?_) hinv
    rw [Sys.status, Option.isNone_iff_eq_none.mp hframe]
  | peak =>
    simp only [step] at hstep
    split at hstep
    · cases hstep
      exact ⟨hinv, h.lwm_eq, hb⟩
    · cases hstep
      exact h
  | resume t =>
    simp only [step] at hstep
    cases hf : s.frame t with
    | none => simp [hf] at hstep
    | some f =>
      simp only [hf] at hstep
      split at hstep
      · cases hstep
      · next hawake =>
        have hawake' : s.state.suspended t = false := Bool.eq_false_iff.mpr hawake
        split at hstep
        · next herror =>
          -- the call returns what its timer has left it
          cases hstep
          refine ⟨hinv, h.lwm_eq, ?_⟩
          rw [status_return herror]
          exact hb
        · next herror =>
          cases hstep
          refine pass_stranding hsize hlwm h hpushes (.inr ?_) hinv
          simp only [Sys.status, hf, if_pos (not_not.mp herror), hawake']
  | timeout t =>
    simp only [step, Option.ite_none_right_eq_some, Option.some.injEq] at hstep
    obtain ⟨⟨hsuspended, -⟩, rfl⟩ := hstep
    have hside : ∀ side, s.status t ≠ some (side, false) := by
      intro side he
      unfold Sys.status at he
      split at he
      · cases he
      · rw [hsuspended] at he
        split at he <;> cases he
    refine ⟨hinv, h.lwm_eq, ?_⟩
    rw [status_timeout]
    exact hb.remove t hside

theorem pushed_le (hstep : ∃ a, step s a = some s') : s.pushed.length ≤ s'.pushed.length := by
  have hrecord : ∀ (t : T) (f : Frame V) (r : State V T × Outcome V), s.pushed.length ≤ (s.record t f r).pushed.length := by
    intro t f r
    obtain ⟨state, o⟩ := r
    cases o with
    | pushed v => exact (List.prefix_append s.pushed [v]).length_le
    | popped v => exact le_rfl
    | failed e => cases f <;> exact le_rfl
    | suspended => cases f <;> exact le_rfl
  obtain ⟨a, hstep⟩ := hstep
  cases a with
  | push t v timeout =>
    simp only [step, Option.ite_none_right_eq_some, Option.some.injEq] at hstep
    rw [← hstep.2]
    exact hrecord t _ _
  | pop t timeout =>
    simp only [step, Option.ite_none_right_eq_some, Option.some.injEq] at hstep
    rw [← hstep.2]
    exact hrecord t _ _
  | peak =>
    simp only [step] at hstep
    split at hstep <;> cases hstep <;> exact le_rfl
  | resume t =>
    simp only [step] at hstep
    split at hstep
    · cases hstep
    · split at hstep
      · cases hstep
      · split at hstep
        · cases hstep
          exact le_rfl
        · cases hstep
          exact hrecord t _ _
  | timeout t =>
    simp only [step, Option.ite_none_right_eq_some, Option.some.injEq] at hstep
    rw [← hstep.2]

omit [DecidableEq T] in
theorem stranding_start (queue : ℕ → V) (size lwm : ℕ) (thread : T → Thread) :
    Stranding size lwm (start (rtDataQueueInit queue size lwm thread)) := by
  refine ⟨⟨⟨rfl, rfl, rfl, le_rfl, Nat.zero_le _, ?_, List.nil_prefix⟩, ?_, ?_⟩, rfl, ∅, ∅, ?_, ?_, ?_, ?_⟩
  · simp [start]
  · simp [start]
  · simp [start]
  · exact ⟨List.nodup_nil, fun _ h => absurd h List.not_mem_nil, fun _ h => absurd h (Finset.notMem_empty _)⟩
  · exact ⟨List.nodup_nil, fun _ h => absurd h List.not_mem_nil, fun _ h => absurd h (Finset.notMem_empty _)⟩
  · exact fun hne => absurd rfl hne
  · exact fun hne => absurd rfl hne

/-- With fewer than 65536 items pushed, pushers never wait at an empty queue and poppers never at
another, unless a woken thread has not looked at the queue yet. -/
theorem dataqueue_never_strands (hpos : 0 < size) (hsize : size < 65536) (hlwm : lwm < size) (queue : ℕ → V)
    (thread : T → Thread) (acts : List (Act V T))
    (hrun : exec step (start (rtDataQueueInit queue size lwm thread)) acts = some s) (hpushes : s.pushed.length < 65536)
    (hquiet : Quiet s) :
    ¬(s.state.dq.getIndex = s.state.dq.putIndex ∧ s.state.dq.suspendedPushList ≠ []) ∧
      (s.state.dq.suspendedPopList ≠ [] → s.state.dq.getIndex = s.state.dq.putIndex) := by
  have hinv : s.pushed.length < 65536 → Stranding size lwm s := by
    refine exec_inv (fun s => s.pushed.length < 65536 → Stranding size lwm s) (fun s a s' hs hstep hlt => ?_)
      (fun _ => stranding_start queue size lwm thread) hrun
    have hlt' := lt_of_le_of_lt (pushed_le ⟨a, hstep⟩) hlt
    exact step_stranding hpos hsize hlwm (hs hlt') hlt' hstep
  have h := hinv hpushes
  have hempty := h.inv.holds.empty_iff hsize
  have hle := h.inv.holds.le
  obtain ⟨hpush, hpop⟩ := h.balanced.quiet hquiet
  constructor
  · rintro ⟨hzero, hne⟩
    refine hne (hpush ?_)
    rw [Sys.items, hempty.mp hzero, Nat.sub_self]
  · intro hne
    have hitems := hpop hne
    rw [Sys.items] at hitems
    exact hempty.mpr (by omega)

end Runs

/-- A pusher waits, is woken and stores its item, and another one waits. -/
def handoverRun {U : Type} (a b c : U) : List (Act ℕ U) :=
  [.push a 10 0, .push a 11 (-1), .push b 12 5, .pop c 0, .resume a]

theorem dataqueue_never_strands_handover :
    ∃ s, exec step (start (rtDataQueueInit (fun _ => 0) 1 0 fun t : Fin 3 => rtThreadInit t)) (handoverRun 0 1 2) = some s ∧
      s.state.dq.suspendedPushList = [1] ∧
      ¬(s.state.dq.getIndex = s.state.dq.putIndex ∧ s.state.dq.suspendedPushList ≠ []) ∧
      (s.state.dq.suspendedPopList ≠ [] → s.state.dq.getIndex = s.state.dq.putIndex) := by
  refine ⟨_, rfl, by decide, ?_⟩
  refine @dataqueue_never_strands ℕ (Fin 3) _ 1 0 _ (by decide) (by decide) (by decide) (fun _ => 0)
    (fun t => rtThreadInit t) (handoverRun 0 1 2) rfl (by decide) fun t side => ?_
  fin_cases t <;> cases side <;> decide

end RtThread.Drivers.DataQueue
