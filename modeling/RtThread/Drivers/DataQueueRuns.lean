import RtThread.Drivers.DataQueue

/-!
# Runs on a data queue

Any number of threads and interrupts push, pop and peak, and the timers of waiting threads
expire, in any order of the interrupt-disabled sections. The queue is a bounded queue in every
run in which no push comes while `put_index` has passed 65535 and `get_index` has not, or in
which such pushes find a free cell where they store.
-/

namespace RtThread.Drivers.DataQueue

open RtThread.Lib.Word RtThread.Lib.Transition RtThread.Ipc.Base

/-! ### Cells -/

/-- The cell of the item with the number `k` is not the cell of an item with a number from `j`
on: the numbers are reduced modulo 65536 and then modulo `size`, so the items on both sides of a
multiple of 65536 are `65536 % size` cells apart. -/
theorem cell_ne {size i j k : ℕ} (hsize : size < 65536) (hji : j ≤ i) (hik : i < k) (hk : k < j + size)
    (hroom : j % 65536 ≤ k % 65536 ∨ 65536 % size ≤ k % 65536 ∨ k - j < 65536 % size) :
    i % 65536 % size ≠ k % 65536 % size := by
  intro heq
  by_cases hsame : i / 65536 = k / 65536
  · have hk' : k % 65536 = i % 65536 + (k - i) := by omega
    have hmod : (i % 65536 + (k - i)) % size = (i % 65536 + 0) % size := by
      rw [← hk', Nat.add_zero, heq]
    have hzero : (k - i) % size = 0 % size := Nat.ModEq.add_left_cancel' _ hmod
    rw [Nat.mod_eq_of_lt (by omega), Nat.zero_mod] at hzero
    omega
  · -- the number 65536 has been passed between `i` and `k`
    have hi' : i % 65536 + (k - i) = k % 65536 + 65536 := by omega
    have hmod : (k % 65536 + 65536) % size = (k % 65536 + (k - i)) % size := by
      rw [← hi', Nat.add_mod, heq, ← Nat.add_mod]
    have hdist : 65536 % size = (k - i) % size := Nat.ModEq.add_left_cancel' _ hmod
    rw [Nat.mod_eq_of_lt (show k - i < size by omega)] at hdist
    omega

variable {V T : Type*}

/-- The number of the items when only `put_index` has passed 65535. -/
def wrappedItems (dq : RtDataQueue V T) : ℕ := dq.putIndex + 65536 - dq.getIndex

/-- A push is safe: `put_index` has not passed 65535 alone, or else there is room, and the cell
of the new item is not in use. -/
def Room (dq : RtDataQueue V T) : Prop :=
  dq.getIndex ≤ dq.putIndex ∨
    wrappedItems dq < dq.size ∧ (65536 % dq.size ≤ dq.putIndex ∨ wrappedItems dq < 65536 % dq.size)

instance (dq : RtDataQueue V T) : Decidable (Room dq) := inferInstanceAs (Decidable (_ ∨ _))

/-- The array holds the items that were pushed and not popped, in order. -/
structure Holds (size : ℕ) (dq : RtDataQueue V T) (pushed popped : List V) : Prop where
  size_eq : dq.size = size
  put_eq : dq.putIndex = pushed.length % 65536
  get_eq : dq.getIndex = popped.length % 65536
  le : popped.length ≤ pushed.length
  bound : pushed.length ≤ popped.length + size
  cells : ∀ i, popped.length ≤ i → ∀ v, pushed[i]? = some v → dq.queue (i % 65536 % size) = v
  front : popped <+: pushed

theorem Holds.empty_iff {size : ℕ} {dq : RtDataQueue V T} {pushed popped : List V} (hsize : size < 65536)
    (h : Holds size dq pushed popped) : dq.getIndex = dq.putIndex ↔ pushed.length = popped.length := by
  have hle := h.le
  have hbound := h.bound
  rw [h.get_eq, h.put_eq]
  omega

theorem Holds.length_of_full {size : ℕ} {dq : RtDataQueue V T} {pushed popped : List V} (hsize : size < 65536)
    (h : Holds size dq pushed popped) (hfull : full dq) : pushed.length = popped.length + size := by
  have hle := h.le
  have hbound := h.bound
  unfold full at hfull
  rw [h.get_eq, h.put_eq, h.size_eq] at hfull
  omega

theorem Holds.length_of_room {size : ℕ} {dq : RtDataQueue V T} {pushed popped : List V} (hpos : 0 < size)
    (hsize : size < 65536) (h : Holds size dq pushed popped) (hnot : ¬full dq) (hroom : Room dq) :
    pushed.length < popped.length + size := by
  have hle := h.le
  have hbound := h.bound
  unfold full at hnot
  unfold Room wrappedItems at hroom
  rw [h.get_eq, h.put_eq, h.size_eq] at hnot hroom
  omega

theorem Holds.push {size : ℕ} {dq dq' : RtDataQueue V T} {pushed popped : List V} {v : V} (hpos : 0 < size)
    (hsize : size < 65536) (h : Holds size dq pushed popped) (hnot : ¬full dq) (hroom : Room dq)
    (hsz : dq'.size = dq.size) (hget : dq'.getIndex = dq.getIndex) (hput : dq'.putIndex = inc 16 dq.putIndex)
    (hqueue : dq'.queue = Function.update dq.queue (dq.putIndex % dq.size) v) :
    Holds size dq' (pushed ++ [v]) popped := by
  have hlt := h.length_of_room hpos hsize hnot hroom
  have hle := h.le
  have hcell : dq'.queue = Function.update dq.queue (pushed.length % 65536 % size) v := by
    rw [hqueue, h.put_eq, h.size_eq]
  refine ⟨hsz.trans h.size_eq, ?_, hget.trans h.get_eq, ?_, ?_, fun i hi w hw => ?_,
    h.front.trans (List.prefix_append _ _)⟩
  · rw [hput, h.put_eq, List.length_append, List.length_singleton, inc]
    omega
  · rw [List.length_append]
    omega
  · rw [List.length_append, List.length_singleton]
    omega
  · rw [hcell]
    rcases Nat.lt_trichotomy i pushed.length with hlt' | rfl | hgt
    · have hne : i % 65536 % size ≠ pushed.length % 65536 % size := by
        refine cell_ne hsize hi hlt' hlt ?_
        unfold Room wrappedItems at hroom
        rw [h.get_eq, h.put_eq, h.size_eq] at hroom
        omega
      rw [Function.update_of_ne hne]
      rw [List.getElem?_append_left hlt'] at hw
      exact h.cells i hi w hw
    · rw [Function.update_self]
      rw [List.getElem?_concat_length] at hw
      exact Option.some.inj hw
    · rw [List.getElem?_eq_none (by rw [List.length_append, List.length_singleton]; omega)] at hw
      cases hw

theorem Holds.getElem {size : ℕ} {dq : RtDataQueue V T} {pushed popped : List V} (hsize : size < 65536)
    (h : Holds size dq pushed popped) (hne : dq.getIndex ≠ dq.putIndex) :
    pushed[popped.length]? = some (dq.queue (dq.getIndex % dq.size)) := by
  have hlt : popped.length < pushed.length :=
    lt_of_le_of_ne h.le fun he => hne ((h.empty_iff hsize).mpr he.symm)
  have hget := List.getElem?_eq_getElem hlt
  rw [h.get_eq, h.size_eq, h.cells _ le_rfl _ hget]
  exact hget

theorem Holds.pop {size : ℕ} {dq dq' : RtDataQueue V T} {pushed popped : List V} (hsize : size < 65536)
    (h : Holds size dq pushed popped) (hne : dq.getIndex ≠ dq.putIndex)
    (hsz : dq'.size = dq.size) (hget : dq'.getIndex = inc 16 dq.getIndex) (hput : dq'.putIndex = dq.putIndex)
    (hqueue : dq'.queue = dq.queue) :
    Holds size dq' pushed (popped ++ [dq.queue (dq.getIndex % dq.size)]) := by
  have hlt : popped.length < pushed.length :=
    lt_of_le_of_ne h.le fun he => hne ((h.empty_iff hsize).mpr he.symm)
  have hbound := h.bound
  refine ⟨hsz.trans h.size_eq, hput.trans h.put_eq, ?_, ?_, ?_, fun i hi w hw => ?_, ?_⟩
  · rw [hget, h.get_eq, List.length_append, List.length_singleton, inc]
    omega
  · rw [List.length_append, List.length_singleton]
    omega
  · rw [List.length_append, List.length_singleton]
    omega
  · rw [List.length_append, List.length_singleton] at hi
    rw [hqueue]
    exact h.cells i (by omega) w hw
  · obtain ⟨rest, hrest⟩ := h.front
    have hhead := h.getElem hsize hne
    rw [← hrest, List.getElem?_append_right le_rfl, Nat.sub_self] at hhead
    cases rest with
    | nil => cases hhead
    | cons w rest =>
      cases hhead
      exact ⟨rest, by rw [List.append_assoc, List.singleton_append]; exact hrest⟩

/-! ### The system -/

/-- The arguments of a push or of a pop under way. -/
inductive Frame (V : Type*) where
  | pushing (v : V) (timeout : ℤ)
  | popping (timeout : ℤ)

/-- A push that found the queue full or a pop that found it empty, and the number of the items
in the queue then. -/
inductive Refusal where
  | push (items : ℕ)
  | pop (items : ℕ)

/-- All but `state` and `frame` is history: the items pushed and popped in the order of their
sections, the calls that were refused (suspended, or failed without waiting), and the items that
a peak has returned, with the number of the items popped before. -/
structure Sys (V T : Type*) where
  state : State V T
  frame : T → Option (Frame V)
  pushed : List V
  popped : List V
  refused : List Refusal
  peaked : List (ℕ × V)

def start (state : State V T) : Sys V T := ⟨state, fun _ => none, [], [], [], []⟩

def Sys.items (s : Sys V T) : ℕ := s.pushed.length - s.popped.length

def Sys.refuse (s : Sys V T) : Frame V → Sys V T
  | .pushing _ _ => { s with refused := .push s.items :: s.refused }
  | .popping _ => { s with refused := .pop s.items :: s.refused }

variable [DecidableEq T]

def pass (s : State V T) (t : T) : Frame V → State V T × Outcome V
  | .pushing v timeout => rtDataQueuePushPass s t v timeout
  | .popping timeout => rtDataQueuePopPass s t timeout

def Sys.record (s : Sys V T) (t : T) (f : Frame V) (r : State V T × Outcome V) : Sys V T :=
  match r.2 with
  | .failed _ => { s.refuse f with state := r.1, frame := Function.update s.frame t none }
  | .suspended => { s.refuse f with state := r.1, frame := Function.update s.frame t (some f) }
  | .pushed v => { s with state := r.1, frame := Function.update s.frame t none, pushed := s.pushed ++ [v] }
  | .popped v => { s with state := r.1, frame := Function.update s.frame t none, popped := s.popped ++ [v] }

inductive Act (V T : Type*) where
  | push (t : T) (v : V) (timeout : ℤ)
  | pop (t : T) (timeout : ℤ)
  | peak
  | resume (t : T)
  | timeout (t : T)

/-- One section. -/
def step (s : Sys V T) : Act V T → Option (Sys V T)
  | .push t v timeout =>
    if (s.frame t).isNone = true then
      some (s.record t (.pushing v timeout) (rtDataQueuePushPass s.state t v timeout))
    else none
  | .pop t timeout =>
    if (s.frame t).isNone = true then
      some (s.record t (.popping timeout) (rtDataQueuePopPass s.state t timeout))
    else none
  | .peak =>
    match rtDataQueuePeak s.state with
    | some v => some { s with peaked := (s.popped.length, v) :: s.peaked }
    | none => some s
  | .resume t =>
    match s.frame t with
    | none => none
    | some f =>
      if s.state.suspended t = true then none
      else if (s.state.thread t).error ≠ .eok then some { s with frame := Function.update s.frame t none }
      else some (s.record t f (pass s.state t f))
  | .timeout t =>
    if s.state.suspended t = true ∧ (s.state.thread t).threadTimer = true then
      some { s with state := rtThreadTimeout s.state t }
    else none

def writes : Option (Frame V) → Bool
  | some (.pushing _ _) => true
  | _ => false

/-- A step that looks whether the queue is full, and stores an item if not, finds room. -/
def Safe (s : Sys V T) : Act V T → Prop
  | .push _ _ _ => Room s.state.dq
  | .resume t => writes (s.frame t) = true → (s.state.thread t).error = .eok → Room s.state.dq
  | _ => True

omit [DecidableEq T] in
instance (s : Sys V T) : (a : Act V T) → Decidable (Safe s a)
  | .push _ _ _ => inferInstanceAs (Decidable (Room _))
  | .resume _ => inferInstanceAs (Decidable (_ → _ → _))
  | .pop _ _ => isTrue trivial
  | .peak => isTrue trivial
  | .timeout _ => isTrue trivial

/-- What every run of safe steps keeps. -/
structure Inv (size : ℕ) (s : Sys V T) : Prop where
  holds : Holds size s.state.dq s.pushed s.popped
  refused : ∀ r ∈ s.refused, r = .push size ∨ r = .pop 0
  peaked : ∀ p ∈ s.peaked, s.pushed[p.1]? = some p.2

omit [DecidableEq T] in
theorem Inv.congr {size : ℕ} {s s' : Sys V T} (h : Inv size s) (hsize : s'.state.dq.size = s.state.dq.size)
    (hget : s'.state.dq.getIndex = s.state.dq.getIndex) (hput : s'.state.dq.putIndex = s.state.dq.putIndex)
    (hqueue : s'.state.dq.queue = s.state.dq.queue) (hpushed : s'.pushed = s.pushed) (hpopped : s'.popped = s.popped)
    (hrefused : ∀ r ∈ s'.refused, r = .push size ∨ r = .pop 0)
    (hpeaked : ∀ p ∈ s'.peaked, s.pushed[p.1]? = some p.2) : Inv size s' := by
  have hh := h.holds
  refine ⟨⟨hsize.trans hh.size_eq, ?_, ?_, ?_, ?_, ?_, ?_⟩, hrefused, ?_⟩
  · rw [hput, hpushed]
    exact hh.put_eq
  · rw [hget, hpopped]
    exact hh.get_eq
  · rw [hpushed, hpopped]
    exact hh.le
  · rw [hpushed, hpopped]
    exact hh.bound
  · rw [hpushed, hpopped, hqueue]
    exact hh.cells
  · rw [hpushed, hpopped]
    exact hh.front
  · rw [hpushed]
    exact hpeaked

theorem store_dq (s : State V T) (v : V) :
    (store s v).dq.size = s.dq.size ∧ (store s v).dq.getIndex = s.dq.getIndex ∧
      (store s v).dq.putIndex = inc 16 s.dq.putIndex ∧
      (store s v).dq.queue = Function.update s.dq.queue (s.dq.putIndex % s.dq.size) v := by
  unfold store
  simp only
  split <;> exact ⟨rfl, rfl, rfl, rfl⟩

theorem fetch_dq (s : State V T) :
    (fetch s).dq.size = s.dq.size ∧ (fetch s).dq.getIndex = inc 16 s.dq.getIndex ∧
      (fetch s).dq.putIndex = s.dq.putIndex ∧ (fetch s).dq.queue = s.dq.queue := by
  unfold fetch
  simp only
  split
  · split <;> exact ⟨rfl, rfl, rfl, rfl⟩
  · exact ⟨rfl, rfl, rfl, rfl⟩

theorem record_push_inv {size : ℕ} (hpos : 0 < size) (hsize : size < 65536) {s : Sys V T} (h : Inv size s)
    (hroom : Room s.state.dq) (t : T) (v : V) (timeout : ℤ) :
    Inv size (s.record t (.pushing v timeout) (rtDataQueuePushPass s.state t v timeout)) := by
  unfold rtDataQueuePushPass
  by_cases hfull : full s.state.dq
  · have hitems : s.items = size := by
      rw [Sys.items, h.holds.length_of_full hsize hfull, Nat.add_sub_cancel_left]
    have hrefused : ∀ r ∈ (Refusal.push s.items :: s.refused), r = .push size ∨ r = .pop 0 := by
      rw [hitems]
      exact List.forall_mem_cons.mpr ⟨Or.inl rfl, h.refused⟩
    rw [if_pos hfull]
    split
    · exact h.congr rfl rfl rfl rfl rfl rfl hrefused h.peaked
    · exact h.congr rfl rfl rfl rfl rfl rfl hrefused h.peaked
  · rw [if_neg hfull]
    obtain ⟨hsz, hget, hput, hqueue⟩ := store_dq s.state v
    refine ⟨h.holds.push hpos hsize hfull hroom hsz hget hput hqueue, h.refused, fun p hp => ?_⟩
    have hold := h.peaked p hp
    obtain ⟨hlt, -⟩ := List.getElem?_eq_some_iff.mp hold
    exact (List.getElem?_append_left hlt).trans hold

theorem record_pop_inv {size : ℕ} (hsize : size < 65536) {s : Sys V T} (h : Inv size s) (t : T) (timeout : ℤ) :
    Inv size (s.record t (.popping timeout) (rtDataQueuePopPass s.state t timeout)) := by
  unfold rtDataQueuePopPass
  by_cases hempty : s.state.dq.getIndex = s.state.dq.putIndex
  · have hitems : s.items = 0 := by
      rw [Sys.items, (h.holds.empty_iff hsize).mp hempty, Nat.sub_self]
    have hrefused : ∀ r ∈ (Refusal.pop s.items :: s.refused), r = .push size ∨ r = .pop 0 := by
      rw [hitems]
      exact List.forall_mem_cons.mpr ⟨Or.inr rfl, h.refused⟩
    rw [if_pos hempty]
    split
    · exact h.congr rfl rfl rfl rfl rfl rfl hrefused h.peaked
    · exact h.congr rfl rfl rfl rfl rfl rfl hrefused h.peaked
  · rw [if_neg hempty]
    obtain ⟨hsz, hget, hput, hqueue⟩ := fetch_dq s.state
    exact ⟨h.holds.pop hsize hempty hsz hget hput hqueue, h.refused, h.peaked⟩

theorem step_inv {size : ℕ} (hpos : 0 < size) (hsize : size < 65536) {s s' : Sys V T} {a : Act V T}
    (h : Inv size s) (hsafe : Safe s a) (hs : step s a = some s') : Inv size s' := by
  cases a with
  | push t v timeout =>
    simp only [step, Option.ite_none_right_eq_some, Option.some.injEq] at hs
    rw [← hs.2]
    exact record_push_inv hpos hsize h hsafe t v timeout
  | pop t timeout =>
    simp only [step, Option.ite_none_right_eq_some, Option.some.injEq] at hs
    rw [← hs.2]
    exact record_pop_inv hsize h t timeout
  | peak =>
    simp only [step] at hs
    split at hs
    · rename_i v hv
      unfold rtDataQueuePeak at hv
      split at hv
      · cases hv
      · rename_i hne
        cases hv
        cases hs
        exact ⟨h.holds, h.refused, List.forall_mem_cons.mpr ⟨h.holds.getElem hsize hne, h.peaked⟩⟩
    · cases hs
      exact h
  | resume t =>
    simp only [step] at hs
    split at hs
    · cases hs
    · rename_i f hf
      split at hs
      · cases hs
      · split at hs
        · cases hs
          exact h.congr rfl rfl rfl rfl rfl rfl h.refused h.peaked
        · rename_i herr
          cases hs
          cases f with
          | pushing v timeout =>
            have hwrites : writes (s.frame t) = true := by rw [hf]; rfl
            exact record_push_inv hpos hsize h (hsafe hwrites (not_not.mp herr)) t v timeout
          | popping timeout => exact record_pop_inv hsize h t timeout
  | timeout t =>
    simp only [step, Option.ite_none_right_eq_some, Option.some.injEq] at hs
    rw [← hs.2]
    exact h.congr rfl rfl rfl rfl rfl rfl h.refused h.peaked

/-- In every run whose pushes find room: the popped items are the pushed ones in order, at most
`size` items are in the queue, a push is refused only when `size` items are, a pop only when none
is, and a peak returns the next item. -/
theorem dataqueue_fifo {size lwm : ℕ} (hpos : 0 < size) (hsize : size < 65536) {queue : ℕ → V}
    {thread : T → Thread} {acts : List (Act V T)} {s : Sys V T}
    (hsafe : AllSteps step Safe (start (rtDataQueueInit queue size lwm thread)) acts)
    (hrun : exec step (start (rtDataQueueInit queue size lwm thread)) acts = some s) :
    s.popped <+: s.pushed ∧ s.pushed.length ≤ s.popped.length + size ∧
      (∀ r ∈ s.refused, r = .push size ∨ r = .pop 0) ∧ ∀ p ∈ s.peaked, s.pushed[p.1]? = some p.2 := by
  have h0 : Inv size (start (rtDataQueueInit queue size lwm thread)) := by
    refine ⟨⟨rfl, rfl, rfl, le_rfl, Nat.zero_le _, ?_, List.nil_prefix⟩, ?_, ?_⟩ <;> simp [start]
  have h := exec_inv_of_allSteps (Inv size) Safe (fun _ _ _ => step_inv hpos hsize) h0 hsafe hrun
  exact ⟨h.holds.front, h.holds.bound, h.refused, h.peaked⟩

/-- A queue of two items: thread 1 fills it and waits, and goes on when thread 2 has popped one. -/
def waitingRun : List (Act ℕ ℕ) :=
  [.push 1 10 0, .push 1 11 (-1), .push 1 12 (-1), .peak, .pop 2 0, .resume 1, .pop 2 0, .pop 2 0, .pop 2 0]

theorem dataqueue_fifo_waiting :
    ∃ s, exec step (start (rtDataQueueInit (fun _ => 0) 2 1 (fun t : ℕ => rtThreadInit t))) waitingRun = some s ∧
      s.pushed = [10, 11, 12] ∧ s.popped = [10, 11, 12] ∧ s.popped <+: s.pushed ∧
      ∀ r ∈ s.refused, r = .push 2 ∨ r = .pop 0 := by
  refine ⟨_, rfl, by decide, by decide, ?_⟩
  have h := @dataqueue_fifo ℕ ℕ _ 2 1 (by decide) (by decide) (fun _ => 0) (fun t => rtThreadInit t) waitingRun _
    (by decide) rfl
  exact ⟨h.1, h.2.2.1⟩

/-! ### A run past 65535 -/

/-- A queue of one item after `n` items have been pushed and popped one by one. -/
def roundState (n : ℕ) : Sys ℕ ℕ :=
  ⟨⟨⟨1, 0, n % 65536, n % 65536, fun _ => 0, [], []⟩, fun t => rtThreadInit t, fun _ => false⟩,
    fun _ => none, List.replicate n 0, List.replicate n 0, [], []⟩

def rounds : ℕ → List (Act ℕ ℕ)
  | 0 => []
  | n + 1 => rounds n ++ [.push 1 0 0, .pop 1 0]

theorem round_step (n : ℕ) : exec step (roundState n) [.push 1 0 0, .pop 1 0] = some (roundState (n + 1)) := by
  have hinc : inc 16 (n % 65536) = (n + 1) % 65536 := by
    rw [inc]
    omega
  have hne : n % 65536 ≠ (n + 1) % 65536 := by omega
  simp [exec, step, roundState, rtDataQueuePushPass, rtDataQueuePopPass, full, store, fetch, Sys.record, hinc,
    hne, List.replicate_succ']

theorem exec_rounds (n : ℕ) : exec step (roundState 0) (rounds n) = some (roundState n) := by
  induction n with
  | zero => rfl
  | succ n ih => rw [rounds, exec_append, ih, Option.bind_some, round_step]

theorem exec_overrun {n : ℕ} (hn : n % 65536 = 65535) :
    ∃ s s', exec step (roundState n) [.push 1 7 0, .push 1 8 0] = some s ∧ s.state.dq.size = 1 ∧
      s.pushed.length = s.popped.length + 2 ∧ s.refused = [] ∧ step s (.pop 1 0) = some s' ∧
      ¬s'.popped <+: s'.pushed := by
  have hzero : inc 16 (n % 65536) = 0 := by
    rw [inc]
    omega
  have hone : inc 16 0 = 1 := rfl
  have hnotFull : -((n : ℤ) % 65536) ≠ 1 := by omega
  have hne : n % 65536 ≠ 1 := by omega
  refine ⟨⟨⟨⟨1, 0, n % 65536, 1, Function.update (Function.update (fun _ => 0) 0 7) 0 8, [], []⟩,
      fun t => rtThreadInit t, fun _ => false⟩, fun _ => none, List.replicate n 0 ++ [7] ++ [8],
      List.replicate n 0, [], []⟩,
    ⟨⟨⟨1, 0, 0, 1, Function.update (Function.update (fun _ => 0) 0 7) 0 8, [], []⟩,
      fun t => rtThreadInit t, fun _ => false⟩, fun _ => none, List.replicate n 0 ++ [7] ++ [8],
      List.replicate n 0 ++ [8], [], []⟩, ?_, rfl, by simp, rfl, ?_, ?_⟩
  · simp [exec, step, roundState, rtDataQueuePushPass, full, store, Sys.record, hzero, hone, hnotFull,
      Nat.mod_one]
  · simp [step, rtDataQueuePopPass, fetch, Sys.record, hzero, hne, Nat.mod_one]
  · simp [List.append_assoc, List.prefix_append_right_inj]

/-- The two pushes after 65535 rounds find `put_index` at 65535 and then at 0; the second one does
not see that the queue is full. The next pop returns the item of the second push. -/
theorem dataqueue_overrun :
    ∃ s s', exec step (start (rtDataQueueInit (fun _ => 0) 1 0 (fun t : ℕ => rtThreadInit t)))
        (rounds 65535 ++ [.push 1 7 0, .push 1 8 0]) = some s ∧
      s.state.dq.size = 1 ∧ s.pushed.length = s.popped.length + 2 ∧ s.refused = [] ∧
      step s (.pop 1 0) = some s' ∧ ¬s'.popped <+: s'.pushed := by
  have hstart : start (rtDataQueueInit (fun _ => 0) 1 0 (fun t : ℕ => rtThreadInit t)) = roundState 0 := rfl
  rw [hstart, exec_append, exec_rounds, Option.bind_some]
  exact exec_overrun rfl

end RtThread.Drivers.DataQueue
