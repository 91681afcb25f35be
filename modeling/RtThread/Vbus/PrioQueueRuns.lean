import RtThread.Lib.Counting
import RtThread.Lib.Transition
import RtThread.Vbus.PrioQueue

/-!
# Pushing and popping threads (`components/vbus/prio_queue.c`)

Any number of threads push and pop. The memory pool hands out any block that is not in use, or none.
`queue` is the queue of values that the pushes and pops of the sections with interrupts disabled act on,
and `delivered` has what each successful pop has copied out, with what it should have.
-/

namespace RtThread.Vbus.PrioQueue

open RtThread.Lib.Chain RtThread.Lib.Counting RtThread.Lib.Transition

/-- Where a thread stands in `rt_prio_queue_push` or `rt_prio_queue_pop`. -/
inductive Place (B D : Type*) where
  | idle
  /-- in `rt_mp_alloc` -/
  | allocating (prio : ℕ) (d : D) (forever : Bool)
  | filling (prio : ℕ) (d : D) (item : B)
  | linking (prio : ℕ) (d : D) (item : B)
  | popping (timeout : ℤ)
  | suspended (timeout : ℤ)
  /-- behind `rt_schedule`; `error` when the timer has set `thread->error` -/
  | woken (timeout : ℤ) (error : Bool)
  | copying (item : B) (promised : Option D)
  | freeing (item : B) (got : D) (promised : Option D)

/-- The block that the thread has from the pool or from the queue. -/
def Place.item {B D : Type*} : Place B D → Option B
  | .filling _ _ item | .linking _ _ item | .copying item _ | .freeing item _ _ => some item
  | _ => none

/-- The thread was woken by a push and has not looked at the queue since. -/
def Place.rechecks {B D : Type*} : Place B D → Bool
  | .woken _ false => true
  | _ => false

structure Sys (T B D : Type*) where
  que : RtPrioQueue B
  data : B → D
  live : B → Bool
  suspendedPopList : List T
  place : T → Place B D
  queue : ℕ → List D
  delivered : List (D × Option D)

variable {T B D : Type*} [DecidableEq T] [DecidableEq B]

/-- After `rt_prio_queue_init`, whatever the blocks hold. -/
def start (next : B → Option B) (data : B → D) : Sys T B D :=
  ⟨rtPrioQueueInit next, data, fun _ => false, [], fun _ => .idle, fun _ => [], []⟩

def Sys.goto (s : Sys T B D) (t : T) (place : Place B D) : Sys T B D :=
  { s with place := Function.update s.place t place }

/-- `rt_thread_resume` of the first thread in the list, if there is one (`prio_queue.c:157-168`). -/
def resumePopper (s : Sys T B D) : Sys T B D :=
  match s.suspendedPopList with
  | [] => s
  | w :: rest =>
    match s.place w with
    | .suspended timeout => Sys.goto { s with suspendedPopList := rest } w (.woken timeout false)
    | _ => s

/-- The section of `rt_prio_queue_push` (`prio_queue.c:153-176`). -/
def linkItem (s : Sys T B D) (t : T) (prio : ℕ) (d : D) (item : B) : Option (Sys T B D) :=
  (doPush s.que prio item).map fun que =>
    resumePopper (Sys.goto { s with que := que, queue := Fifos.push s.queue prio d } t .idle)

/-- A pass of the loop of `rt_prio_queue_pop` (`prio_queue.c:191-219`). -/
def takeItem (s : Sys T B D) (t : T) (timeout : ℤ) : Option (Sys T B D) :=
  (doPop s.que).map fun popped =>
    match popped with
    | (que, some item) =>
      Sys.goto { s with que := que, queue := (Fifos.pop s.queue).1 } t (.copying item (Fifos.pop s.queue).2)
    | (_, none) =>
      let s := { s with queue := (Fifos.pop s.queue).1 }
      if timeout = 0 then s.goto t .idle
      else Sys.goto { s with suspendedPopList := s.suspendedPopList ++ [t] } t (.suspended timeout)

inductive Act (T B D : Type*) where
  | push (t : T) (prio : ℕ) (d : D) (forever : Bool)
  | alloc (t : T) (block : B)
  | allocFail (t : T)
  | fill (t : T)
  | link (t : T)
  | pop (t : T) (timeout : ℤ)
  | take (t : T)
  /-- `rt_thread_timeout` -/
  | expire (t : T)
  | leave (t : T)
  | copy (t : T)
  | free (t : T)

def step (s : Sys T B D) (a : Act T B D) : Option (Sys T B D) :=
  match a with
  | .push t prio d forever =>
    match s.place t with
    | .idle => if prio < prioMax then some (s.goto t (.allocating prio d forever)) else some s
    | _ => none
  | .alloc t block =>
    match s.place t with
    | .allocating prio d _ =>
      if s.live block = false then
        some (Sys.goto { s with live := Function.update s.live block true } t (.filling prio d block))
      else none
    | _ => none
  | .allocFail t =>
    match s.place t with
    | .allocating _ _ false => some (s.goto t .idle)
    | _ => none
  | .fill t =>
    match s.place t with
    | .filling prio d item =>
      some (Sys.goto { s with
        data := Function.update s.data item d
        que := { s.que with next := Function.update s.que.next item none } } t (.linking prio d item))
    | _ => none
  | .link t =>
    match s.place t with
    | .linking prio d item => linkItem s t prio d item
    | _ => none
  | .pop t timeout =>
    match s.place t with
    | .idle => some (s.goto t (.popping timeout))
    | _ => none
  | .take t =>
    match s.place t with
    | .popping timeout => takeItem s t timeout
    | .woken timeout false => takeItem s t timeout
    | _ => none
  | .expire t =>
    match s.place t with
    | .suspended timeout =>
      if 0 < timeout then
        some (Sys.goto { s with suspendedPopList := s.suspendedPopList.erase t } t (.woken timeout true))
      else none
    | _ => none
  | .leave t =>
    match s.place t with
    | .woken _ true => some (s.goto t .idle)
    | _ => none
  | .copy t =>
    match s.place t with
    | .copying item promised => some (s.goto t (.freeing item (s.data item) promised))
    | _ => none
  | .free t =>
    match s.place t with
    | .freeing item got promised =>
      some (Sys.goto { s with
        live := Function.update s.live item false
        delivered := (got, promised) :: s.delivered } t .idle)
    | _ => none

theorem step_cases {s s' : Sys T B D} {a : Act T B D} (h : step s a = some s') :
    (∃ t prio d forever, s.place t = .idle ∧ (s' = s ∨ prio < prioMax ∧ s' = s.goto t (.allocating prio d forever))) ∨
    (∃ t prio d forever block, s.place t = .allocating prio d forever ∧ s.live block = false ∧
      s' = Sys.goto { s with live := Function.update s.live block true } t (.filling prio d block)) ∨
    (∃ t prio d, s.place t = .allocating prio d false ∧ s' = s.goto t .idle) ∨
    (∃ t prio d item, s.place t = .filling prio d item ∧ s' = Sys.goto { s with
      data := Function.update s.data item d
      que := { s.que with next := Function.update s.que.next item none } } t (.linking prio d item)) ∨
    (∃ t prio d item, s.place t = .linking prio d item ∧ linkItem s t prio d item = some s') ∨
    (∃ t timeout, s.place t = .idle ∧ s' = s.goto t (.popping timeout)) ∨
    (∃ t timeout, (s.place t = .popping timeout ∨ s.place t = .woken timeout false) ∧
      takeItem s t timeout = some s') ∨
    (∃ t timeout, s.place t = .suspended timeout ∧ s' = Sys.goto { s with
      suspendedPopList := s.suspendedPopList.erase t } t (.woken timeout true)) ∨
    (∃ t timeout, s.place t = .woken timeout true ∧ s' = s.goto t .idle) ∨
    (∃ t item promised, s.place t = .copying item promised ∧
      s' = s.goto t (.freeing item (s.data item) promised)) ∨
    (∃ t item got promised, s.place t = .freeing item got promised ∧ s' = Sys.goto { s with
      live := Function.update s.live item false
      delivered := (got, promised) :: s.delivered } t .idle) := by
  cases a with
  | push t prio d forever =>
    simp only [step] at h
    split at h
    · rename_i hp
      refine Or.inl ⟨t, prio, d, forever, hp, ?_⟩
      split at h
      · rename_i hprio
        exact Or.inr ⟨hprio, (Option.some.inj h).symm⟩
      · exact Or.inl (Option.some.inj h).symm
    · cases h
  | alloc t block =>
    simp only [step] at h
    split at h
    · rename_i prio d forever hp
      obtain ⟨hlive, he⟩ := Option.ite_none_right_eq_some.mp h
      exact Or.inr (Or.inl ⟨t, prio, d, forever, block, hp, hlive, (Option.some.inj he).symm⟩)
    · cases h
  | allocFail t =>
    simp only [step] at h
    split at h
    · rename_i prio d hp
      exact Or.inr (Or.inr (Or.inl ⟨t, prio, d, hp, (Option.some.inj h).symm⟩))
    · cases h
  | fill t =>
    simp only [step] at h
    split at h
    · rename_i prio d item hp
      exact Or.inr (Or.inr (Or.inr (Or.inl ⟨t, prio, d, item, hp, (Option.some.inj h).symm⟩)))
    · cases h
  | link t =>
    simp only [step] at h
    split at h
    · rename_i prio d item hp
      exact Or.inr (Or.inr (Or.inr (Or.inr (Or.inl ⟨t, prio, d, item, hp, h⟩))))
    · cases h
  | pop t timeout =>
    simp only [step] at h
    split at h
    · rename_i hp
      exact Or.inr (Or.inr (Or.inr (Or.inr (Or.inr (Or.inl ⟨t, timeout, hp, (Option.some.inj h).symm⟩)))))
    · cases h
  | take t =>
    simp only [step] at h
    split at h
    · rename_i timeout hp
      exact Or.inr (Or.inr (Or.inr (Or.inr (Or.inr (Or.inr (Or.inl ⟨t, timeout, Or.inl hp, h⟩))))))
    · rename_i timeout hp
      exact Or.inr (Or.inr (Or.inr (Or.inr (Or.inr (Or.inr (Or.inl ⟨t, timeout, Or.inr hp, h⟩))))))
    · cases h
  | expire t =>
    simp only [step] at h
    split at h
    · rename_i timeout hp
      obtain ⟨-, he⟩ := Option.ite_none_right_eq_some.mp h
      exact Or.inr (Or.inr (Or.inr (Or.inr (Or.inr (Or.inr (Or.inr (Or.inl
        ⟨t, timeout, hp, (Option.some.inj he).symm⟩)))))))
    · cases h
  | leave t =>
    simp only [step] at h
    split at h
    · rename_i timeout hp
      exact Or.inr (Or.inr (Or.inr (Or.inr (Or.inr (Or.inr (Or.inr (Or.inr (Or.inl
        ⟨t, timeout, hp, (Option.some.inj h).symm⟩))))))))
    · cases h
  | copy t =>
    simp only [step] at h
    split at h
    · rename_i item promised hp
      exact Or.inr (Or.inr (Or.inr (Or.inr (Or.inr (Or.inr (Or.inr (Or.inr (Or.inr (Or.inl
        ⟨t, item, promised, hp, (Option.some.inj h).symm⟩)))))))))
    · cases h
  | free t =>
    simp only [step] at h
    split at h
    · rename_i item got promised hp
      exact Or.inr (Or.inr (Or.inr (Or.inr (Or.inr (Or.inr (Or.inr (Or.inr (Or.inr (Or.inr
        ⟨t, item, got, promised, hp, (Option.some.inj h).symm⟩)))))))))
    · cases h

/-! ### The items -/

/-- What a thread in its place relies on: the block that it links holds its value and no link, and the
value that it copies is the one promised to it. -/
def Good (s : Sys T B D) : Place B D → Prop
  | .allocating prio _ _ => prio < prioMax
  | .filling prio _ _ => prio < prioMax
  | .linking prio d item => prio < prioMax ∧ s.que.next item = none ∧ s.data item = d
  | .copying item promised => promised = some (s.data item)
  | .freeing _ got promised => promised = some got
  | _ => True

/-- Every block in use is an item of one list or in the hands of one thread, and the items hold the
values of the queue. -/
structure Owned (s : Sys T B D) (l : ℕ → List B) : Prop where
  lists : Lists s.que l
  queue_eq : ∀ p, (l p).map s.data = s.queue p
  live_list : ∀ p b, b ∈ l p → s.live b = true
  live_held : ∀ t b, (s.place t).item = some b → s.live b = true ∧ ∀ p, b ∉ l p
  held_inj : ∀ t u b, (s.place t).item = some b → (s.place u).item = some b → t = u
  good : ∀ t, Good s (s.place t)
  delivered : ∀ x ∈ s.delivered, x.2 = some x.1

variable {s s' : Sys T B D} {l : ℕ → List B} {t : T} {place : Place B D} {item : B}

omit [DecidableEq B] in
theorem item_update {u : T} {b : B} (hu : (Function.update s.place t place u).item = some b) :
    u = t ∧ place.item = some b ∨ u ≠ t ∧ (s.place u).item = some b := by
  rcases eq_or_ne u t with rfl | hne
  · rw [Function.update_self] at hu
    exact Or.inl ⟨rfl, hu⟩
  · rw [Function.update_of_ne hne] at hu
    exact Or.inr ⟨hne, hu⟩

omit [DecidableEq B] in
theorem good_update (hgood : Good s' place) (hother : ∀ u, u ≠ t → Good s' (s.place u)) (u : T) :
    Good s' (Function.update s.place t place u) :=
  (Function.forall_update_iff s.place fun _ place => Good s' place).mpr ⟨hgood, hother⟩ u

omit [DecidableEq B] in
theorem Owned.held_inj_update (h : Owned s l) (hitem : place.item = some item)
    (hfresh : ∀ u, (s.place u).item ≠ some item) (u v : T) (b : B)
    (hu : (Function.update s.place t place u).item = some b) (hv : (Function.update s.place t place v).item = some b) :
    u = v := by
  rcases item_update hu with ⟨rfl, hb⟩ | ⟨-, hold⟩ <;> rcases item_update hv with ⟨rfl, hb'⟩ | ⟨-, hold'⟩
  · rfl
  · exact absurd (hold'.trans (hb.symm.trans hitem)) (hfresh v)
  · exact absurd (hold.trans (hb'.symm.trans hitem)) (hfresh u)
  · exact h.held_inj u v b hold hold'

omit [DecidableEq B] in
theorem Owned.goto (h : Owned s l) (hitem : ∀ b, place.item = some b → (s.place t).item = some b)
    (hgood : Good s place) : Owned (s.goto t place) l := by
  have hold : ∀ u b, (Function.update s.place t place u).item = some b → (s.place u).item = some b := by
    intro u b hu
    rcases item_update hu with ⟨rfl, hb⟩ | ⟨-, hb⟩
    · exact hitem b hb
    · exact hb
  exact ⟨h.lists, h.queue_eq, h.live_list, fun u b hu => h.live_held u b (hold u b hu),
    fun u v b hu hv => h.held_inj u v b (hold u b hu) (hold v b hv), good_update hgood fun u _ => h.good u, h.delivered⟩

omit [DecidableEq T] [DecidableEq B] in
theorem Good.congr (h : Good s place) (hnext : ∀ b, place.item = some b → s'.que.next b = s.que.next b)
    (hdata : ∀ b, place.item = some b → s'.data b = s.data b) : Good s' place := by
  cases place with
  | linking prio d item =>
    obtain ⟨hprio, hn, hd⟩ := h
    exact ⟨hprio, (hnext item rfl).trans hn, (hdata item rfl).trans hd⟩
  | copying item promised => exact h.trans (congrArg some (hdata item rfl).symm)
  | _ => exact h

theorem Owned.alloc (h : Owned s l) {prio : ℕ} {d : D} {forever : Bool} {block : B}
    (hp : s.place t = .allocating prio d forever) (hlive : s.live block = false) :
    Owned (Sys.goto { s with live := Function.update s.live block true } t (.filling prio d block)) l := by
  have hprio : prio < prioMax := by
    have hgood := h.good t
    rw [hp] at hgood
    exact hgood
  have hlive' : ∀ b, s.live b = true → Function.update s.live block true b = true := by
    intro b hb
    rcases eq_or_ne b block with rfl | hne
    · exact Function.update_self ..
    · rwa [Function.update_of_ne hne]
  have hfresh : ∀ u, (s.place u).item ≠ some block := fun u hu => by
    rw [(h.live_held u block hu).1] at hlive
    cases hlive
  refine ⟨h.lists, h.queue_eq, fun p b hb => hlive' b (h.live_list p b hb), fun u b hu => ?_,
    h.held_inj_update rfl hfresh, good_update hprio fun u _ => (h.good u).congr (fun b _ => rfl) fun b _ => rfl,
    h.delivered⟩
  rcases item_update hu with ⟨-, hb⟩ | ⟨-, hold⟩
  · obtain rfl := Option.some.inj hb
    refine ⟨Function.update_self .., fun p hb => ?_⟩
    rw [h.live_list p block hb] at hlive
    cases hlive
  · exact ⟨hlive' b (h.live_held u b hold).1, (h.live_held u b hold).2⟩

theorem Owned.fill (h : Owned s l) {prio : ℕ} {d : D} (hp : s.place t = .filling prio d item) :
    Owned (Sys.goto { s with
      data := Function.update s.data item d
      que := { s.que with next := Function.update s.que.next item none } } t (.linking prio d item)) l := by
  have hheld : (s.place t).item = some item := by
    rw [hp]
    rfl
  obtain ⟨hlive, hnot⟩ := h.live_held t item hheld
  have hprio : prio < prioMax := by
    have hgood := h.good t
    rw [hp] at hgood
    exact hgood
  have hdata : ∀ p, (l p).map (Function.update s.data item d) = (l p).map s.data := by
    intro p
    refine List.map_congr_left fun b hb => Function.update_of_ne ?_ _ _
    rintro rfl
    exact hnot p hb
  have hlists : Lists { s.que with next := Function.update s.que.next item none } l :=
    ⟨h.lists.bit_iff, fun p => (h.lists.linked p).update (hnot p) none, h.lists.tail_eq, h.lists.nodup,
      h.lists.disjoint⟩
  have hfilled : ∀ u, u ≠ t → Good { s with
      data := Function.update s.data item d
      que := { s.que with next := Function.update s.que.next item none } } (s.place u) := by
    intro u hne
    have hother : ∀ b, (s.place u).item = some b → b ≠ item := by
      rintro b hb rfl
      exact hne (h.held_inj u t b hb hheld)
    exact (h.good u).congr (fun b hb => Function.update_of_ne (hother b hb) _ _) fun b hb =>
      Function.update_of_ne (hother b hb) _ _
  have hitem : ∀ u b, (Function.update s.place t (.linking prio d item) u).item = some b →
      (s.place u).item = some b := by
    intro u b hu
    rcases item_update hu with ⟨rfl, hb⟩ | ⟨-, hb⟩
    · exact hheld.trans hb
    · exact hb
  exact ⟨hlists, fun p => (hdata p).trans (h.queue_eq p), h.live_list, fun u b hu => h.live_held u b (hitem u b hu),
    fun u v b hu hv => h.held_inj u v b (hitem u b hu) (hitem v b hv),
    good_update ⟨hprio, Function.update_self .., Function.update_self ..⟩ hfilled, h.delivered⟩

omit [DecidableEq B] in
theorem Owned.resume (h : Owned s l) : Owned (resumePopper s) l := by
  unfold resumePopper
  split
  · exact h
  · rename_i w rest _
    split
    · have hlist : Owned { s with suspendedPopList := rest } l :=
        ⟨h.lists, h.queue_eq, h.live_list, h.live_held, h.held_inj, h.good, h.delivered⟩
      exact hlist.goto (fun b hb => (by cases hb)) trivial
    · exact h

theorem Owned.link (h : Owned s l) {prio : ℕ} {d : D} (hp : s.place t = .linking prio d item)
    (hlink : linkItem s t prio d item = some s') :
    Owned s' (Function.update l prio (l prio ++ [item])) := by
  have hheld : (s.place t).item = some item := by
    rw [hp]
    rfl
  obtain ⟨hlive, hnot⟩ := h.live_held t item hheld
  obtain ⟨hprio, hnext, hdata⟩ : prio < prioMax ∧ s.que.next item = none ∧ s.data item = d := by
    have hgood := h.good t
    rw [hp] at hgood
    exact hgood
  obtain ⟨que, hpush, hlists, hframe⟩ := doPush_spec h.lists hprio hnot hnext
  rw [linkItem, hpush, Option.map_some, Option.some.injEq] at hlink
  rw [← hlink]
  refine Owned.resume ?_
  have hmem : ∀ p b, b ∈ Function.update l prio (l prio ++ [item]) p → b ∈ l p ∨ b = item := by
    intro p b hb
    rcases eq_or_ne p prio with rfl | hne
    · rw [Function.update_self, List.mem_append, List.mem_singleton] at hb
      exact hb
    · rw [Function.update_of_ne hne] at hb
      exact Or.inl hb
  have hitem : ∀ u b, (Function.update s.place t .idle u).item = some b → u ≠ t ∧ (s.place u).item = some b := by
    intro u b hu
    rcases item_update hu with ⟨-, hb⟩ | hold
    · cases hb
    · exact hold
  refine ⟨hlists, fun p => ?_, fun p b hb => ?_, fun u b hu => ?_, fun u v b hu hv => ?_, good_update trivial fun u _ =>
    (h.good u).congr (fun b hb => hframe b (h.live_held u b hb).2) fun b _ => rfl, h.delivered⟩
  · rcases eq_or_ne p prio with rfl | hne
    · simp only [Sys.goto, Fifos.push, Function.update_self]
      rw [List.map_append, List.map_singleton, h.queue_eq, hdata]
    · simp only [Sys.goto, Fifos.push, Function.update_of_ne hne]
      exact h.queue_eq p
  · rcases hmem p b hb with hb | rfl
    · exact h.live_list p b hb
    · exact hlive
  · obtain ⟨hne, hu⟩ := hitem u b hu
    obtain ⟨hlive', hnot'⟩ := h.live_held u b hu
    refine ⟨hlive', fun p hb => ?_⟩
    rcases hmem p b hb with hb | rfl
    · exact hnot' p hb
    · exact hne (h.held_inj u t b hu hheld)
  · exact h.held_inj u v b (hitem u b hu).2 (hitem v b hv).2

omit [DecidableEq B] in
/-- A pass finds no item, and no value is queued; or it takes the first item of the smallest priority
number, which holds the value that the queue gives. -/
theorem takeItem_cases (h : Owned s l) {timeout : ℤ} (htake : takeItem s t timeout = some s') :
    ((∀ p, s.queue p = []) ∧ s' = if timeout = 0 then s.goto t .idle else
      Sys.goto { s with suspendedPopList := s.suspendedPopList ++ [t] } t (.suspended timeout)) ∨
    ∃ p item rest que, l p = item :: rest ∧ Lists que (Function.update l p rest) ∧ que.next = s.que.next ∧
      s' = Sys.goto { s with que := que, queue := Function.update s.queue p (rest.map s.data) } t
        (.copying item (some (s.data item))) := by
  rcases doPop_spec h.lists with ⟨hempty, hpop⟩ | ⟨p, item, rest, que, hl, hsmaller, hpop, hlists, hnext⟩
  · have hnone : ∀ p, s.queue p = [] := fun p => by rw [← h.queue_eq, hempty p, List.map_nil]
    rw [takeItem, hpop, Option.map_some, Option.some.injEq, Fifos.pop_of_empty hnone] at htake
    exact Or.inl ⟨hnone, htake.symm⟩
  · have hne : l p ≠ [] := by
      rw [hl]
      exact List.cons_ne_nil item rest
    have hqueue : Fifos.pop s.queue = (Function.update s.queue p (rest.map s.data), some (s.data item)) :=
      Fifos.pop_of_first (h.lists.lt_prioMax hne) (by rw [← h.queue_eq, hl, List.map_cons]) fun r hr => by
        rw [← h.queue_eq, hsmaller r hr, List.map_nil]
    rw [takeItem, hpop, Option.map_some, Option.some.injEq, hqueue] at htake
    exact Or.inr ⟨p, item, rest, que, hl, hlists, hnext, htake.symm⟩

omit [DecidableEq B] in
theorem Owned.take (h : Owned s l) {timeout : ℤ} (htake : takeItem s t timeout = some s') : ∃ l', Owned s' l' := by
  rcases takeItem_cases h htake with ⟨-, rfl⟩ | ⟨p, item, rest, que, hl, hlists, hnext, rfl⟩
  · refine ⟨l, ?_⟩
    split
    · exact h.goto (fun b hb => (by cases hb)) trivial
    · have hlist : Owned { s with suspendedPopList := s.suspendedPopList ++ [t] } l :=
        ⟨h.lists, h.queue_eq, h.live_list, h.live_held, h.held_inj, h.good, h.delivered⟩
      exact hlist.goto (fun b hb => (by cases hb)) trivial
  · have hfirst : item ∈ l p := by
      rw [hl]
      exact List.mem_cons_self
    have hmem : ∀ r b, b ∈ Function.update l p rest r → b ∈ l r := by
      intro r b hb
      rcases eq_or_ne r p with rfl | hner
      · rw [Function.update_self] at hb
        rw [hl]
        exact List.mem_cons_of_mem item hb
      · rwa [Function.update_of_ne hner] at hb
    have hgone : ∀ r, item ∉ Function.update l p rest r := by
      intro r hb
      have hr := h.lists.disjoint r p item (hmem r item hb) hfirst
      have hnodup := h.lists.nodup p
      rw [hl] at hnodup
      rw [hr, Function.update_self] at hb
      exact (List.nodup_cons.mp hnodup).1 hb
    have hfresh : ∀ u, (s.place u).item ≠ some item := fun u hu => (h.live_held u item hu).2 p hfirst
    refine ⟨Function.update l p rest, hlists, fun r => ?_, fun r b hb => h.live_list r b (hmem r b hb), fun u b hu => ?_,
      h.held_inj_update rfl hfresh,
      good_update rfl fun u _ => (h.good u).congr (fun b _ => congrFun hnext b) fun b _ => rfl, h.delivered⟩
    · simp only [Sys.goto]
      rcases eq_or_ne r p with rfl | hner
      · rw [Function.update_self, Function.update_self]
      · rw [Function.update_of_ne hner, Function.update_of_ne hner]
        exact h.queue_eq r
    · rcases item_update hu with ⟨-, hb⟩ | ⟨-, hold⟩
      · obtain rfl := Option.some.inj hb
        exact ⟨h.live_list p item hfirst, hgone⟩
      · obtain ⟨hlive, hnot⟩ := h.live_held u b hold
        exact ⟨hlive, fun r hb => hnot r (hmem r b hb)⟩

theorem Owned.free (h : Owned s l) {got : D} {promised : Option D} (hp : s.place t = .freeing item got promised) :
    Owned (Sys.goto { s with
      live := Function.update s.live item false
      delivered := (got, promised) :: s.delivered } t .idle) l := by
  have hheld : (s.place t).item = some item := by
    rw [hp]
    rfl
  have hnot := (h.live_held t item hheld).2
  have hlive : ∀ b, b ≠ item → s.live b = true → Function.update s.live item false b = true :=
    fun b hne hb => (Function.update_of_ne hne ..).trans hb
  have hitem : ∀ u b, (Function.update s.place t .idle u).item = some b → b ≠ item ∧ (s.place u).item = some b := by
    intro u b hu
    rcases item_update hu with ⟨-, hb⟩ | ⟨hne, hold⟩
    · cases hb
    · refine ⟨?_, hold⟩
      rintro rfl
      exact hne (h.held_inj u t b hold hheld)
  refine ⟨h.lists, h.queue_eq, fun p b hb => hlive b (fun he => hnot p (he ▸ hb)) (h.live_list p b hb), fun u b hu => ?_,
    fun u v b hu hv => h.held_inj u v b (hitem u b hu).2 (hitem v b hv).2,
    good_update trivial fun u _ => (h.good u).congr (fun b _ => rfl) fun b _ => rfl, fun x hx => ?_⟩
  · obtain ⟨hne, hold⟩ := hitem u b hu
    obtain ⟨hlive', hnot'⟩ := h.live_held u b hold
    exact ⟨hlive b hne hlive', hnot'⟩
  · rcases List.mem_cons.mp hx with rfl | hx
    · have hgood := h.good t
      rw [hp] at hgood
      exact hgood
    · exact h.delivered x hx

theorem Owned.step {a : Act T B D} (h : Owned s l) (hstep : step s a = some s') : ∃ l', Owned s' l' := by
  obtain ⟨t, prio, d, forever, hp, rfl | ⟨hprio, rfl⟩⟩ | ⟨t, prio, d, forever, block, hp, hlive, rfl⟩ |
    ⟨t, prio, d, hp, rfl⟩ | ⟨t, prio, d, item, hp, rfl⟩ | ⟨t, prio, d, item, hp, hlink⟩ | ⟨t, timeout, hp, rfl⟩ |
    ⟨t, timeout, hp, htake⟩ | ⟨t, timeout, hp, rfl⟩ | ⟨t, timeout, hp, rfl⟩ | ⟨t, item, promised, hp, rfl⟩ |
    ⟨t, item, got, promised, hp, rfl⟩ := step_cases hstep
  · exact ⟨l, h⟩
  · exact ⟨l, h.goto (fun b hb => (by cases hb)) hprio⟩
  · exact ⟨l, h.alloc hp hlive⟩
  · exact ⟨l, h.goto (fun b hb => (by cases hb)) trivial⟩
  · exact ⟨l, h.fill hp⟩
  · exact ⟨_, h.link hp hlink⟩
  · exact ⟨l, h.goto (fun b hb => (by cases hb)) trivial⟩
  · exact h.take htake
  · have hlist : Owned { s with suspendedPopList := s.suspendedPopList.erase t } l :=
      ⟨h.lists, h.queue_eq, h.live_list, h.live_held, h.held_inj, h.good, h.delivered⟩
    exact ⟨l, hlist.goto (fun b hb => (by cases hb)) trivial⟩
  · exact ⟨l, h.goto (fun b hb => (by cases hb)) trivial⟩
  · refine ⟨l, h.goto (fun b hb => ?_) ?_⟩
    · rw [hp]
      exact hb
    · have hgood := h.good t
      rw [hp] at hgood
      exact hgood
  · exact ⟨l, h.free hp⟩

/-! ### The waiting threads -/

def total (q : ℕ → List D) : ℕ := ∑ p ∈ Finset.range prioMax, (q p).length

theorem total_push (q : ℕ → List D) {prio : ℕ} (hprio : prio < prioMax) (d : D) :
    total (Fifos.push q prio d) = total q + 1 := by
  have hmem : prio ∈ Finset.range prioMax := Finset.mem_range.mpr hprio
  have hrest : ∀ p ∈ (Finset.range prioMax).erase prio, (Fifos.push q prio d p).length = (q p).length := by
    intro p hp
    rw [Fifos.push, Function.update_of_ne (Finset.ne_of_mem_erase hp)]
  rw [total, total, ← Finset.add_sum_erase _ _ hmem, ← Finset.add_sum_erase _ _ hmem, Finset.sum_congr rfl hrest,
    Fifos.push, Function.update_self, List.length_append, List.length_singleton]
  omega

theorem total_tail (q : ℕ → List D) {prio : ℕ} (hprio : prio < prioMax) {d : D} {rest : List D} (hq : q prio = d :: rest) :
    total (Function.update q prio rest) + 1 = total q := by
  have hback : q = Function.update (Function.update q prio rest) prio (d :: rest) := by
    rw [Function.update_idem, ← hq, Function.update_eq_self]
  have hmem : prio ∈ Finset.range prioMax := Finset.mem_range.mpr hprio
  have hrest : ∀ p ∈ (Finset.range prioMax).erase prio, (Function.update q prio rest p).length = (q p).length := by
    intro p hp
    rw [Function.update_of_ne (Finset.ne_of_mem_erase hp)]
  rw [total, total, ← Finset.add_sum_erase _ _ hmem, ← Finset.add_sum_erase _ _ hmem, Finset.sum_congr rfl hrest,
    Function.update_self, hq, List.length_cons]
  omega

theorem total_eq_zero {q : ℕ → List D} (h : ∀ p, q p = []) : total q = 0 :=
  Finset.sum_eq_zero fun p _ => by rw [h p, List.length_nil]

/-- The list holds the suspended threads. -/
structure Listed (s : Sys T B D) : Prop where
  mem_iff : ∀ t, t ∈ s.suspendedPopList ↔ ∃ timeout, s.place t = .suspended timeout
  nodup : s.suspendedPopList.Nodup

omit [DecidableEq B] in
theorem Listed.goto (h : Listed s) (hlist : s'.suspendedPopList = s.suspendedPopList)
    (hplace : s'.place = Function.update s.place t place) (hold : ∀ timeout, s.place t ≠ .suspended timeout)
    (hnew : ∀ timeout, place ≠ .suspended timeout) : Listed s' := by
  refine ⟨fun u => ?_, by rw [hlist]; exact h.nodup⟩
  rw [hlist, hplace, h.mem_iff]
  rcases eq_or_ne u t with rfl | hne
  · rw [Function.update_self]
    exact iff_of_false (fun ⟨timeout, hs⟩ => hold timeout hs) fun ⟨timeout, hs⟩ => hnew timeout hs
  · rw [Function.update_of_ne hne]

omit [DecidableEq B] in
theorem Listed.suspend (h : Listed s) (hold : ∀ timeout, s.place t ≠ .suspended timeout) (timeout : ℤ) :
    Listed (Sys.goto { s with suspendedPopList := s.suspendedPopList ++ [t] } t (.suspended timeout)) := by
  have hnot : t ∉ s.suspendedPopList := fun ht => by
    obtain ⟨timeout, hp⟩ := (h.mem_iff t).mp ht
    exact hold timeout hp
  refine ⟨fun u => ?_, List.nodup_append.mpr ⟨h.nodup, List.nodup_singleton t, fun a ha b hb hab =>
    hnot (List.mem_singleton.mp hb ▸ hab ▸ ha)⟩⟩
  simp only [Sys.goto]
  rw [List.mem_append, List.mem_singleton, h.mem_iff]
  rcases eq_or_ne u t with rfl | hne
  · rw [Function.update_self]
    exact iff_of_true (Or.inr rfl) ⟨timeout, rfl⟩
  · rw [Function.update_of_ne hne]
    simp [hne]

omit [DecidableEq B] in
theorem Listed.wake (h : Listed s) {timeout : ℤ} {error : Bool} :
    Listed (Sys.goto { s with suspendedPopList := s.suspendedPopList.erase t } t (.woken timeout error)) := by
  refine ⟨fun u => ?_, h.nodup.erase t⟩
  simp only [Sys.goto]
  rw [h.nodup.mem_erase_iff, h.mem_iff]
  rcases eq_or_ne u t with rfl | hne
  · rw [Function.update_self]
    exact iff_of_false (fun hu => hu.1 rfl) fun ⟨timeout, hs⟩ => (by cases hs)
  · rw [Function.update_of_ne hne]
    simp [hne]

omit [DecidableEq B] in
theorem resumePopper_cons (h : Listed s) {w : T} {rest : List T} (hlist : s.suspendedPopList = w :: rest) :
    ∃ timeout, s.place w = .suspended timeout ∧ resumePopper s =
      Sys.goto { s with suspendedPopList := s.suspendedPopList.erase w } w (.woken timeout false) := by
  obtain ⟨timeout, hp⟩ := (h.mem_iff w).mp (by rw [hlist]; exact List.mem_cons_self)
  refine ⟨timeout, hp, ?_⟩
  simp only [resumePopper, hlist, hp, List.erase_cons_head]

omit [DecidableEq B] in
theorem resumePopper_nil (hlist : s.suspendedPopList = []) : resumePopper s = s := by
  simp only [resumePopper, hlist]

variable [Fintype T]

/-- While the list holds threads, there is a woken one for each queued value. -/
def Served (s : Sys T B D) : Prop :=
  s.suspendedPopList ≠ [] → total s.queue ≤ count Place.rechecks s.place

omit [DecidableEq B] in
theorem Served.goto (h : Served s) (hlist : s'.suspendedPopList = s.suspendedPopList) (hqueue : s'.queue = s.queue)
    (hplace : s'.place = Function.update s.place t place) (hrechecks : place.rechecks = (s.place t).rechecks) :
    Served s' := by
  intro hne
  rw [hlist] at hne
  have hserved := h hne
  have hcount := count_update Place.rechecks s.place t place
  rw [hrechecks] at hcount
  rw [hqueue, hplace]
  omega

theorem link_waits (h : Listed s) (hserved : Served s) {prio : ℕ} {d : D} (hp : s.place t = .linking prio d item)
    (hprio : prio < prioMax) (hlink : linkItem s t prio d item = some s') : Listed s' ∧ Served s' := by
  obtain ⟨que, -, rfl⟩ := Option.map_eq_some_iff.mp hlink
  have hlinked : Listed (Sys.goto { s with que := que, queue := Fifos.push s.queue prio d } t .idle) :=
    h.goto rfl rfl (fun timeout he => by rw [hp] at he; cases he) fun timeout he => (by cases he)
  by_cases hlist : s.suspendedPopList = []
  · have hnobody : resumePopper (Sys.goto { s with que := que, queue := Fifos.push s.queue prio d } t .idle) = _ :=
      resumePopper_nil hlist
    rw [hnobody]
    exact ⟨hlinked, fun hne => absurd hlist hne⟩
  · have hbefore := hserved hlist
    obtain ⟨w, rest, hlist⟩ := List.exists_cons_of_ne_nil hlist
    obtain ⟨timeout, hw, hresume⟩ := resumePopper_cons hlinked hlist
    rw [hresume]
    refine ⟨hlinked.wake, fun _ => ?_⟩
    have hpushed := total_push s.queue hprio d
    have hidle := count_update Place.rechecks s.place t .idle
    have hwoken := count_update Place.rechecks (Function.update s.place t .idle) w (.woken timeout false)
    simp only [Sys.goto] at hw
    rw [hw] at hwoken
    rw [hp] at hidle
    simp only [Place.rechecks, Bool.false_eq_true, if_true, if_false] at hidle hwoken
    simp only [Sys.goto]
    omega

omit [DecidableEq B] in
theorem take_waits (howned : Owned s l) (h : Listed s) (hserved : Served s) {timeout : ℤ}
    (hp : s.place t = .popping timeout ∨ s.place t = .woken timeout false)
    (htake : takeItem s t timeout = some s') : Listed s' ∧ Served s' := by
  have hold : ∀ timeout, s.place t ≠ .suspended timeout := fun timeout he => by
    rw [he] at hp
    rcases hp with hp | hp <;> cases hp
  rcases takeItem_cases howned htake with ⟨hempty, rfl⟩ | ⟨p, item, rest, que, hl, -, -, rfl⟩
  · have hzero := total_eq_zero hempty
    split
    · exact ⟨h.goto rfl rfl hold fun timeout he => (by cases he), fun _ => by simp only [Sys.goto, hzero]; omega⟩
    · exact ⟨h.suspend hold timeout, fun _ => by simp only [Sys.goto, hzero]; omega⟩
  · refine ⟨h.goto rfl rfl hold fun timeout he => (by cases he), fun hne => ?_⟩
    have hbefore := hserved hne
    have hprio : p < prioMax := howned.lists.lt_prioMax (by rw [hl]; exact List.cons_ne_nil item rest)
    have htail := total_tail s.queue hprio (show s.queue p = s.data item :: rest.map s.data by
      rw [← howned.queue_eq, hl, List.map_cons])
    have hcount := count_update Place.rechecks s.place t (.copying item (some (s.data item)))
    have hnone : (Place.copying item (some (s.data item))).rechecks = false := rfl
    rw [hnone] at hcount
    simp only [Sys.goto]
    split at hcount <;> split at hcount <;> omega

theorem step_waits {a : Act T B D} (howned : Owned s l) (h : Listed s) (hserved : Served s)
    (hstep : step s a = some s') : Listed s' ∧ Served s' := by
  obtain ⟨t, prio, d, forever, hp, rfl | ⟨hprio, rfl⟩⟩ | ⟨t, prio, d, forever, block, hp, hlive, rfl⟩ |
    ⟨t, prio, d, hp, rfl⟩ | ⟨t, prio, d, item, hp, rfl⟩ | ⟨t, prio, d, item, hp, hlink⟩ | ⟨t, timeout, hp, rfl⟩ |
    ⟨t, timeout, hp, htake⟩ | ⟨t, timeout, hp, rfl⟩ | ⟨t, timeout, hp, rfl⟩ | ⟨t, item, promised, hp, rfl⟩ |
    ⟨t, item, got, promised, hp, rfl⟩ := step_cases hstep
  case inr.inr.inr.inr.inl =>
    have hgood := howned.good t
    rw [hp] at hgood
    exact link_waits h hserved hp hgood.1 hlink
  case inr.inr.inr.inr.inr.inr.inl => exact take_waits howned h hserved hp htake
  case inr.inr.inr.inr.inr.inr.inr.inl =>
    refine ⟨h.wake, fun hne => ?_⟩
    have hbefore := hserved fun he => hne (by simp only [Sys.goto, he, List.erase_nil])
    have hcount := count_update Place.rechecks s.place t (.woken timeout true)
    rw [hp] at hcount
    simp only [Place.rechecks, Bool.false_eq_true, if_false] at hcount
    simp only [Sys.goto]
    omega
  case inl.inl => exact ⟨h, hserved⟩
  all_goals
    refine ⟨h.goto rfl rfl (fun timeout he => ?_) fun timeout he => (by cases he), hserved.goto rfl rfl rfl ?_⟩
    · rw [hp] at he
      cases he
    · rw [hp]
      rfl

/-! ### Runs -/

omit [DecidableEq T] [DecidableEq B] [Fintype T] in
theorem start_owned (next : B → Option B) (data : B → D) :
    Owned (start next data : Sys T B D) fun _ => [] := by
  refine ⟨⟨fun p => ?_, fun p => rfl, fun p hp => absurd rfl hp, fun p => List.nodup_nil, fun p r b hb => ?_⟩,
    fun p => rfl, fun p b hb => absurd hb List.not_mem_nil, fun t b hb => (by cases hb), fun t u b hb => (by cases hb),
    fun t => trivial, fun x hx => absurd hx List.not_mem_nil⟩
  · simp [start, rtPrioQueueInit]
  · exact absurd hb List.not_mem_nil

/-- In every state of a run: a bit is set for each list that has a head, every tail is the last item, and
the items hold, list by list, the values that a queue with priorities holds after the same pushes and
pops; no assertion fails; each pop has delivered the value that this queue gave; and a thread is
suspended only when nothing is queued or a woken one has yet to look. -/
theorem prioQueue_refines_fifos {next : B → Option B} {data : B → D} {as : List (Act T B D)} {s : Sys T B D}
    (hrun : exec step (start next data) as = some s) :
    (∀ p < prioMax, s.que.bitmap.getLsbD p = true ↔ s.que.head p ≠ none) ∧
      (∃ l : ℕ → List B, (∀ p, Linked s.que.next (s.que.head p) (l p)) ∧ (∀ p, (l p).Nodup) ∧
        (∀ p r b, b ∈ l p → b ∈ l r → p = r) ∧ (∀ p, l p ≠ [] → s.que.tail p = (l p).getLast?) ∧
        ∀ p, (l p).map s.data = s.queue p) ∧
      (∀ t prio d item, s.place t = .linking prio d item → doPush s.que prio item ≠ none) ∧ doPop s.que ≠ none ∧
      (∀ x ∈ s.delivered, x.2 = some x.1) ∧
      (s.suspendedPopList ≠ [] → (∀ p, s.queue p = []) ∨ ∃ t timeout, s.place t = .woken timeout false) := by
  have h : (∃ l, Owned s l) ∧ Listed s ∧ Served s := by
    refine exec_inv (fun s : Sys T B D => (∃ l, Owned s l) ∧ Listed s ∧ Served s) ?_
      ⟨⟨_, start_owned next data⟩, ⟨fun t => ?_, List.nodup_nil⟩, fun hne => absurd rfl hne⟩ hrun
    · rintro s a s' ⟨⟨l, howned⟩, hlisted, hserved⟩ hstep
      exact ⟨howned.step hstep, step_waits howned hlisted hserved hstep⟩
    · exact iff_of_false List.not_mem_nil fun ⟨timeout, hp⟩ => (by cases hp)
  obtain ⟨⟨l, howned⟩, -, hserved⟩ := h
  have hlists := howned.lists
  refine ⟨fun p _ => ?_, ⟨l, hlists.linked, hlists.nodup, hlists.disjoint, hlists.tail_eq, howned.queue_eq⟩,
    fun t prio d item hp => ?_, ?_, howned.delivered, fun hne => ?_⟩
  · rw [hlists.bit_iff, Ne, Ne, hlists.head_eq_none_iff]
  · have hgood := howned.good t
    rw [hp] at hgood
    obtain ⟨que, hpush, -⟩ := doPush_spec hlists hgood.1 (howned.live_held t item (by rw [hp]; rfl)).2 hgood.2.1
    rw [hpush]
    exact Option.some_ne_none que
  · rcases doPop_spec hlists with ⟨-, hpop⟩ | ⟨p, item, rest, que, -, -, hpop, -⟩ <;> rw [hpop] <;>
      exact Option.some_ne_none _
  · have hcount := hserved hne
    by_cases hwoken : count Place.rechecks s.place = 0
    · left
      intro p
      by_cases hp : l p = []
      · rw [← howned.queue_eq, hp, List.map_nil]
      · have hzero : total s.queue = 0 := by omega
        have hlength := Finset.sum_eq_zero_iff.mp hzero p (Finset.mem_range.mpr (hlists.lt_prioMax hp))
        exact List.eq_nil_of_length_eq_zero hlength
    · right
      rw [count_eq_zero_iff, not_forall] at hwoken
      obtain ⟨t, ht⟩ := hwoken
      cases hplace : s.place t with
      | woken timeout error =>
        cases error with
        | false => exact ⟨t, timeout, hplace⟩
        | true =>
          rw [hplace] at ht
          exact absurd rfl ht
      | _ =>
        rw [hplace] at ht
        exact absurd rfl ht

/-- A popper waits; an urgent value is pushed behind another one, and the woken popper gets it. -/
def urgentFirst : List (Act Bool ℕ ℕ) :=
  [.pop false (-1), .take false, .push true 5 10 true, .alloc true 0, .fill true, .link true, .push true 2 20 true,
    .alloc true 1, .fill true, .link true, .take false, .copy false, .free false]

theorem prioQueue_refines_fifos_urgentFirst :
    ∃ s, exec step (start (fun _ => none) fun _ => 0) urgentFirst = some s ∧ s.delivered = [(20, some 20)] ∧
      ∀ x ∈ s.delivered, x.2 = some x.1 :=
  ⟨_, rfl, rfl, (@prioQueue_refines_fifos Bool ℕ ℕ _ _ _ (fun _ => none) (fun _ => 0) urgentFirst _ rfl).2.2.2.2.1⟩

end RtThread.Vbus.PrioQueue
