import RtThread.Ipc.Signal

/-!
# The queues of pending signals

What the steps of `Signal.lean` do to the lists of nodes that `si_list` starts, as long as each of them is one.
-/

namespace RtThread.Ipc.Signal

open RtThread.Lib.Chain RtThread.Lib.Flags RtThread.Lib.Places RtThread.Lib.Transition

variable {T : Type} {n : ℕ} {s s' : State T} {t : T}

def Ptr.first : Ptr → Option ℕ
  | .node i => some i
  | _ => none

/-- The nodes from `si_list` on, by their `list`. -/
def queue (n : ℕ) (s : State T) (t : T) : List ℕ := follow s.next n (s.thread t).siList.first

def signos (n : ℕ) (s : State T) (t : T) : List ℕ := (queue n s t).map fun i => (s.si i).siSigno

/-- The null pointer for no nodes, and the first of them otherwise. -/
def firstNode : List ℕ → Ptr
  | [] => .null
  | i :: _ => .node i

structure Queued (s : State T) (t : T) (l : List ℕ) : Prop where
  first : (s.thread t).siList = firstNode l
  linked : Linked s.next l.head? l

/-- Where a node can be. While its handler runs, the call of `rt_thread_handle_sig` has it. -/
inductive Place (T : Type)
  | pool
  | queue (t : T)
  | handler (t : T)

def places (s : State T) (q : T → List ℕ) : Place T → List ℕ
  | .pool => s.pool
  | .queue t => q t
  | .handler t => (s.thread t).handling.map Prod.fst

/-- Each `si_list` is a list of nodes that ends, and each node of the pool of `n` is in one place. -/
structure Sound (n : ℕ) (s : State T) : Prop where
  found : s.lost = false
  queued : ∀ t, Queued s t (queue n s t)
  located : Located (places s (queue n s)) n

theorem firstNode_first (l : List ℕ) : (firstNode l).first = l.head? := by
  cases l with
  | nil => rfl
  | cons i l => rfl

theorem Queued.queue_eq {l : List ℕ} (h : Queued s t l) (hlen : l.length ≤ n) : queue n s t = l := by
  rw [queue, h.first, firstNode_first]
  exact h.linked.follow_eq hlen

theorem sound_of_queued {q : T → List ℕ} (found : s.lost = false) (queued : ∀ t, Queued s t (q t))
    (located : Located (places s q) n) : Sound n s ∧ queue n s = q := by
  have hq : queue n s = q := by
    funext t
    exact (queued t).queue_eq (located.length_le (.queue t))
  constructor
  · rw [← hq] at queued located
    exact ⟨found, queued, located⟩
  · exact hq

theorem Sound.not_mem (h : Sound n s) {i : ℕ} {p r : Place T} (hp : i ∈ places s (queue n s) p) (hpr : p ≠ r) :
    i ∉ places s (queue n s) r :=
  fun hr => hpr (h.located.eq_of_mem hp hr)

theorem Sound.frame (h : Sound n s) (found : s'.lost = false) (hnext : s'.next = s.next) (hpool : s'.pool = s.pool)
    (hlist : ∀ u, (s'.thread u).siList = (s.thread u).siList)
    (hhandling : ∀ u, (s'.thread u).handling = (s.thread u).handling) : Sound n s' ∧ queue n s' = queue n s := by
  refine sound_of_queued found (fun u => ⟨?_, ?_⟩) ?_
  · rw [hlist]
    exact (h.queued u).first
  · rw [hnext]
    exact (h.queued u).linked
  · have hplaces : places s' (queue n s) = places s (queue n s) := by
      funext p
      cases p with
      | pool => exact hpool
      | queue u => rfl
      | handler u => exact congrArg (List.map Prod.fst) (hhandling u)
    rw [hplaces]
    exact h.located

theorem Sound.alloc (h : Sound n s) {i : ℕ} {pool : List ℕ} (hpool : s.pool = i :: pool) (u : T) :
    i ∉ queue n s u := by
  have hi : i ∈ places s (queue n s) .pool := by
    rw [places, hpool]
    exact List.mem_cons_self
  exact h.not_mem (r := .queue u) hi nofun

theorem waitSearch_found {set : BitVec 32} {i : ℕ} {us vs : List ℕ} {fuel : ℕ} {prev start : Option ℕ}
    (hlinked : Linked s.next start (us ++ i :: vs)) (hus : ∀ j ∈ us, wanted s set j = false)
    (hi : wanted s set i = true) (hfuel : us.length < fuel) :
    waitSearch s set fuel prev (slistEntry start) = some (some (us.getLast?.or prev, i)) := by
  induction us generalizing fuel prev start with
  | nil =>
    obtain ⟨fuel, rfl⟩ := Nat.exists_eq_succ_of_ne_zero (Nat.ne_zero_of_lt hfuel)
    rw [show start = some i from hlinked.1, slistEntry, waitSearch, if_pos hi]
    rfl
  | cons j us ih =>
    obtain ⟨fuel, rfl⟩ := Nat.exists_eq_succ_of_ne_zero (Nat.ne_zero_of_lt hfuel)
    have hj := Bool.eq_false_iff.mp (hus j List.mem_cons_self)
    rw [show start = some j from hlinked.1, slistEntry, waitSearch, if_neg hj,
      ih hlinked.2 (fun k hk => hus k (List.mem_cons_of_mem j hk)) (Nat.lt_of_succ_lt_succ hfuel), List.getLast?_cons]
    cases us.getLast? with
    | none => rfl
    | some k => rfl

theorem waitSearch_lost {set : BitVec 32} {l : List ℕ} {fuel : ℕ} {prev start : Option ℕ}
    (hlinked : Linked s.next start l) (hl : ∀ j ∈ l, wanted s set j = false) :
    waitSearch s set fuel prev (slistEntry start) = none := by
  induction l generalizing fuel prev start with
  | nil =>
    rw [show start = none from hlinked]
    cases fuel with
    | zero => rfl
    | succ fuel => rfl
  | cons j l ih =>
    rw [show start = some j from hlinked.1]
    cases fuel with
    | zero => rfl
    | succ fuel =>
      have hj := Bool.eq_false_iff.mp (hl j List.mem_cons_self)
      rw [slistEntry, waitSearch, if_neg hj]
      exact ih hlinked.2 fun k hk => hl k (List.mem_cons_of_mem j hk)

theorem Queued.slistEntry_head {l : List ℕ} (h : Queued s t l) (hne : l ≠ []) :
    (s.thread t).siList = slistEntry l.head? := by
  rw [h.first]
  cases l with
  | nil => exact absurd rfl hne
  | cons i l => rfl

variable [DecidableEq T]

@[simp] theorem State.set_self (s : State T) (t : T) (th : ThreadSig) : (s.set t th).thread t = th :=
  Function.update_self ..

theorem State.set_of_ne (s : State T) {t u : T} (h : u ≠ t) (th : ThreadSig) :
    (s.set t th).thread u = s.thread u :=
  Function.update_of_ne h ..

theorem State.setList_thread (s : State T) (t : T) (l : Ptr) (u : T) :
    (s.setList t l).thread u = { s.thread u with siList := if u = t then l else (s.thread u).siList } := by
  by_cases hu : u = t
  · rw [hu, State.setList, State.set_self, if_pos rfl]
  · rw [State.setList, State.set_of_ne s hu, if_neg hu]

theorem Sound.frame_set (h : Sound n s) {th : ThreadSig} (hlist : th.siList = (s.thread t).siList)
    (hhandling : th.handling = (s.thread t).handling) : Sound n (s.set t th) ∧ queue n (s.set t th) = queue n s := by
  have hfield : ∀ {A : Type} (f : ThreadSig → A), f th = f (s.thread t) →
      ∀ u, f ((s.set t th).thread u) = f (s.thread u) := by
    intro A f hf u
    by_cases hu : u = t
    · rw [hu, State.set_self, hf]
    · rw [State.set_of_ne s hu]
  exact h.frame h.found rfl rfl (hfield _ hlist) (hfield _ hhandling)

/-! ### Appending -/

theorem slistLast_eq {next : ℕ → Option ℕ} {l : List ℕ} {z fuel : ℕ} (hlast : l.getLast? = some z) :
    ∀ {i : ℕ}, Linked next (some i) l → l.length ≤ fuel → slistLast next fuel i = some z := by
  induction l generalizing fuel with
  | nil => cases hlast
  | cons j l ih =>
    intro i h hfuel
    cases fuel with
    | zero => exact absurd hfuel (Nat.not_succ_le_zero _)
    | succ fuel =>
      obtain rfl : i = j := Option.some.inj h.1
      rw [slistLast]
      cases l with
      | nil =>
        rw [show next i = none from h.2]
        simpa using hlast
      | cons k l =>
        rw [h.2.1]
        exact ih (by simpa using hlast) (h.2.1 ▸ h.2) (Nat.le_of_succ_le_succ hfuel)

theorem Sound.append (h : Sound n s) {i : ℕ} {pool : List ℕ} (hpool : s.pool = i :: pool) (found : s'.lost = false)
    (hpool' : s'.pool = pool) (hhandling : ∀ u, (s'.thread u).handling = (s.thread u).handling)
    (hqueued : Queued s' t (queue n s t ++ [i])) (hother : ∀ u, u ≠ t → Queued s' u (queue n s u)) :
    Sound n s' ∧ queue n s' = Function.update (queue n s) t (queue n s t ++ [i]) := by
  refine sound_of_queued found (fun u => ?_) ?_
  · by_cases hu : u = t
    · rw [hu, Function.update_self]
      exact hqueued
    · rw [Function.update_of_ne hu]
      exact hother u hu
  · refine h.located.move (i := i) (p := .pool) (r := .queue t) nofun ?_ ?_ ?_
    · rw [places, places, hpool, hpool']
    · rw [places, places, Function.update_self]
      exact List.perm_append_singleton i _
    · intro p hp hr
      cases p with
      | pool => exact absurd rfl hp
      | queue u =>
        have hu : u ≠ t := fun hu => hr (congrArg Place.queue hu)
        exact Function.update_of_ne hu _ _
      | handler u => exact congrArg (List.map Prod.fst) (hhandling u)

theorem killAppend_nil (h : Sound n s) {sig i : ℕ} {pool : List ℕ} (hpool : s.pool = i :: pool)
    (hq : queue n s t = []) : killAppend n s t sig = (s.alloc i pool sig).setList t (.node i) := by
  have hfirst := (h.queued t).first
  rw [hq] at hfirst
  rw [killAppend, hpool]
  simp only [hfirst, firstNode]

def State.link (s : State T) (z i : ℕ) : State T := { s with next := Function.update s.next z (some i) }

theorem killAppend_snoc (h : Sound n s) {sig i z : ℕ} {pool : List ℕ} (hpool : s.pool = i :: pool)
    (hz : (queue n s t).getLast? = some z) : killAppend n s t sig = (s.alloc i pool sig).link z i := by
  have hi := h.alloc hpool t
  have hlinked : Linked (s.alloc i pool sig).next (queue n s t).head? (queue n s t) :=
    (h.queued t).linked.update hi none
  have hlen := Nat.le_succ_of_le (h.located.length_le (.queue t))
  have hfirst := (h.queued t).first
  have hiz : i ≠ z := by
    rintro rfl
    exact hi (List.mem_of_getLast? hz)
  have hnone : (s.alloc i pool sig).next i = none := Function.update_self ..
  have hnext : Function.update (Function.update (s.alloc i pool sig).next z (some i)) i none =
      Function.update (s.alloc i pool sig).next z (some i) := by
    rw [Function.update_eq_self_iff, Function.update_of_ne hiz, hnone]
  rw [places] at hlen
  cases hq : queue n s t with
  | nil =>
    rw [hq] at hz
    cases hz
  | cons l ls =>
    rw [hq] at hlinked hlen hfirst hz
    rw [killAppend, hpool]
    simp only [hfirst, firstNode]
    rw [rtSlistAppend, slistLast_eq hz hlinked hlen]
    simp only [hnext, State.link]

theorem killAppend_spec (h : Sound n s) (t : T) (sig : ℕ) {i : ℕ} {pool : List ℕ} (hpool : s.pool = i :: pool) :
    Sound n (killAppend n s t sig) ∧
      queue n (killAppend n s t sig) = Function.update (queue n s) t (queue n s t ++ [i]) ∧
      (killAppend n s t sig).si = Function.update s.si i (killInfo sig) ∧
      ∀ u, ∃ l, (killAppend n s t sig).thread u = { s.thread u with siList := l } := by
  have hi := h.alloc hpool
  have hlinked : ∀ u, Linked (s.alloc i pool sig).next (queue n s u).head? (queue n s u) :=
    fun u => (h.queued u).linked.update (hi u) none
  have hnone : (s.alloc i pool sig).next i = none := Function.update_self ..
  cases hz : (queue n s t).getLast? with
  | none =>
    have hq : queue n s t = [] := List.getLast?_eq_none_iff.mp hz
    have hth := (s.alloc i pool sig).setList_thread t (.node i)
    rw [killAppend_nil h hpool hq]
    have hqueued : Queued ((s.alloc i pool sig).setList t (.node i)) t (queue n s t ++ [i]) := by
      rw [hq]
      refine ⟨?_, rfl, hnone⟩
      rw [hth, if_pos rfl]
      rfl
    have hother : ∀ u, u ≠ t → Queued ((s.alloc i pool sig).setList t (.node i)) u (queue n s u) := by
      intro u hu
      refine ⟨?_, hlinked u⟩
      rw [hth, if_neg hu]
      exact (h.queued u).first
    have hlost : ((s.alloc i pool sig).setList t (.node i)).lost = false := h.found
    obtain ⟨hsound, hqueue⟩ := h.append hpool hlost rfl (fun u => by rw [hth]; rfl) hqueued hother
    exact ⟨hsound, hqueue, rfl, fun u => ⟨_, hth u⟩⟩
  | some z =>
    have hmem : z ∈ queue n s t := List.mem_of_getLast? hz
    rw [killAppend_snoc h hpool hz]
    have hqueued : Queued ((s.alloc i pool sig).link z i) t (queue n s t ++ [i]) := by
      have hsnoc := (hlinked t).snoc hnone (h.located.nodup (.queue t)) hz (hi t)
      have hfirst := (h.queued t).first
      cases hq : queue n s t with
      | nil =>
        rw [hq] at hmem
        exact absurd hmem List.not_mem_nil
      | cons l ls =>
        rw [hq] at hsnoc hfirst
        exact ⟨hfirst, hsnoc⟩
    have hother : ∀ u, u ≠ t → Queued ((s.alloc i pool sig).link z i) u (queue n s u) := by
      intro u hu
      refine ⟨(h.queued u).first, (hlinked u).update ?_ _⟩
      exact h.not_mem (p := .queue t) (r := .queue u) hmem fun heq => hu (Place.queue.inj heq).symm
    have hlost : ((s.alloc i pool sig).link z i).lost = false := h.found
    obtain ⟨hsound, hqueue⟩ := h.append hpool hlost rfl (fun _ => rfl) hqueued hother
    exact ⟨hsound, hqueue, rfl, fun u => ⟨(s.thread u).siList, rfl⟩⟩

/-! ### Handling -/

/-- The thread `t` has taken the node `i` for its handler, and `l` stays. -/
def State.take (s : State T) (t : T) (i : ℕ) (l : List ℕ) : State T :=
  s.set t { s.thread t with siList := firstNode l, handling := (i, (s.si i).siSigno) :: (s.thread t).handling }

theorem rtThreadHandleSig_nil (h : Sound n s) (hq : queue n s t = []) : rtThreadHandleSig s t = none := by
  have hfirst := (h.queued t).first
  rw [hq] at hfirst
  rw [rtThreadHandleSig]
  simp only [hfirst, firstNode, ite_self]

theorem rtThreadHandleSig_cons (h : Sound n s) {i : ℕ} {l : List ℕ} (hq : queue n s t = i :: l) :
    rtThreadHandleSig s t =
      if has (s.thread t).sigPending (s.thread t).sigMask && (s.thread t).waitSet.isNone then
        if (s.thread t).sigVectors.isNone then some { s.take t i l with lost := true } else some (s.take t i l)
      else none := by
  have hqueued := h.queued t
  rw [hq] at hqueued
  have hhead := Linked.next_eq_head hqueued.linked
  have hsiList : (if (s.next i).isNone then Ptr.null else slistEntry (s.next i)) = firstNode l := by
    rw [hhead]
    cases l with
    | nil => rfl
    | cons j l => rfl
  rw [rtThreadHandleSig]
  simp only [hqueued.first, firstNode, hsiList]
  rfl

theorem rtThreadHandleSig_eq_some (h : Sound n s) (hstep : rtThreadHandleSig s t = some s') :
    ∃ i l, queue n s t = i :: l ∧
      ((s.thread t).sigVectors = none ∧ s'.lost = true ∨ (s.thread t).sigVectors ≠ none ∧ s' = s.take t i l) := by
  cases hq : queue n s t with
  | nil =>
    rw [rtThreadHandleSig_nil h hq] at hstep
    cases hstep
  | cons i l =>
    refine ⟨i, l, rfl, ?_⟩
    rw [rtThreadHandleSig_cons h hq] at hstep
    cases hvectors : (s.thread t).sigVectors with
    | none =>
      rw [hvectors, Option.isNone_none, if_pos rfl, Option.ite_none_right_eq_some] at hstep
      obtain rfl := Option.some.inj hstep.2
      exact Or.inl ⟨rfl, rfl⟩
    | some v =>
      rw [hvectors, Option.isNone_some, if_neg Bool.false_ne_true, Option.ite_none_right_eq_some] at hstep
      exact Or.inr ⟨nofun, (Option.some.inj hstep.2).symm⟩

theorem Sound.take (h : Sound n s) {i : ℕ} {l : List ℕ} (hq : queue n s t = i :: l) :
    Sound n (s.take t i l) ∧ queue n (s.take t i l) = Function.update (queue n s) t l := by
  have hqueued := h.queued t
  rw [hq] at hqueued
  refine sound_of_queued h.found (fun u => ?_) ?_
  · by_cases hu : u = t
    · rw [hu, Function.update_self]
      refine ⟨by rw [State.take, State.set_self], ?_⟩
      rw [← Linked.next_eq_head hqueued.linked]
      exact hqueued.linked.2
    · rw [Function.update_of_ne hu]
      refine ⟨?_, (h.queued u).linked⟩
      rw [State.take, State.set_of_ne s hu]
      exact (h.queued u).first
  · refine h.located.move (i := i) (p := .queue t) (r := .handler t) nofun ?_ ?_ ?_
    · rw [places, places, Function.update_self, hq]
    · rw [places, places, State.take, State.set_self, List.map_cons]
    · intro p hp hr
      cases p with
      | pool => rfl
      | queue u =>
        have hu : u ≠ t := fun hu => hp (congrArg Place.queue hu)
        exact Function.update_of_ne hu _ _
      | handler u =>
        have hu : u ≠ t := fun hu => hr (congrArg Place.handler hu)
        rw [places, places, State.take, State.set_of_ne s hu]

/-- The handler of `signo` has come back, and its node `i` is free. -/
def State.release (s : State T) (t : T) (i signo : ℕ) (handling : List (ℕ × ℕ)) : State T :=
  { s.set t { s.thread t with sigPending := (s.thread t).sigPending &&& ~~~sigMask signo, handling := handling } with
    pool := i :: s.pool }

theorem State.release_self (s : State T) (t : T) (i signo : ℕ) (handling : List (ℕ × ℕ)) :
    (s.release t i signo handling).thread t =
      { s.thread t with sigPending := (s.thread t).sigPending &&& ~~~sigMask signo, handling := handling } :=
  Function.update_self ..

theorem State.release_of_ne (s : State T) {t u : T} (h : u ≠ t) (i signo : ℕ) (handling : List (ℕ × ℕ)) :
    (s.release t i signo handling).thread u = s.thread u :=
  Function.update_of_ne h ..

theorem handled_eq_some (hstep : handled s t = some s') :
    ∃ i signo handling, (s.thread t).handling = (i, signo) :: handling ∧ s' = s.release t i signo handling := by
  rw [handled] at hstep
  split at hstep
  next i signo handling hh hw =>
    exact ⟨i, signo, handling, hh, (Option.some.inj hstep).symm⟩
  next => cases hstep

theorem Sound.release (h : Sound n s) {i signo : ℕ} {handling : List (ℕ × ℕ)}
    (hh : (s.thread t).handling = (i, signo) :: handling) :
    Sound n (s.release t i signo handling) ∧ queue n (s.release t i signo handling) = queue n s := by
  have hlist : ∀ u, ((s.release t i signo handling).thread u).siList = (s.thread u).siList := by
    intro u
    by_cases hu : u = t
    · rw [hu, State.release_self]
    · rw [State.release_of_ne s hu]
  refine sound_of_queued h.found (fun u => ⟨(hlist u).trans (h.queued u).first, (h.queued u).linked⟩) ?_
  refine h.located.move (i := i) (p := .handler t) (r := .pool) nofun ?_ (List.Perm.refl _) ?_
  · rw [places, places, State.release_self, hh, List.map_cons]
  · intro p hp hr
    cases p with
    | pool => exact absurd rfl hr
    | queue u => rfl
    | handler u =>
      have hu : u ≠ t := fun hu => hp (congrArg Place.handler hu)
      rw [places, places, State.release_of_ne s hu]

/-! ### Waiting -/

theorem waitDone_nil (h : Sound n s) (set : BitVec 32) (hq : queue n s t = []) : waitDone n s t set = s := by
  have hfirst := (h.queued t).first
  rw [hq] at hfirst
  have hsearch : waitSearch s set (n + 1) none (s.thread t).siList = some none := by
    rw [hfirst]
    rfl
  rw [waitDone]
  simp only [hsearch]

theorem waitDone_lost (h : Sound n s) {set : BitVec 32} (hne : queue n s t ≠ [])
    (hno : ∀ i ∈ queue n s t, wanted s set i = false) : (waitDone n s t set).lost = true := by
  have hsearch : waitSearch s set (n + 1) none (s.thread t).siList = none := by
    rw [(h.queued t).slistEntry_head hne]
    exact waitSearch_lost (h.queued t).linked hno
  rw [waitDone]
  simp only [hsearch]

/-- What a call of `rt_signal_wait` that gets the node `i` leaves of `t`. -/
def State.waited (s : State T) (t : T) (i : ℕ) (siList : Ptr) : ThreadSig :=
  { s.thread t with
    siList := siList
    info := s.si i
    sigPending := (s.thread t).sigPending &&& ~~~sigMask (s.si i).siSigno }

theorem waitDone_head (h : Sound n s) {set : BitVec 32} {i : ℕ} {vs : List ℕ} (hq : queue n s t = i :: vs)
    (hi : wanted s set i = true) :
    waitDone n s t set = { s.set t (s.waited t i (listMember vs.head?)) with pool := i :: s.pool } := by
  have hqueued := h.queued t
  have hne : queue n s t ≠ [] := by
    rw [hq]
    exact List.cons_ne_nil i vs
  have hsearch : waitSearch s set (n + 1) none (s.thread t).siList = some (some (none, i)) := by
    rw [hqueued.slistEntry_head hne, hq]
    rw [hq] at hqueued
    have hlinked : Linked s.next (some i) ([] ++ i :: vs) := hqueued.linked
    exact waitSearch_found hlinked (fun _ hj => absurd hj List.not_mem_nil) hi (Nat.succ_pos n)
  rw [hq] at hqueued
  rw [waitDone]
  simp only [hsearch, Linked.next_eq_head hqueued.linked]
  rfl

theorem waitDone_middle (h : Sound n s) {set : BitVec 32} {i p : ℕ} {us vs : List ℕ}
    (hq : queue n s t = us ++ p :: i :: vs) (hus : ∀ j ∈ us ++ [p], wanted s set j = false)
    (hi : wanted s set i = true) :
    waitDone n s t set = { s.set t (s.waited t i (s.thread t).siList) with
      next := Function.update s.next p (s.next i), pool := i :: s.pool } := by
  have hqueued := h.queued t
  have hlen := h.located.length_le (.queue t)
  have hq' : queue n s t = (us ++ [p]) ++ i :: vs := by
    rw [hq, List.append_assoc, List.singleton_append]
  have hne : queue n s t ≠ [] := by
    rw [hq]
    exact List.append_ne_nil_of_right_ne_nil us (List.cons_ne_nil p _)
  have hsearch : waitSearch s set (n + 1) none (s.thread t).siList = some (some (some p, i)) := by
    rw [hqueued.slistEntry_head hne, hq']
    rw [hq'] at hqueued
    rw [places, hq', List.length_append] at hlen
    rw [waitSearch_found hqueued.linked hus hi (by omega), List.getLast?_append]
    rfl
  rw [waitDone]
  simp only [hsearch]
  rfl

theorem firstNode_ne_member (l : List ℕ) (i : ℕ) : firstNode l ≠ .member i := by
  cases l with
  | nil => nofun
  | cons j l => nofun

/-- The first node has gone, and `si_list` is the address of a member of the next one. -/
theorem waitDone_not_sound (h : Sound n s) {set : BitVec 32} {i v : ℕ} {vs : List ℕ}
    (hq : queue n s t = i :: v :: vs) (hi : wanted s set i = true) : ¬ Sound n (waitDone n s t set) := by
  intro hsound
  have hfirst := (hsound.queued t).first
  have hself : (waitDone n s t set).thread t = s.waited t i (.member v) := by
    rw [waitDone_head h hq hi]
    exact State.set_self ..
  rw [hself] at hfirst
  exact firstNode_ne_member _ v hfirst.symm

/-- The state `s'` is `s` but for the first wanted node `i` of `t`, in front of which the nodes are `us`. -/
structure Waited (n : ℕ) (s s' : State T) (t : T) (us vs : List ℕ) (i : ℕ) : Prop where
  sound : Sound n s'
  queue : queue n s' = Function.update (queue n s) t (us ++ vs)
  si : s'.si = s.si
  thread : ∃ l, s'.thread t = s.waited t i l
  other : ∀ u, u ≠ t → s'.thread u = s.thread u

theorem Sound.waited (h : Sound n s) {i : ℕ} {us vs : List ℕ} (hq : queue n s t = us ++ i :: vs)
    (found : s'.lost = false) (hpool : s'.pool = i :: s.pool) (hsi : s'.si = s.si)
    (hself : s'.thread t = s.waited t i (firstNode (us ++ vs))) (hother : ∀ u, u ≠ t → s'.thread u = s.thread u)
    (hlinked : Linked s'.next (us ++ vs).head? (us ++ vs))
    (hlinks : ∀ u, u ≠ t → Linked s'.next (queue n s u).head? (queue n s u)) : Waited n s s' t us vs i := by
  have hhandling : ∀ u, (s'.thread u).handling = (s.thread u).handling := by
    intro u
    by_cases hu : u = t
    · rw [hu, hself, State.waited]
    · rw [hother u hu]
  have hperm : (queue n s t).Perm (i :: (us ++ vs)) := by
    rw [hq]
    exact List.perm_middle
  have hsound : Sound n s' ∧ queue n s' = Function.update (queue n s) t (us ++ vs) := by
    refine sound_of_queued found (fun u => ?_) ?_
    · by_cases hu : u = t
      · rw [hu, Function.update_self]
        exact ⟨by rw [hself, State.waited], hlinked⟩
      · rw [Function.update_of_ne hu]
        exact ⟨by rw [hother u hu]; exact (h.queued u).first, hlinks u hu⟩
    · refine h.located.move (i := i) (p := .queue t) (r := .pool) nofun ?_ ?_ ?_
      · rw [places, places, Function.update_self]
        exact hperm
      · rw [places, places, hpool]
      · intro p hp hr
        cases p with
        | pool => exact absurd rfl hr
        | queue u =>
          have hu : u ≠ t := fun hu => hp (congrArg Place.queue hu)
          exact Function.update_of_ne hu _ _
        | handler u => exact congrArg (List.map Prod.fst) (hhandling u)
  exact ⟨hsound.1, hsound.2, hsi, ⟨_, hself⟩, hother⟩

theorem waitDone_waited (h : Sound n s) {set : BitVec 32} {i : ℕ} {us vs : List ℕ} (hq : queue n s t = us ++ i :: vs)
    (hus : ∀ j ∈ us, wanted s set j = false) (hi : wanted s set i = true) (hnil : us = [] → vs = []) :
    Waited n s (waitDone n s t set) t us vs i := by
  have hqueued := h.queued t
  rcases List.eq_nil_or_concat us with rfl | ⟨us, p, rfl⟩
  · obtain rfl := hnil rfl
    rw [waitDone_head h hq hi]
    exact h.waited hq h.found rfl rfl (State.set_self ..) (fun u hu => State.set_of_ne s hu _) rfl
      fun u _ => (h.queued u).linked
  · rw [List.concat_eq_append] at hq hus ⊢
    have hq' : queue n s t = us ++ p :: i :: vs := by
      rw [hq, List.append_assoc, List.singleton_append]
    have hfirst : (s.thread t).siList = firstNode ((us ++ [p]) ++ vs) := by
      rw [hqueued.first, hq']
      cases us with
      | nil => rfl
      | cons u us => rfl
    have hp : p ∈ queue n s t := by
      rw [hq']
      exact List.mem_append_right us List.mem_cons_self
    have hnodup : (queue n s t).Nodup := h.located.nodup (.queue t)
    have hlinked := hqueued.linked
    rw [hq'] at hlinked hnodup
    rw [waitDone_middle h hq' hus hi]
    refine h.waited hq h.found rfl rfl ?_ (fun u hu => State.set_of_ne s hu _) ?_ fun u hu => ?_
    · rw [← hfirst]
      exact State.set_self ..
    · have hremove := hlinked.remove hnodup
      cases us with
      | nil => exact hremove
      | cons u us =>
        rw [List.append_assoc, List.singleton_append]
        exact hremove
    · refine (h.queued u).linked.update ?_ _
      exact h.not_mem (p := .queue t) (r := .queue u) hp fun heq => hu (Place.queue.inj heq).symm

end RtThread.Ipc.Signal
