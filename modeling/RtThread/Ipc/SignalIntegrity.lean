import RtThread.Ipc.SignalSteps

/-!
# Which signal queues stay whole (`signal.c:195-343`, `signal.c:400-474`)

In a state that is intact every queue is a list that ends, of different signals that are all pending. The
theorem says which runs stay in such states, with every call of `rt_signal_wait` removing the first node it
asks for.
-/

namespace RtThread.Ipc.Signal

open RtThread.Lib.Chain RtThread.Lib.Flags RtThread.Lib.Places RtThread.Lib.Transition

variable {T : Type} {n : ℕ} {s s' : State T} {t : T}

structure Intact (n : ℕ) (s : State T) : Prop extends Sound n s where
  distinct : ∀ t, (signos n s t).Nodup
  pending : ∀ t, ∀ signo ∈ signos n s t, has (s.thread t).sigPending (sigMask signo) = true

/-- A call that comes to `__done` ends, and takes the first node it asks for out of its queue and no other. -/
def TakesFirst [DecidableEq T] (n : ℕ) (s : State T) (a : Act T) : Prop :=
  ∀ t set s', reachesDone s a = some (t, set) → step n s a = some s' →
    s'.lost = false ∧ queue n s' = Function.update (queue n s) t ((queue n s t).eraseP (wanted s set)) ∧
      ∀ i, (queue n s t).find? (wanted s set) = some i → (s'.thread t).info = s.si i

/-- The first node is the only one and wanted, or it is not wanted and a later one is. -/
def WaitFits (n : ℕ) (s : State T) (t : T) (set : BitVec 32) : Prop :=
  match queue n s t with
  | [] => True
  | i :: l => if wanted s set i then l = [] else ∃ j ∈ l, wanted s set j = true

/-- What keeps the queues whole. A signal that is pending is sent again only when nothing is queued; its node is
appended while the signal is pending and not queued; the vectors are there when a signal is handled; and
the signal of a handler that returns has not been queued again. -/
def Orderly (n : ℕ) (s : State T) : Act T → Prop
  | .kill t sig =>
    sigValid sig = true → has (s.thread t).sigPending (sigMask sig.toNat) = true → queue n s t = []
  | .append t sig => s.pool = [] ∨ has (s.thread t).sigPending (sigMask sig) = true ∧ sig ∉ signos n s t
  | .handle t => (s.thread t).sigVectors ≠ none
  | .handled t => ∀ i signo handling, (s.thread t).handling = (i, signo) :: handling → signo ∉ signos n s t
  | a => ∀ t set, reachesDone s a = some (t, set) → WaitFits n s t set

theorem getLsbD_sigMask (signo k : ℕ) : (sigMask signo).getLsbD k = (decide (signo < 32) && decide (signo = k)) :=
  BitVec.getLsbD_twoPow signo k

theorem has_sigMask (x : BitVec 32) (signo : ℕ) : has x (sigMask signo) = x.getLsbD signo := by
  have hand : x &&& sigMask signo = if x.getLsbD signo then sigMask signo else 0 := BitVec.and_twoPow x signo
  rw [has, hand]
  cases hbit : x.getLsbD signo with
  | false => rfl
  | true =>
    have hlt : signo < 32 := BitVec.lt_of_getLsbD hbit
    have hone : (sigMask signo).getLsbD signo = true := by
      rw [getLsbD_sigMask, decide_eq_true hlt, decide_eq_true rfl]
      rfl
    have hne : sigMask signo ≠ 0 := by
      intro hzero
      rw [hzero, show (0 : BitVec 32).getLsbD signo = false from BitVec.getLsbD_zero] at hone
      cases hone
    exact decide_eq_true hne

theorem has_clear (x : BitVec 32) (signo k : ℕ) :
    has (x &&& ~~~sigMask signo) (sigMask k) = (has x (sigMask k) && decide (k ≠ signo)) := by
  rw [has_sigMask, has_sigMask, BitVec.getLsbD_and, BitVec.getLsbD_not, getLsbD_sigMask]
  cases hbit : x.getLsbD k with
  | false => rfl
  | true =>
    have hlt : k < 32 := BitVec.lt_of_getLsbD hbit
    by_cases hk : k = signo
    · subst hk
      simp [hlt]
    · simp [hlt, hk, Ne.symm hk]

theorem Idle.queue_eq_nil {a : Act T} (h : Idle n s a) {set : BitVec 32} (hreach : reachesDone s a = some (t, set)) :
    queue n s t = [] := by
  cases a with
  | kill t sig => cases hreach
  | append t sig => cases hreach
  | handle t => cases hreach
  | handled t => cases hreach
  | _ => exact h _ _ hreach

theorem orderly_iff_waitFits {a : Act T} {set : BitVec 32} (hreach : reachesDone s a = some (t, set)) :
    Orderly n s a ↔ WaitFits n s t set := by
  have hall : (∀ u set', reachesDone s a = some (u, set') → WaitFits n s u set') ↔ WaitFits n s t set := by
    constructor
    · intro h
      exact h t set hreach
    · intro h u set' hreach'
      rw [hreach] at hreach'
      cases hreach'
      exact h
  cases a with
  | kill t sig => cases hreach
  | append t sig => cases hreach
  | handle t => cases hreach
  | handled t => cases hreach
  | _ => exact hall

theorem Idle.orderly {a : Act T} (h : Idle n s a) : Orderly n s a := by
  have hall : (∀ u set, reachesDone s a = some (u, set) → queue n s u = []) →
      ∀ u set, reachesDone s a = some (u, set) → WaitFits n s u set := by
    intro hnil u set hreach
    rw [WaitFits, hnil u set hreach]
    trivial
  cases a with
  | kill t sig => exact h
  | append t sig => exact Or.inl h
  | handle t => exact h.elim
  | handled t => exact h.elim
  | _ => exact hall h

theorem Astray.not_orderly {a : Act T} (h : Astray n s a) : ¬ Orderly n s a := by
  have hall : (∃ u set, reachesDone s a = some (u, set) ∧ queue n s u ≠ [] ∧
      ∀ i ∈ queue n s u, wanted s set i = false) → ¬ Orderly n s a := by
    rintro ⟨u, set, hreach, hne, hno⟩
    rw [orderly_iff_waitFits hreach, WaitFits]
    cases hq : queue n s u with
    | nil => exact absurd hq hne
    | cons i l =>
      rw [hq] at hno
      simp only [hno i List.mem_cons_self, Bool.false_eq_true, if_false]
      rintro ⟨j, hj, hwanted⟩
      rw [hno j (List.mem_cons_of_mem i hj)] at hwanted
      cases hwanted
  cases a with
  | kill t sig => exact fun hno => h.2.2 (hno h.1 h.2.1)
  | append t sig =>
    obtain ⟨u, set, hreach, -⟩ := h
    cases hreach
  | handle t => exact fun hno => hno h
  | handled t =>
    obtain ⟨u, set, hreach, -⟩ := h
    cases hreach
  | _ => exact hall h

theorem waitFits_of_found {set : BitVec 32} {us vs : List ℕ} {i : ℕ} (hq : queue n s t = us ++ i :: vs)
    (hus : ∀ j ∈ us, wanted s set j = false) (hi : wanted s set i = true) (hnil : us = [] → vs = []) :
    WaitFits n s t set := by
  rw [WaitFits, hq]
  cases us with
  | nil =>
    obtain rfl := hnil rfl
    simp only [List.nil_append, hi, if_true]
  | cons j us =>
    simp only [List.cons_append, hus j List.mem_cons_self, Bool.false_eq_true, if_false]
    exact ⟨i, List.mem_append_right us List.mem_cons_self, hi⟩

theorem not_waitFits_of_first {set : BitVec 32} {i v : ℕ} {vs : List ℕ} (hq : queue n s t = i :: v :: vs)
    (hi : wanted s set i = true) : ¬ WaitFits n s t set := by
  rw [WaitFits, hq]
  simp only [hi, if_true]
  exact List.cons_ne_nil v vs

/-! ### Steps -/

theorem lost_not_intact (hlost : s.lost = true) : ¬ Intact n s := by
  intro h
  rw [h.found] at hlost
  cases hlost

theorem Intact.shrink (h : Intact n s) (hsound : Sound n s')
    (hqueue : ∀ u, (queue n s' u).Sublist (queue n s u)) (hsi : s'.si = s.si)
    (hpending : ∀ u, ∀ signo ∈ signos n s' u, has (s.thread u).sigPending (sigMask signo) = true →
      has (s'.thread u).sigPending (sigMask signo) = true) : Intact n s' := by
  have hsignos : ∀ u, (signos n s' u).Sublist (signos n s u) := by
    intro u
    rw [signos, signos, hsi]
    exact (hqueue u).map _
  refine ⟨hsound, fun u => (h.distinct u).sublist (hsignos u), fun u signo hmem => ?_⟩
  exact hpending u signo hmem (h.pending u signo ((hsignos u).subset hmem))

theorem Quiet.intact (h : Intact n s) (hquiet : Quiet n s s') : Intact n s' := by
  refine h.shrink hquiet.sound (fun u => ?_) hquiet.si fun u signo _ hp => hquiet.pending u _ hp
  rw [hquiet.queue]

theorem boot_intact (n : ℕ) : Intact n (boot n : State T) := by
  have hqueue : ∀ u, queue n (boot n : State T) u = [] := by
    intro u
    cases n with
    | zero => rfl
    | succ n => rfl
  have hplaces : ∀ p i, i ∈ places (boot n : State T) (queue n (boot n)) p ↔ p = .pool ∧ i < n := by
    intro p i
    cases p with
    | pool =>
      rw [and_iff_right rfl]
      exact List.mem_range
    | queue u =>
      rw [places, hqueue]
      exact iff_of_false List.not_mem_nil fun hpool => by cases hpool.1
    | handler u => exact iff_of_false List.not_mem_nil fun hpool => by cases hpool.1
  have hlocated : Located (places (boot n : State T) (queue n (boot n))) n := by
    refine ⟨fun p => ?_, fun p i hi => ((hplaces p i).mp hi).2, fun i hi => ?_⟩
    · cases p with
      | pool => exact List.nodup_range
      | queue u =>
        rw [places, hqueue]
        exact List.nodup_nil
      | handler u => exact List.nodup_nil
    · exact ⟨.pool, (hplaces .pool i).mpr ⟨rfl, hi⟩, fun p hp => ((hplaces p i).mp hp).1⟩
  refine ⟨⟨rfl, fun u => ?_, hlocated⟩, fun u => ?_, fun u signo hmem => ?_⟩
  · rw [hqueue]
    exact ⟨rfl, rfl⟩
  · rw [signos, hqueue]
    exact List.nodup_nil
  · rw [signos, hqueue] at hmem
    exact absurd hmem List.not_mem_nil

variable [DecidableEq T]

theorem appended_intact_iff (h : Intact n s) {sig i : ℕ} {pool : List ℕ} (hpool : s.pool = i :: pool)
    (hsound : Sound n s') (hqueue : queue n s' = Function.update (queue n s) t (queue n s t ++ [i]))
    (hsi : s'.si = Function.update s.si i (killInfo sig))
    (hpending : ∀ u, (s'.thread u).sigPending = (s.thread u).sigPending) :
    Intact n s' ↔ has (s.thread t).sigPending (sigMask sig) = true ∧ sig ∉ signos n s t := by
  have hkept : ∀ u, ((queue n s u).map fun j => (s'.si j).siSigno) = signos n s u := by
    intro u
    refine List.map_congr_left fun j hj => ?_
    have hji : j ≠ i := by
      rintro rfl
      exact h.alloc hpool u hj
    rw [hsi, Function.update_of_ne hji]
  have hself : signos n s' t = signos n s t ++ [sig] := by
    rw [signos, hqueue, Function.update_self, List.map_append, hkept, hsi, List.map_singleton, Function.update_self]
    rfl
  have hother : ∀ u, u ≠ t → signos n s' u = signos n s u := by
    intro u hu
    rw [signos, hqueue, Function.update_of_ne hu, hkept]
  constructor
  · intro h'
    have hmem : sig ∈ signos n s' t := by
      rw [hself]
      exact List.mem_append_right _ List.mem_cons_self
    have hdistinct := h'.distinct t
    rw [hself] at hdistinct
    refine ⟨?_, fun hin => ?_⟩
    · rw [← hpending]
      exact h'.pending t sig hmem
    · exact (List.nodup_append.mp hdistinct).2.2 sig hin sig List.mem_cons_self rfl
  · rintro ⟨hhas, hnot⟩
    refine ⟨hsound, fun u => ?_, fun u signo hmem => ?_⟩
    · by_cases hu : u = t
      · rw [hu, hself]
        exact List.nodup_append.mpr ⟨h.distinct t, List.nodup_singleton sig, by
          rintro signo hin _ hsig rfl
          exact hnot (List.mem_singleton.mp hsig ▸ hin)⟩
      · rw [hother u hu]
        exact h.distinct u
    · rw [hpending]
      by_cases hu : u = t
      · rw [hu] at hmem ⊢
        rw [hself] at hmem
        rcases List.mem_append.mp hmem with hin | hsig
        · exact h.pending t signo hin
        · rw [List.mem_singleton.mp hsig]
          exact hhas
      · rw [hother u hu] at hmem
        exact h.pending u signo hmem

theorem released_intact_iff (h : Intact n s) {signo : ℕ} (hsound : Sound n s') (hqueue : queue n s' = queue n s)
    (hsi : s'.si = s.si) (hpending : ∀ u, (s'.thread u).sigPending =
      if u = t then (s.thread u).sigPending &&& ~~~sigMask signo else (s.thread u).sigPending) :
    Intact n s' ↔ signo ∉ signos n s t := by
  have hsignos : signos n s' = signos n s := by
    funext u
    rw [signos, signos, hqueue, hsi]
  constructor
  · intro h' hin
    have hp := h'.pending t signo (by rw [hsignos]; exact hin)
    rw [hpending, if_pos rfl, has_clear, decide_eq_false fun hne => hne rfl, Bool.and_false] at hp
    cases hp
  · intro hnot
    refine h.shrink hsound (fun u => by rw [hqueue]) hsi fun u k hmem hp => ?_
    rw [hpending]
    by_cases hu : u = t
    · have hk : k ≠ signo := by
        rintro rfl
        rw [hu, hsignos] at hmem
        exact hnot hmem
      rw [if_pos hu, has_clear, hp, decide_eq_true hk]
      rfl
    · rw [if_neg hu]
      exact hp

theorem eraseP_found {p : ℕ → Bool} {us vs : List ℕ} {i : ℕ} (hus : ∀ j ∈ us, p j = false) (hi : p i = true) :
    (us ++ i :: vs).eraseP p = us ++ vs := by
  rw [List.eraseP_append_right _ fun j hj => Bool.eq_false_iff.mp (hus j hj), List.eraseP_cons_of_pos hi]

theorem waited_intact (h : Intact n s) {us vs : List ℕ} {i : ℕ} (hq : queue n s t = us ++ i :: vs)
    (hsound : Sound n s') (hqueue : queue n s' = Function.update (queue n s) t (us ++ vs)) (hsi : s'.si = s.si)
    (hpending : ∀ u, (s'.thread u).sigPending =
      if u = t then (s.thread u).sigPending &&& ~~~sigMask (s.si i).siSigno else (s.thread u).sigPending) :
    Intact n s' := by
  have hsub : (us ++ vs).Sublist (queue n s t) := by
    rw [hq]
    exact (List.Sublist.refl us).append (List.sublist_cons_self i vs)
  refine h.shrink hsound (fun u => ?_) hsi fun u k hmem hp => ?_
  · by_cases hu : u = t
    · rw [hu, hqueue, Function.update_self]
      exact hsub
    · rw [hqueue, Function.update_of_ne hu]
  · rw [hpending]
    by_cases hu : u = t
    · have hdistinct := h.distinct t
      have hperm : (signos n s t).Perm ((s.si i).siSigno :: (us ++ vs).map fun j => (s.si j).siSigno) := by
        rw [signos, hq]
        exact List.perm_middle.map _
      have hk : k ≠ (s.si i).siSigno := by
        rintro rfl
        rw [hu, signos, hqueue, Function.update_self, hsi] at hmem
        exact (List.nodup_cons.mp (hperm.nodup_iff.mp hdistinct)).1 hmem
      rw [if_pos hu, has_clear, hp, decide_eq_true hk]
      rfl
    · rw [if_neg hu]
      exact hp

theorem takesFirst_of_found {a : Act T} {set : BitVec 32} {us vs : List ℕ} {i : ℕ} (hstep : step n s a = some s')
    (hreach : reachesDone s a = some (t, set)) (hq : queue n s t = us ++ i :: vs)
    (hus : ∀ j ∈ us, wanted s set j = false) (hi : wanted s set i = true) (hsound : Sound n s')
    (hqueue : queue n s' = Function.update (queue n s) t (us ++ vs)) (hinfo : (s'.thread t).info = s.si i) :
    TakesFirst n s a := by
  intro u set' s'' hreach' hstep'
  rw [hreach] at hreach'
  rw [hstep] at hstep'
  cases hreach'
  cases hstep'
  refine ⟨hsound.found, ?_, fun j hj => ?_⟩
  · rw [hqueue, hq, eraseP_found hus hi]
  · have hfind : (queue n s t).find? (wanted s set) = some i :=
      List.find?_eq_some_iff_append.mpr ⟨hi, us, vs, hq, fun k hk => by simpa using hus k hk⟩
    rw [hfind] at hj
    cases hj
    exact hinfo

/-- Without nodes, or without `__done`, there is nothing to take. -/
theorem takesFirst_of_idle {a : Act T} (hstep : step n s a = some s') (hidle : Idle n s a) (hquiet : Quiet n s s') :
    TakesFirst n s a := by
  intro u set s'' hreach hstep'
  rw [hstep] at hstep'
  cases hstep'
  have hnil := hidle.queue_eq_nil hreach
  refine ⟨hquiet.sound.found, ?_, fun j hj => ?_⟩
  · rw [hquiet.queue, hnil, List.eraseP_nil, ← hnil, Function.update_eq_self]
  · rw [hnil] at hj
    cases hj

theorem step_intact_iff (h : Intact n s) {a : Act T} (hstep : step n s a = some s') :
    Intact n s' ∧ TakesFirst n s a ↔ Orderly n s a := by
  have hnot : ∀ {P : Prop}, ¬ Intact n s' → (Intact n s' ∧ P ↔ False) :=
    fun hno => iff_false_intro fun hboth => hno hboth.1
  cases step_effect h.toSound hstep with
  | quiet hidle hquiet =>
    exact iff_of_true ⟨hquiet.intact h, takesFirst_of_idle hstep hidle hquiet⟩ hidle.orderly
  | astray hastray hlost => exact (hnot (lost_not_intact hlost)).trans (iff_false_intro hastray.not_orderly).symm
  | @appended t sig i pool _ hpool hsound hqueue hsi hpending =>
    have hnil : s.pool ≠ [] := by
      rw [hpool]
      exact List.cons_ne_nil i pool
    have htakes : TakesFirst n s (.append t sig) := fun _ _ _ hreach => by cases hreach
    rw [and_iff_left htakes, appended_intact_iff h hpool hsound hqueue hsi hpending, Orderly, or_iff_right hnil]
  | @taken t i l _ hq hvectors hsound hqueue hsi hpending =>
    refine iff_of_true ⟨h.shrink hsound (fun u => ?_) hsi fun u signo _ hp => ?_, fun _ _ _ hreach => by cases hreach⟩
      hvectors
    · by_cases hu : u = t
      · rw [hu, hqueue, Function.update_self, hq]
        exact List.sublist_cons_self i l
      · rw [hqueue, Function.update_of_ne hu]
    · rw [hpending]
      exact hp
  | @released t i signo handling _ hhandling hsound hqueue hsi hpending =>
    have htakes : TakesFirst n s (.handled t) := fun _ _ _ hreach => by cases hreach
    rw [and_iff_left htakes, released_intact_iff h hsound hqueue hsi hpending, Orderly]
    constructor
    · intro hnot j k hs hheq
      rw [hhandling] at hheq
      cases hheq
      exact hnot
    · intro hnot
      exact hnot i signo handling hhandling
  | @waited _ t set us vs i _ hreach hq hus hi hnil hsound hqueue hsi hinfo hpending =>
    refine iff_of_true ⟨waited_intact h hq hsound hqueue hsi hpending,
      takesFirst_of_found hstep hreach hq hus hi hsound hqueue hinfo⟩ ?_
    rw [orderly_iff_waitFits hreach]
    exact waitFits_of_found hq hus hi hnil
  | @dangling _ t set i v vs _ hreach hq hi hsound =>
    refine (hnot fun h' => hsound h'.toSound).trans (iff_false_intro ?_).symm
    rw [orderly_iff_waitFits hreach]
    exact not_waitFits_of_first hq hi

/-- A run stays in intact states, and every call of `rt_signal_wait` in it takes the first node of its set, exactly
if all its steps are orderly. -/
theorem queues_intact_iff (n : ℕ) (acts : List (Act T)) :
    AllStates (step n) (Intact n) (boot n) acts ∧ AllSteps (step n) (TakesFirst n) (boot n) acts ↔
      AllSteps (step n) (Orderly n) (boot n) acts :=
  allStates_and_allSteps_iff (Intact n) (TakesFirst n) (Orderly n) (fun _ _ _ h hstep => step_intact_iff h hstep) acts
    (boot_intact n)

/-- Two signals are queued, and the first of them is waited for: `si_list` is the address of the member `list` of
the second node. -/
theorem wait_breaks_queue : ∃ s : State Unit,
    exec (step 32) (boot 32) [.kill () 1, .append () 1, .kill () 2, .append () 2, .wait () 2 0] = some s ∧
      (s.thread ()).siList = .member 1 ∧ ¬ Intact 32 s := by
  refine ⟨_, rfl, rfl, fun h => ?_⟩
  exact firstNode_ne_member _ 1 (h.queued ()).first.symm

end RtThread.Ipc.Signal
