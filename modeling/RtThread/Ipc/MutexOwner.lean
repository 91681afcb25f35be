import RtThread.Ipc.MutexRuns

/-!
# Who owns a mutex, and how often

The field `hold` of a mutex against the history of the run: how many takes of each
thread were granted and how many of its releases are done. The two agree until a take
by the owner finds `hold` at its largest value.
-/

namespace RtThread.Ipc.Mutex

open RtThread.Lib.Word RtThread.Lib.Transition RtThread.Ipc.Base RtThread.Ipc.Calls

variable {T M : Type*}

/-- `hold` counts the takes of the owner that are not released yet, and nobody else has
one. -/
structure Counted (mx : RtMutex T) (taken given : T → ℕ) : Prop where
  unowned : mx.owner = none → mx.hold = 0
  owned : ∀ t, mx.owner = some t → 0 < mx.hold ∧ taken t = given t + mx.hold
  others : ∀ t, mx.owner ≠ some t → taken t = given t

def CountedExactly (s : Sys T M) : Prop :=
  ∀ m, Counted (s.state.mutex m) (fun t => s.taken t m) fun t => s.given t m

theorem start_countedExactly (flag : M → IpcFlag) (thread : T → Thread) :
    CountedExactly (start flag thread) :=
  fun _ => ⟨fun _ => rfl, nofun, fun _ _ => rfl⟩

theorem Counted.owner_of_lt {mx : RtMutex T} {taken given : T → ℕ} (h : Counted mx taken given)
    {t : T} (ht : given t < taken t) : mx.owner = some t ∧ mx.hold = taken t - given t := by
  have ho : mx.owner = some t := by
    by_contra hne
    have := h.others t hne
    omega
  have := (h.owned t ho).2
  exact ⟨ho, by omega⟩

variable [DecidableEq T]

/-! ### One mutex -/

section Updates

variable {mx : RtMutex T} {taken given : T → ℕ} {t : T}

theorem Counted.again_iff (h : Counted mx taken given) (hlt : mx.hold < 2 ^ 8)
    (ho : mx.owner = some t) :
    Counted mx.again (Function.update taken t (taken t + 1)) given ↔ mx.hold + 1 < 2 ^ 8 := by
  constructor
  · intro h'
    by_contra hge
    have hzero : mx.again.hold = 0 := inc_max (by omega)
    have := (h'.owned t ho).1
    omega
  · intro hroom
    refine ⟨fun hn => ?_, fun u hu => ?_, fun u hu => ?_⟩
    · rw [RtMutex.again, ho] at hn
      cases hn
    · rw [RtMutex.again, ho, Option.some.injEq] at hu
      subst hu
      simp only [RtMutex.again, inc_of_lt hroom, Function.update_self, (h.owned t ho).2]
      omega
    · have hut : u ≠ t := fun hut => hu (ho.trans (congrArg some hut.symm))
      rw [Function.update_of_ne hut]
      exact h.others u hu

theorem Counted.acquire (h : Counted mx taken given) (hn : mx.owner = none) (p : ℕ) :
    Counted (mx.acquire t p) (Function.update taken t (taken t + 1)) given := by
  have hhold : (mx.acquire t p).hold = 1 := by
    rw [RtMutex.acquire, h.unowned hn]
    rfl
  have hnone : ∀ u, mx.owner ≠ some u := fun u hu => by
    rw [hn] at hu
    cases hu
  refine ⟨fun hown => ?_, fun u hu => ?_, fun u hu => ?_⟩
  · cases hown
  · cases hu
    rw [hhold, Function.update_self, h.others t (hnone t)]
    omega
  · have hut : u ≠ t := fun hut => hu (congrArg some hut.symm)
    rw [Function.update_of_ne hut]
    exact h.others u (hnone u)

theorem Counted.unnest (h : Counted mx taken given) (ho : mx.owner = some t)
    (hh : dec 8 mx.hold ≠ 0) :
    Counted mx.unnest taken (Function.update given t (given t + 1)) := by
  obtain ⟨hpos, hcount⟩ := h.owned t ho
  rw [dec_of_pos hpos] at hh
  refine ⟨fun hn => ?_, fun u hu => ?_, fun u hu => ?_⟩
  · rw [RtMutex.unnest, ho] at hn
    cases hn
  · rw [RtMutex.unnest, ho, Option.some.injEq] at hu
    subst hu
    simp only [RtMutex.unnest, dec_of_pos hpos, Function.update_self]
    omega
  · have hut : u ≠ t := fun hut => hu (ho.trans (congrArg some hut.symm))
    rw [Function.update_of_ne hut]
    exact h.others u hu

theorem Counted.settled (h : Counted mx taken given) (ho : mx.owner = some t)
    (hh : dec 8 mx.hold = 0) (u : T) : taken u = Function.update given t (given t + 1) u := by
  obtain ⟨hpos, hcount⟩ := h.owned t ho
  have hone := eq_one_of_dec hpos hh
  by_cases hut : u = t
  · rw [hut, Function.update_self, hcount, hone]
  · rw [Function.update_of_ne hut]
    exact h.others u fun hu => hut (Option.some.inj (hu.symm.trans ho))

theorem Counted.free (h : Counted mx taken given) (ho : mx.owner = some t)
    (hh : dec 8 mx.hold = 0) :
    Counted mx.free taken (Function.update given t (given t + 1)) :=
  ⟨fun _ => hh, nofun, fun u _ => h.settled ho hh u⟩

theorem Counted.hand (h : Counted mx taken given) (ho : mx.owner = some t)
    (hh : dec 8 mx.hold = 0) (w : T) (p : ℕ) (rest : List T) :
    Counted (mx.hand w p rest) (Function.update taken w (taken w + 1))
      (Function.update given t (given t + 1)) := by
  have hhold : (mx.hand w p rest).hold = 1 := by
    rw [RtMutex.hand, hh]
    rfl
  refine ⟨fun hown => ?_, fun u hu => ?_, fun u hu => ?_⟩
  · cases hown
  · cases hu
    rw [hhold, Function.update_self, h.settled ho hh w]
    omega
  · have huw : u ≠ w := fun huw => hu (congrArg some huw.symm)
    rw [Function.update_of_ne huw]
    exact h.settled ho hh u

end Updates

/-! ### The system -/

variable [DecidableEq M]

theorem bump_same (f : T → M → ℕ) (t : T) (m : M) :
    (fun u => bump f t m u m) = Function.update (fun u => f u m) t (f t m + 1) := by
  funext u
  by_cases hut : u = t
  · simp [bump, hut]
  · simp [bump, hut]

theorem bump_of_ne (f : T → M → ℕ) (t u : T) {m n : M} (hn : n ≠ m) : bump f t m u n = f u n := by
  simp [bump, hn]

omit [DecidableEq T] in
theorem CountedExactly.update_iff {s : Sys T M} (h : CountedExactly s) {st : State T M} {m : M}
    {x : RtMutex T} {hist : History T} {args : T → Option (M × ℤ)} {taken given : T → M → ℕ}
    (hst : st.mutex = Function.update s.state.mutex m x)
    (htaken : ∀ n ≠ m, ∀ u, taken u n = s.taken u n)
    (hgiven : ∀ n ≠ m, ∀ u, given u n = s.given u n) :
    CountedExactly (⟨st, hist, args, taken, given⟩ : Sys T M) ↔
      Counted x (fun t => taken t m) fun t => given t m := by
  constructor
  · intro h'
    have hm := h' m
    rwa [hst, Function.update_self] at hm
  · intro hx n
    by_cases hn : n = m
    · subst hn
      simpa only [hst, Function.update_self] using hx
    · simpa only [hst, Function.update_of_ne hn, htaken n hn, hgiven n hn] using h n

/-- The take of a mutex by its owner finds room in `hold`. -/
def NestingFits (s : Sys T M) : Act T M → Prop
  | .take t m _ => (s.state.mutex m).owner = some t → (s.state.mutex m).hold + 1 < 2 ^ 8
  | _ => True

theorem effect_countedExactly_iff {s s' : Sys T M} {a : Act T M} (hinv : Inv s)
    (h : CountedExactly s) (e : Effect s a s') : CountedExactly s' ↔ NestingFits s a := by
  have hfits : ∀ {t m time o}, (s.state.mutex m).owner = some o → o ≠ t →
      NestingFits s (.take t m time) :=
    fun ho hot ht => absurd (Option.some.inj (ho.symm.trans ht)) hot
  cases e with
  | @recurse t m time hpc ho =>
    rw [h.update_iff rfl (fun n hn u => bump_of_ne _ _ _ hn) fun _ _ _ => rfl, bump_same]
    rw [(h m).again_iff (hinv.mutexOk m).hold_lt ho]
    exact ⟨fun hroom _ => hroom, fun hroom => hroom ho⟩
  | @acquire t m time hpc ho hv =>
    rw [h.update_iff rfl (fun n hn u => bump_of_ne _ _ _ hn) fun _ _ _ => rfl, bump_same]
    exact iff_of_true ((h m).acquire ((hinv.mutexOk m).owner_eq_none hv) _)
      fun ht => absurd ht ho
  | @refuse t m hpc ho hv => exact iff_of_true h fun ht => absurd ht ho
  | @block t m time o hpc hot ho hv htime =>
    have hmx : (inherit (s.state.clear t) o t).mutex = s.state.mutex := inherit_mutex ..
    have hc : Counted ((s.state.mutex m).enqueue (inherit (s.state.clear t) o t).prio t)
        (fun u => s.taken u m) fun u => s.given u m := ⟨(h m).unowned, (h m).owned, (h m).others⟩
    exact iff_of_true ((h.update_iff (congrArg (Function.update · m _) hmx) (fun _ _ _ => rfl)
      fun _ _ _ => rfl).mpr hc) (hfits ho hot)
  | @finish t hpc => exact iff_of_true h trivial
  | @deny t m hpc ho => exact iff_of_true h trivial
  | @unnest t m hpc ho hh =>
    rw [h.update_iff rfl (fun _ _ _ => rfl) (fun n hn u => bump_of_ne _ _ _ hn), bump_same]
    exact iff_of_true ((h m).unnest ho hh) trivial
  | @free t m hpc ho hh hw =>
    rw [h.update_iff (by rw [State.setMutex, restore_mutex]) (fun _ _ _ => rfl)
      (fun n hn u => bump_of_ne _ _ _ hn), bump_same]
    exact iff_of_true ((h m).free ho hh) trivial
  | @hand t m w rest hpc ho hh hw =>
    rw [h.update_iff (by rw [setThread_mutex, State.setMutex, restore_mutex])
      (fun n hn u => bump_of_ne _ _ _ hn) (fun n hn u => bump_of_ne _ _ _ hn), bump_same, bump_same]
    exact iff_of_true ((h m).hand ho hh w _ rest) trivial
  | @timeout t hpc =>
    exact iff_of_true (fun n => ⟨(h n).unowned, (h n).owned, (h n).others⟩) trivial

theorem step_countedExactly_iff {s s' : Sys T M} {a : Act T M} (hinv : Inv s)
    (h : CountedExactly s) (hs : step s a = some s') : CountedExactly s' ↔ NestingFits s a :=
  effect_countedExactly_iff hinv h (step_effect hinv.quiet hs)

/-- No thread has more than 255 takes of one mutex that it has not released. -/
def Shallow (s : Sys T M) : Prop := ∀ t m, s.taken t m ≤ s.given t m + 255

theorem nestingFits_of_shallow {s s' : Sys T M} {a : Act T M} (h : CountedExactly s)
    (hshallow : Shallow s') (e : Effect s a s') : NestingFits s a := by
  cases a with
  | take t m time =>
    intro ho
    cases e with
    | recurse hpc _ =>
      have hle := hshallow t m
      have hcount := ((h m).owned t ho).2
      have hbump : bump s.taken t m t m = s.taken t m + 1 := by simp [bump]
      simp only [hbump] at hle
      omega
    | acquire hpc hne hv => exact absurd ho hne
    | refuse hpc hne hv => exact absurd ho hne
    | block hpc hot ho' hv htime => exact absurd (Option.some.inj (ho'.symm.trans ho)) hot
  | takeReturn t => trivial
  | release t m => trivial
  | timeout t => trivial

theorem run_countedExactly {s s' : Sys T M} {acts : List (Act T M)} (hinv : Inv s)
    (h : CountedExactly s) (hnest : AllStates step Shallow s acts)
    (hrun : exec step s acts = some s') : CountedExactly s' := by
  refine (exec_inv_of_allStates (fun s => Inv s ∧ CountedExactly s) Shallow ?_ ⟨hinv, h⟩ hnest
    hrun).2
  intro s a s' hI _ hshallow hs
  have e := step_effect hI.1.quiet hs
  exact ⟨effect_inv hI.1 e,
    (effect_countedExactly_iff hI.1 hI.2 e).mpr (nestingFits_of_shallow hI.2 hshallow e)⟩

/-! ### Mutual exclusion -/

/-- While `t` has takes to release, before and after a step, no take of another thread
is granted in it. -/
theorem effect_excludes {s s' : Sys T M} {a : Act T M} (hinv : Inv s) (h : CountedExactly s)
    (e : Effect s a s') {t u : T} {m : M} (ht : s.given t m < s.taken t m)
    (ht' : s'.given t m < s'.taken t m) (hut : u ≠ t) : s'.taken u m = s.taken u m := by
  have ho := ((h m).owner_of_lt ht).1
  have hbump : ∀ {v n}, (n = m → v ≠ u) → bump s.taken v n u m = s.taken u m := by
    intro v n hv
    simp only [bump, ite_eq_right_iff, and_imp]
    rintro rfl rfl
    exact absurd rfl (hv rfl)
  cases e with
  | @recurse v n time hpc hv =>
    refine hbump ?_
    rintro rfl rfl
    exact hut (Option.some.inj (hv.symm.trans ho))
  | @acquire v n time hpc hv hval =>
    refine hbump ?_
    rintro rfl rfl
    rw [(hinv.mutexOk n).owner_eq_none hval] at ho
    cases ho
  | @hand v n w rest hpc hv hh hw =>
    refine hbump ?_
    rintro rfl rfl
    -- the last take of `t` is released by this very step
    have hvt : v = t := Option.some.inj (hv.symm.trans ho)
    subst hvt
    have hsettled := (h n).settled hv hh v
    have htaken : bump s.taken w n v n = s.taken v n := by simp [bump, hut.symm]
    have hgiven : bump s.given v n v n = s.given v n + 1 := by simp [bump]
    rw [Function.update_self] at hsettled
    simp only [htaken, hgiven] at ht'
    omega
  | refuse => rfl
  | block => rfl
  | finish => rfl
  | deny => rfl
  | unnest => rfl
  | free => rfl
  | timeout => rfl

theorem run_excludes {s s' : Sys T M} {acts : List (Act T M)} (hinv : Inv s) (h : CountedExactly s)
    (hnest : AllStates step Shallow s acts) (hrun : exec step s acts = some s') {t u : T} {m : M}
    (hheld : AllStates step (fun x => x.given t m < x.taken t m) s acts) (hut : u ≠ t) :
    s'.taken u m = s.taken u m := by
  induction acts generalizing s with
  | nil =>
    cases hrun
    rfl
  | cons a acts ih =>
    obtain ⟨x, hx, hrest⟩ := exec_cons_eq_some.mp hrun
    have e := step_effect hinv.quiet hx
    have hnest' := hnest.2 x hx
    have hfits := nestingFits_of_shallow h hnest'.head e
    rw [ih (effect_inv hinv e) ((effect_countedExactly_iff hinv h e).mpr hfits) hnest' hrest
      (hheld.2 x hx)]
    exact effect_excludes hinv h e hheld.head (hheld.2 x hx).head hut

/-! ### Calls that time out -/

/-- The take call that a section belongs to. -/
def sectionOf (s : Sys T M) : Act T M → Option ℕ
  | .take _ _ _ => some s.hist.started
  | .takeReturn t | .timeout t => some (s.hist.call t)
  | .release _ _ => none

theorem effect_granted_mono {s s' : Sys T M} {a : Act T M} (e : Effect s a s') {k : ℕ}
    (hk : k ∈ s.hist.granted) : k ∈ s'.hist.granted := by
  cases e with
  | recurse => exact List.mem_cons_of_mem _ hk
  | acquire => exact List.mem_cons_of_mem _ hk
  | hand => exact List.mem_cons_of_mem _ hk
  | refuse => exact hk
  | block => exact hk
  | finish => exact hk
  | deny => exact hk
  | unnest => exact hk
  | free => exact hk
  | timeout => exact hk

theorem run_granted_mono {s s' : Sys T M} {acts : List (Act T M)} (hinv : Inv s)
    (hrun : exec step s acts = some s') {k : ℕ} (hk : k ∈ s.hist.granted) :
    k ∈ s'.hist.granted :=
  (exec_inv (fun x => Inv x ∧ k ∈ x.hist.granted)
    (fun _ _ _ h hs => ⟨step_inv h.1 hs, effect_granted_mono (step_effect h.1.quiet hs) h.2⟩)
    ⟨hinv, hk⟩ hrun).2

theorem effect_section {s s' : Sys T M} {a : Act T M} (e : Effect s a s') {k : ℕ}
    (hk : sectionOf s a = some k) (m : M) :
    k ∈ s'.hist.granted ∨ (s'.state.mutex m).owner = (s.state.mutex m).owner ∧
      (s'.state.mutex m).hold = (s.state.mutex m).hold := by
  cases e with
  | recurse =>
    cases hk
    exact Or.inl List.mem_cons_self
  | acquire =>
    cases hk
    exact Or.inl List.mem_cons_self
  | @block t n time o hpc hot ho hv htime =>
    have hmx : (inherit (s.state.clear t) o t).mutex = s.state.mutex := inherit_mutex ..
    refine Or.inr ⟨?_, ?_⟩
    · exact (setMutex_keeps RtMutex.owner _ n _ (by rw [hmx]; rfl) m).trans (by rw [hmx])
    · exact (setMutex_keeps RtMutex.hold _ n _ (by rw [hmx]; rfl) m).trans (by rw [hmx])
  | refuse => exact Or.inr ⟨rfl, rfl⟩
  | finish => exact Or.inr ⟨rfl, rfl⟩
  | timeout => exact Or.inr ⟨rfl, rfl⟩
  | deny => cases hk
  | unnest => cases hk
  | free => cases hk
  | hand => cases hk

/-- In every run without signals in which no thread nests more than 255 takes: a mutex has
no owner iff its value is one iff its count is zero; a thread with `n` granted takes and
`m < n` releases is the owner, the count is `n - m`, and no take of another thread is granted
as long as that lasts; a thread waits only for a mutex that another thread owns; and no
section of a call that returns `-RT_ETIMEOUT`, and no release, makes that call's thread the
owner or changes the count. -/
theorem mutex_ownership {flag : M → IpcFlag} {thread : T → Thread} {s : Sys T M}
    {acts : List (Act T M)} (hnest : AllStates step Shallow (start flag thread) acts)
    (hrun : exec step (start flag thread) acts = some s) (m : M) :
    ((s.state.mutex m).owner = none ↔ (s.state.mutex m).value = 1) ∧
    ((s.state.mutex m).value = 1 ↔ (s.state.mutex m).hold = 0) ∧
    (∀ t, s.given t m < s.taken t m →
      (s.state.mutex m).owner = some t ∧ (s.state.mutex m).hold = s.taken t m - s.given t m) ∧
    (∀ t as s', AllStates step Shallow s as → exec step s as = some s' →
      AllStates step (fun x => x.given t m < x.taken t m) s as →
      ∀ u, u ≠ t → s'.taken u m = s.taken u m) ∧
    (∀ t ∈ (s.state.mutex m).suspendThread, ∃ o, (s.state.mutex m).owner = some o ∧ o ≠ t) ∧
    (∀ a s₁ as s', step s a = some s₁ → exec step s₁ as = some s' →
      ∀ k, sectionOf s a = some k → (k, .etimeout) ∈ s'.hist.returned →
        k ∉ s'.hist.granted ∧ (s₁.state.mutex m).owner = (s.state.mutex m).owner ∧
        (s₁.state.mutex m).hold = (s.state.mutex m).hold) := by
  have hinv := run_inv hrun
  have hc := run_countedExactly (start_inv flag thread) (start_countedExactly flag thread) hnest hrun
  refine ⟨?_, ?_, fun t ht => (hc m).owner_of_lt ht,
    fun t as s' hn hr hheld u hut => run_excludes hinv hc hn hr hheld hut, ?_, ?_⟩
  · cases ho : (s.state.mutex m).owner with
    | none => exact iff_of_true rfl ((hinv.mutexOk m).unowned ho).1
    | some o => exact iff_of_false nofun (by rw [((hinv.mutexOk m).owned o ho).1]; decide)
  · cases ho : (s.state.mutex m).owner with
    | none => exact iff_of_true ((hinv.mutexOk m).unowned ho).1 ((hc m).unowned ho)
    | some o =>
      exact iff_of_false (by rw [((hinv.mutexOk m).owned o ho).1]; decide)
        (Nat.ne_of_gt ((hc m).owned o ho).1)
  · intro t ht
    cases ho : (s.state.mutex m).owner with
    | none =>
      rw [((hinv.mutexOk m).unowned ho).2] at ht
      exact absurd ht List.not_mem_nil
    | some o =>
      refine ⟨o, rfl, ?_⟩
      rintro rfl
      exact ((hinv.mutexOk m).owned o ho).2 ht
  · intro a s₁ as s' hs hr k hk hret
    have hinv₁ := step_inv hinv hs
    have hinv' := exec_inv Inv (fun _ _ _ => step_inv) hinv₁ hr
    have hnot := hinv'.calls.failure k _ hret (by decide)
    rcases effect_section (step_effect hinv.quiet hs) hk m with hg | hsame
    · exact absurd (run_granted_mono hinv₁ hr hg) hnot
    · exact ⟨hnot, hsame⟩

omit [DecidableEq T] [DecidableEq M] in
instance [Fintype T] [Fintype M] (s : Sys T M) : Decidable (Shallow s) :=
  inferInstanceAs (Decidable (∀ _ _, _ ≤ _))

section

local instance someThread : NeZero 3 := ⟨by decide⟩

/-- Thread 0 takes twice, threads 1 and 2 wait, the timer of thread 2 expires, and the
second release of thread 0 hands the mutex to thread 1. -/
def handOverRun : List (Act (Fin 3) Unit) :=
  [.take 0 () 0, .take 0 () 0, .take 1 () (-1), .take 2 () 5, .timeout 2, .takeReturn 2,
    .release 0 (), .release 0 (), .takeReturn 1]

end

theorem mutex_ownership_handOver :
    ∃ s, exec step (start (fun _ => .prio) fun t : Fin 3 => ⟨t, t, .eok, false⟩) handOverRun = some s ∧
      s.given 1 () < s.taken 1 () ∧ (s.state.mutex ()).owner = some 1 ∧
      (s.state.mutex ()).hold = s.taken 1 () - s.given 1 () := by
  have h := @mutex_ownership (Fin 3) Unit _ _ (fun _ => .prio) (fun t => ⟨t, t, .eok, false⟩) _
    handOverRun (by decide) rfl ()
  exact ⟨_, rfl, by decide, h.2.2.1 1 (by decide)⟩

end RtThread.Ipc.Mutex
