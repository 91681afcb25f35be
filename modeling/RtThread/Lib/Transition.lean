import Mathlib

/-!
# Runs of a partial step function

A system is a step function `step : σ → α → Option σ`: the action `a` is possible
in `s` when `step s a` is a state. A run is the list of the actions taken; `exec`
replays it. `AllStates` and `AllSteps` say what holds of every state and of every
step of a run, so that a property of whole runs is proved by one step lemma.
-/

namespace RtThread.Lib.Transition

variable {σ α : Type*}

/-- The state after the actions of a run, when all of them are possible. -/
def exec (step : σ → α → Option σ) : σ → List α → Option σ
  | s, [] => some s
  | s, a :: as => (step s a).bind fun s' => exec step s' as

@[simp] theorem exec_nil (step : σ → α → Option σ) (s : σ) : exec step s [] = some s := rfl

theorem exec_cons_eq_some {step : σ → α → Option σ} {s s' : σ} {a : α} {as : List α} :
    exec step s (a :: as) = some s' ↔ ∃ m, step s a = some m ∧ exec step m as = some s' := by
  simp only [exec, Option.bind_eq_some_iff]

theorem exec_append {step : σ → α → Option σ} (s : σ) (as bs : List α) :
    exec step s (as ++ bs) = (exec step s as).bind fun m => exec step m bs := by
  induction as generalizing s with
  | nil => rfl
  | cons a as ih =>
    simp only [List.cons_append, exec, Option.bind_assoc]
    congr 1
    funext m
    exact ih m

/-- Every state of the run that starts in `s` satisfies `P`. -/
def AllStates (step : σ → α → Option σ) (P : σ → Prop) : σ → List α → Prop
  | s, [] => P s
  | s, a :: as => P s ∧ ∀ s', step s a = some s' → AllStates step P s' as

/-- Every step taken by the run that starts in `s` satisfies `C`: the state before
it and its action. -/
def AllSteps (step : σ → α → Option σ) (C : σ → α → Prop) : σ → List α → Prop
  | _, [] => True
  | s, a :: as => ∀ s', step s a = some s' → C s a ∧ AllSteps step C s' as

instance AllStates.decidable (step : σ → α → Option σ) (P : σ → Prop) [DecidablePred P] :
    (s : σ) → (as : List α) → Decidable (AllStates step P s as)
  | s, [] => inferInstanceAs (Decidable (P s))
  | s, a :: as =>
    match hP : decide (P s), h : step s a with
    | false, _ => isFalse fun hs => of_decide_eq_false hP hs.1
    | true, none => isTrue ⟨of_decide_eq_true hP, fun s' hs => by rw [h] at hs; cases hs⟩
    | true, some m =>
      match AllStates.decidable step P m as with
      | isTrue hm => isTrue ⟨of_decide_eq_true hP, fun s' hs => by
          rw [h, Option.some.injEq] at hs; rw [← hs]; exact hm⟩
      | isFalse hm => isFalse fun hs => hm (hs.2 m h)

instance AllSteps.decidable (step : σ → α → Option σ) (C : σ → α → Prop) [∀ s a, Decidable (C s a)] :
    (s : σ) → (as : List α) → Decidable (AllSteps step C s as)
  | _, [] => isTrue trivial
  | s, a :: as =>
    match h : step s a with
    | none => isTrue fun s' hs => by rw [h] at hs; cases hs
    | some m =>
      match decEq (decide (C s a)) true, AllSteps.decidable step C m as with
      | isTrue hC, isTrue hm => isTrue fun s' hs => by
          rw [h, Option.some.injEq] at hs; rw [← hs]; exact ⟨of_decide_eq_true hC, hm⟩
      | isFalse hC, _ => isFalse fun hs => hC (decide_eq_true (hs m h).1)
      | _, isFalse hm => isFalse fun hs => hm (hs m h).2

theorem AllStates.head {step : σ → α → Option σ} {P : σ → Prop} {s : σ} {as : List α}
    (h : AllStates step P s as) : P s := by
  cases as with
  | nil => exact h
  | cons a as => exact h.1

theorem AllSteps.and {step : σ → α → Option σ} {C D : σ → α → Prop} {s : σ} {as : List α}
    (hC : AllSteps step C s as) (hD : AllSteps step D s as) : AllSteps step (fun s a => C s a ∧ D s a) s as := by
  induction as generalizing s with
  | nil => trivial
  | cons a as ih =>
    intro s' hstep
    obtain ⟨hCa, hCs⟩ := hC s' hstep
    obtain ⟨hDa, hDs⟩ := hD s' hstep
    exact ⟨⟨hCa, hDa⟩, ih hCs hDs⟩

/-- An invariant that every step keeps holds after every run. -/
theorem exec_inv {step : σ → α → Option σ} (I : σ → Prop)
    (hstep : ∀ s a s', I s → step s a = some s' → I s')
    {s s' : σ} {as : List α} (h0 : I s) (hrun : exec step s as = some s') : I s' := by
  induction as generalizing s with
  | nil =>
    cases hrun
    exact h0
  | cons a as ih =>
    obtain ⟨m, hm, hrest⟩ := exec_cons_eq_some.mp hrun
    exact ih (hstep s a m h0 hm) hrest

/-- The invariant rule for runs whose actions are known to satisfy `C`. -/
theorem exec_inv_of_forall {step : σ → α → Option σ} (I : σ → Prop) (C : α → Prop)
    (hstep : ∀ s a s', I s → C a → step s a = some s' → I s')
    {s s' : σ} {as : List α} (h0 : I s) (hC : ∀ a ∈ as, C a) (hrun : exec step s as = some s') : I s' := by
  induction as generalizing s with
  | nil =>
    cases hrun
    exact h0
  | cons a as ih =>
    obtain ⟨m, hm, hrest⟩ := exec_cons_eq_some.mp hrun
    have hI := hstep s a m h0 (hC a List.mem_cons_self) hm
    exact ih hI (fun b hb => hC b (List.mem_cons_of_mem a hb)) hrest

/-- The invariant rule for runs whose steps are known to satisfy `C`. -/
theorem exec_inv_of_allSteps {step : σ → α → Option σ} (I : σ → Prop) (C : σ → α → Prop)
    (hstep : ∀ s a s', I s → C s a → step s a = some s' → I s')
    {s s' : σ} {as : List α} (h0 : I s) (hC : AllSteps step C s as) (hrun : exec step s as = some s') : I s' := by
  induction as generalizing s with
  | nil =>
    cases hrun
    exact h0
  | cons a as ih =>
    obtain ⟨m, hm, hrest⟩ := exec_cons_eq_some.mp hrun
    obtain ⟨ha, has⟩ := hC m hm
    exact ih (hstep s a m h0 ha hm) has hrest

/-- The rule for what relates a state to the actions that have led to it. -/
theorem exec_inv_history {step : σ → α → Option σ} {s₀ : σ} (I : List α → σ → Prop) (C : σ → α → Prop) (h0 : I [] s₀)
    (hstep : ∀ done s a s', exec step s₀ done = some s → I done s → C s a → step s a = some s' → I (done ++ [a]) s')
    {s : σ} {as : List α} (hC : AllSteps step C s₀ as) (hrun : exec step s₀ as = some s) : I as s := by
  have hpath : ∀ (as done : List α) (m : σ), exec step s₀ done = some m → I done m → AllSteps step C m as →
      exec step m as = some s → I (done ++ as) s := by
    intro as
    induction as with
    | nil =>
      intro done m _ hI _ hrun
      cases hrun
      rwa [List.append_nil]
    | cons a as ih =>
      intro done m hdone hI hC hrun
      obtain ⟨m', hm, hrest⟩ := exec_cons_eq_some.mp hrun
      obtain ⟨ha, has⟩ := hC m' hm
      have hdone' : exec step s₀ (done ++ [a]) = some m' := by
        rw [exec_append, hdone, Option.bind_some, exec, hm]
        rfl
      have hrec := ih (done ++ [a]) m' hdone' (hstep done m a m' hdone hI ha hm) has hrest
      rwa [List.append_assoc] at hrec
  exact hpath as [] s₀ rfl h0 hC hrun

/-- The invariant rule for runs whose states are known to satisfy `P`. -/
theorem exec_inv_of_allStates {step : σ → α → Option σ} (I P : σ → Prop)
    (hstep : ∀ s a s', I s → P s → P s' → step s a = some s' → I s')
    {s s' : σ} {as : List α} (h0 : I s) (hP : AllStates step P s as)
    (hrun : exec step s as = some s') : I s' := by
  induction as generalizing s with
  | nil =>
    cases hrun
    exact h0
  | cons a as ih =>
    obtain ⟨m, hm, hrest⟩ := exec_cons_eq_some.mp hrun
    have hPm := hP.2 m hm
    exact ih (hstep s a m h0 hP.1 hPm.head hm) hPm hrest

/-- When `I` is kept by the steps out of `P`-states and, under `I`, a step out of a `P`-state leads
to a `P`-state exactly if it satisfies `C`, then the runs that stay in `P` are exactly the runs all
of whose steps satisfy `C`. -/
theorem allStates_iff_allSteps_of_inv {step : σ → α → Option σ} (I P : σ → Prop) (C : σ → α → Prop)
    (hI : ∀ s a s', I s → P s → step s a = some s' → I s')
    (hP : ∀ s a s', I s → P s → step s a = some s' → (P s' ↔ C s a))
    {s : σ} (as : List α) (h0 : I s) (hs : P s) :
    AllStates step P s as ↔ AllSteps step C s as := by
  induction as generalizing s with
  | nil => exact iff_of_true hs trivial
  | cons a as ih =>
    simp only [AllStates, AllSteps]
    constructor
    · rintro ⟨-, h⟩ s' hstep
      have hP' := (h s' hstep).head
      exact ⟨(hP s a s' h0 hs hstep).mp hP', (ih (hI s a s' h0 hs hstep) hP').mp (h s' hstep)⟩
    · intro h
      refine ⟨hs, fun s' hstep => ?_⟩
      obtain ⟨hC, hrest⟩ := h s' hstep
      exact (ih (hI s a s' h0 hs hstep) ((hP s a s' h0 hs hstep).mpr hC)).mpr hrest

/-- When `I` is an invariant and, under `I`, a step out of a `P`-state leads to a
`P`-state exactly if it satisfies `C`, then the runs that stay in `P` are exactly
the runs all of whose steps satisfy `C`. -/
theorem allStates_iff_allSteps {step : σ → α → Option σ} (I P : σ → Prop) (C : σ → α → Prop)
    (hI : ∀ s a s', I s → step s a = some s' → I s')
    (hP : ∀ s a s', I s → P s → step s a = some s' → (P s' ↔ C s a))
    {s : σ} (as : List α) (h0 : I s) (hs : P s) :
    AllStates step P s as ↔ AllSteps step C s as :=
  allStates_iff_allSteps_of_inv I P C (fun s a s' h _ => hI s a s' h) hP as h0 hs

/-- When, under `I`, the steps that satisfy `C` lead to `P`-states and no others do, and `I` is kept by them, then the
runs that stay in `P` are exactly the runs all of whose steps satisfy `C`. -/
theorem allStates_iff_allSteps_of_next {step : σ → α → Option σ} (I P : σ → Prop) (C : σ → α → Prop)
    (hC : ∀ s a s', I s → P s' → step s a = some s' → C s a)
    (hI : ∀ s a s', I s → C s a → step s a = some s' → I s' ∧ P s') {s : σ} (as : List α) (h0 : I s) (hs : P s) :
    AllStates step P s as ↔ AllSteps step C s as := by
  induction as generalizing s with
  | nil => exact iff_of_true hs trivial
  | cons a as ih =>
    constructor
    · intro h s' hstep
      have hrest := h.2 s' hstep
      have hCa := hC s a s' h0 hrest.head hstep
      obtain ⟨hI', hP'⟩ := hI s a s' h0 hCa hstep
      exact ⟨hCa, (ih hI' hP').mp hrest⟩
    · intro h
      refine ⟨hs, fun s' hstep => ?_⟩
      obtain ⟨hCa, hrest⟩ := h s' hstep
      obtain ⟨hI', hP'⟩ := hI s a s' h0 hCa hstep
      exact (ih hI' hP').mpr hrest

/-- A run that stays in `P` ends in `P`. -/
theorem AllStates.exec {step : σ → α → Option σ} {P : σ → Prop} {s s' : σ} {as : List α}
    (h : AllStates step P s as) (hrun : exec step s as = some s') : P s' := by
  induction as generalizing s with
  | nil =>
    cases hrun
    exact h
  | cons a as ih =>
    obtain ⟨m, hm, hrest⟩ := exec_cons_eq_some.mp hrun
    exact ih (h.2 m hm) hrest

/-- When a step out of a `P`-state leads to a `P`-state and satisfies `R` exactly if it satisfies `C`, then
the runs that stay in `P` with all steps in `R` are exactly the runs all of whose steps satisfy `C`. -/
theorem allStates_and_allSteps_iff {step : σ → α → Option σ} (P : σ → Prop) (R C : σ → α → Prop)
    (hP : ∀ s a s', P s → step s a = some s' → (P s' ∧ R s a ↔ C s a)) {s : σ} (as : List α) (hs : P s) :
    AllStates step P s as ∧ AllSteps step R s as ↔ AllSteps step C s as := by
  induction as generalizing s with
  | nil => exact iff_of_true ⟨hs, trivial⟩ trivial
  | cons a as ih =>
    constructor
    · rintro ⟨hstates, hsteps⟩ s' hstep
      obtain ⟨hR, hrest⟩ := hsteps s' hstep
      have hP' := hstates.2 s' hstep
      exact ⟨(hP s a s' hs hstep).mp ⟨hP'.head, hR⟩, (ih hP'.head).mp ⟨hP', hrest⟩⟩
    · intro h
      refine ⟨⟨hs, fun s' hstep => ?_⟩, fun s' hstep => ?_⟩
      · obtain ⟨hC, hrest⟩ := h s' hstep
        exact ((ih ((hP s a s' hs hstep).mpr hC).1).mpr hrest).1
      · obtain ⟨hC, hrest⟩ := h s' hstep
        obtain ⟨hP', hR⟩ := (hP s a s' hs hstep).mpr hC
        exact ⟨hR, ((ih hP').mpr hrest).2⟩

variable {τ β : Type*}

def trace (f : σ → α → σ × β) : σ → List α → σ × List β
  | s, [] => (s, [])
  | s, a :: as => ((trace f (f s a).1 as).1, (f s a).2 :: (trace f (f s a).1 as).2)

theorem trace_simulation {f : σ → α → σ × β} {g : τ → α → τ × β} (R : σ → τ → Prop)
    (hstep : ∀ s t a, R s t → (f s a).2 = (g t a).2 ∧ R (f s a).1 (g t a).1)
    {s : σ} {t : τ} (as : List α) (h0 : R s t) :
    (trace f s as).2 = (trace g t as).2 ∧ R (trace f s as).1 (trace g t as).1 := by
  induction as generalizing s t with
  | nil => exact ⟨rfl, h0⟩
  | cons a as ih =>
    obtain ⟨hres, hR⟩ := hstep s t a h0
    obtain ⟨hrest, hR'⟩ := ih hR
    exact ⟨congrArg₂ List.cons hres hrest, hR'⟩

end RtThread.Lib.Transition
