import Mathlib

/-!
# Rules of pre- and postconditions for stateful functions that may give no result
-/

namespace RtThread.Lib.Stateful

universe u

variable {σ α β : Type u}

/-- If a state satisfies `P` and `m` gives a result there, the result and the new state satisfy `Q`. -/
def Triple (P : σ → Prop) (m : StateT σ Option α) (Q : α → σ → Prop) : Prop :=
  ∀ s a s', P s → m s = some (a, s') → Q a s'

theorem bind_eq_some {m : StateT σ Option α} {f : α → StateT σ Option β} {s s' : σ} {b : β} :
    (m >>= f) s = some (b, s') ↔ ∃ a t, m s = some (a, t) ∧ f a t = some (b, s') := by
  change (m s >>= fun r => f r.1 r.2) = some (b, s') ↔ _
  rw [Option.bind_eq_bind, Option.bind_eq_some_iff]
  constructor
  · rintro ⟨⟨a, t⟩, hm, hf⟩
    exact ⟨a, t, hm, hf⟩
  · rintro ⟨a, t, hm, hf⟩
    exact ⟨(a, t), hm, hf⟩

theorem bind_eq {m : StateT σ Option α} {f : α → StateT σ Option β} {s s' : σ} {a : α} (h : m s = some (a, s')) :
    (m >>= f) s = f a s' := by
  change (m s >>= fun r => f r.1 r.2) = _
  rw [h]
  rfl

variable {P : σ → Prop}

theorem Triple.bind {m : StateT σ Option α} {f : α → StateT σ Option β} {R : α → σ → Prop} {Q : β → σ → Prop}
    (hm : Triple P m R) (hf : ∀ a, Triple (R a) (f a) Q) : Triple P (m >>= f) Q := by
  intro s b s' hs hrun
  obtain ⟨a, t, hm', hf'⟩ := bind_eq_some.mp hrun
  exact hf a t b s' (hm s a t hs hm') hf'

theorem Triple.pure {Q : α → σ → Prop} (a : α) (h : ∀ s, P s → Q a s) : Triple P (pure a) Q := by
  intro s b s' hs hrun
  cases hrun
  exact h s hs

theorem Triple.failure (Q : α → σ → Prop) : Triple P failure Q := by
  intro s a s' _ hrun
  cases hrun

theorem Triple.get {Q : σ → σ → Prop} (h : ∀ s, P s → Q s s) : Triple P get Q := by
  intro s a s' hs hrun
  cases hrun
  exact h s hs

theorem Triple.modify {Q : PUnit → σ → Prop} (f : σ → σ) (h : ∀ s, P s → Q ⟨⟩ (f s)) : Triple P (modify f) Q := by
  intro s a s' hs hrun
  cases hrun
  exact h s hs

theorem Triple.of_and {p : Prop} {m : StateT σ Option α} {Q : α → σ → Prop} (h : p → Triple P m Q) :
    Triple (fun s => p ∧ P s) m Q :=
  fun s a s' hs => h hs.1 s a s' hs.2

def Keeps (I : σ → Prop) (m : StateT σ Option α) : Prop := Triple I m fun _ => I

section Keeps

variable {I : σ → Prop}

theorem Keeps.bind {m : StateT σ Option α} {f : α → StateT σ Option β} (hm : Keeps I m) (hf : ∀ a, Keeps I (f a)) :
    Keeps I (m >>= f) :=
  Triple.bind hm hf

theorem Keeps.pure (a : α) : Keeps I (pure a) := Triple.pure a fun _ h => h

theorem Keeps.failure : Keeps I (failure : StateT σ Option α) := Triple.failure _

theorem Keeps.get : Keeps I get := Triple.get fun _ h => h

theorem Keeps.modify (f : σ → σ) (h : ∀ s, I s → I (f s)) : Keeps I (modify f) := Triple.modify f h

theorem Triple.bind_keeps {m : StateT σ Option α} {f : α → StateT σ Option β} (hm : Triple P m fun _ => I)
    (hf : ∀ a, Keeps I (f a)) : Triple P (m >>= f) fun _ => I :=
  hm.bind hf

end Keeps

end RtThread.Lib.Stateful
