import Mathlib

/-!
# Pools of numbered slots

`Shares l held n`: each of the slots `0, ..., n - 1` is once in the list `l` or held by one
holder, and nothing else is. Moving a slot between the list and a holder keeps this.
-/

namespace RtThread.Lib.Pool

variable {T : Type*}

structure Shares (l : List ℕ) (held : T → Option ℕ) (n : ℕ) : Prop where
  nodup : l.Nodup
  lt : ∀ i ∈ l, i < n
  held_lt : ∀ t i, held t = some i → i < n
  held_not_mem : ∀ t i, held t = some i → i ∉ l
  held_inj : ∀ t u i, held t = some i → held u = some i → t = u
  cover : ∀ i, i < n → i ∈ l ∨ ∃ t, held t = some i

theorem Shares.perm {l l' : List ℕ} {held : T → Option ℕ} {n : ℕ} (h : Shares l held n)
    (hp : l'.Perm l) : Shares l' held n :=
  ⟨hp.nodup_iff.mpr h.nodup, fun i hi => h.lt i (hp.mem_iff.mp hi), h.held_lt,
    fun t i ht hi => h.held_not_mem t i ht (hp.mem_iff.mp hi), h.held_inj,
    fun i hi => (h.cover i hi).imp_left hp.mem_iff.mpr⟩

theorem shares_of_perm_range {l : List ℕ} {n : ℕ} (hp : l.Perm (List.range n)) :
    Shares l (fun _ : T => none) n :=
  ⟨hp.nodup_iff.mpr List.nodup_range, fun _ hi => List.mem_range.mp (hp.mem_iff.mp hi), nofun, nofun,
    nofun, fun _ hi => Or.inl (hp.mem_iff.mpr (List.mem_range.mpr hi))⟩

theorem Shares.length_le {l : List ℕ} {held : T → Option ℕ} {n : ℕ} (h : Shares l held n) :
    l.length ≤ n := by
  have hsub : l ⊆ List.range n := fun i hi => List.mem_range.mpr (h.lt i hi)
  have hle := (List.subperm_of_subset h.nodup hsub).length_le
  rwa [List.length_range] at hle

variable [DecidableEq T]

theorem Shares.hold {l l' : List ℕ} {held : T → Option ℕ} {n i : ℕ} {t : T} (h : Shares l held n)
    (ht : held t = none) (hp : l.Perm (i :: l')) : Shares l' (Function.update held t (some i)) n := by
  have hnd : i ∉ l' ∧ l'.Nodup := List.nodup_cons.mp (hp.nodup_iff.mp h.nodup)
  have hi : i ∈ l := hp.mem_iff.mpr List.mem_cons_self
  have hold : ∀ u j, Function.update held t (some i) u = some j → u = t ∧ j = i ∨ u ≠ t ∧ held u = some j := by
    intro u j hu
    by_cases hut : u = t
    · rw [hut, Function.update_self] at hu
      exact Or.inl ⟨hut, (Option.some.inj hu).symm⟩
    · rw [Function.update_of_ne hut] at hu
      exact Or.inr ⟨hut, hu⟩
  refine ⟨hnd.2, fun j hj => h.lt j (hp.mem_iff.mpr (List.mem_cons_of_mem i hj)), fun u j hu => ?_,
    fun u j hu hj => ?_, fun u v j hu hv => ?_, fun j hj => ?_⟩
  · rcases hold u j hu with ⟨-, rfl⟩ | ⟨-, hu⟩
    · exact h.lt j hi
    · exact h.held_lt u j hu
  · rcases hold u j hu with ⟨-, rfl⟩ | ⟨-, hu⟩
    · exact hnd.1 hj
    · exact h.held_not_mem u j hu (hp.mem_iff.mpr (List.mem_cons_of_mem i hj))
  · rcases hold u j hu with ⟨hut, hji⟩ | ⟨-, hu'⟩ <;> rcases hold v j hv with ⟨hvt, hji'⟩ | ⟨-, hv'⟩
    · rw [hut, hvt]
    · exact absurd hi (h.held_not_mem v i (hji ▸ hv'))
    · exact absurd hi (h.held_not_mem u i (hji' ▸ hu'))
    · exact h.held_inj u v j hu' hv'
  · rcases h.cover j hj with hmem | ⟨u, hu⟩
    · rcases List.mem_cons.mp (hp.mem_iff.mp hmem) with rfl | hmem
      · exact Or.inr ⟨t, Function.update_self ..⟩
      · exact Or.inl hmem
    · have hut : u ≠ t := by
        rintro rfl
        rw [ht] at hu
        cases hu
      exact Or.inr ⟨u, (Function.update_of_ne hut _ _).trans hu⟩

theorem Shares.release {l l' : List ℕ} {held : T → Option ℕ} {n i : ℕ} {t : T} (h : Shares l held n)
    (ht : held t = some i) (hp : l'.Perm (i :: l)) : Shares l' (Function.update held t none) n := by
  have hold : ∀ u j, Function.update held t none u = some j → u ≠ t ∧ held u = some j := by
    intro u j hu
    by_cases hut : u = t
    · rw [hut, Function.update_self] at hu
      cases hu
    · rw [Function.update_of_ne hut] at hu
      exact ⟨hut, hu⟩
  refine ⟨hp.nodup_iff.mpr (List.nodup_cons.mpr ⟨h.held_not_mem t i ht, h.nodup⟩), fun j hj => ?_,
    fun u j hu => h.held_lt u j (hold u j hu).2, fun u j hu hj => ?_,
    fun u v j hu hv => h.held_inj u v j (hold u j hu).2 (hold v j hv).2, fun j hj => ?_⟩
  · rcases List.mem_cons.mp (hp.mem_iff.mp hj) with rfl | hj
    · exact h.held_lt t j ht
    · exact h.lt j hj
  · obtain ⟨hut, hu⟩ := hold u j hu
    rcases List.mem_cons.mp (hp.mem_iff.mp hj) with rfl | hj
    · exact hut (h.held_inj u t j hu ht)
    · exact h.held_not_mem u j hu hj
  · rcases h.cover j hj with hmem | ⟨u, hu⟩
    · exact Or.inl (hp.mem_iff.mpr (List.mem_cons_of_mem i hmem))
    · by_cases hut : u = t
      · rw [hut, ht] at hu
        cases hu
        exact Or.inl (hp.mem_iff.mpr List.mem_cons_self)
      · exact Or.inr ⟨u, (Function.update_of_ne hut _ _).trans hu⟩

theorem Shares.grow {l : List ℕ} {held : T → Option ℕ} {n : ℕ} {t : T} (h : Shares l held n)
    (ht : held t = none) : Shares l (Function.update held t (some n)) (n + 1) := by
  have hold : Shares (n :: l) held (n + 1) :=
    ⟨List.nodup_cons.mpr ⟨fun hn => Nat.lt_irrefl n (h.lt n hn), h.nodup⟩,
      fun i hi => by
        rcases List.mem_cons.mp hi with rfl | hi
        · exact Nat.lt_succ_self i
        · exact Nat.lt_succ_of_lt (h.lt i hi),
      fun u i hu => Nat.lt_succ_of_lt (h.held_lt u i hu),
      fun u i hu hi => by
        rcases List.mem_cons.mp hi with rfl | hi
        · exact Nat.lt_irrefl i (h.held_lt u i hu)
        · exact h.held_not_mem u i hu hi,
      h.held_inj,
      fun i hi => by
        rcases Nat.lt_succ_iff_lt_or_eq.mp hi with hi | rfl
        · exact (h.cover i hi).imp_left (List.mem_cons_of_mem n)
        · exact Or.inl List.mem_cons_self⟩
  exact hold.hold ht (List.Perm.refl _)

end RtThread.Lib.Pool
