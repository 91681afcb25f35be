import Mathlib

/-!
# Little-endian words in a memory of bytes

`load n m a` is the word of `n` bytes at the address `a`, and `store n m a v` writes one. A
load sees the last store to its bytes, and what lies outside of a store is unchanged.
-/

namespace RtThread.Lib.Bytes

abbrev Mem := ℕ → BitVec 8

def load : ℕ → Mem → ℕ → ℕ
  | 0, _, _ => 0
  | n + 1, m, a => (m a).toNat + 256 * load n m (a + 1)

def store : ℕ → Mem → ℕ → ℕ → Mem
  | 0, m, _, _ => m
  | n + 1, m, a, v => Function.update (store n m (a + 1) (v / 256)) a (BitVec.ofNat 8 v)

theorem load_lt (n : ℕ) (m : Mem) (a : ℕ) : load n m a < 256 ^ n := by
  induction n generalizing a with
  | zero => exact Nat.one_pos
  | succ n ih =>
    have hbyte := (m a).isLt
    have hrest := ih (a + 1)
    rw [load, Nat.pow_succ]
    omega

theorem load_congr {n : ℕ} {m m' : Mem} {a : ℕ} (h : Set.EqOn m m' (Set.Ico a (a + n))) :
    load n m a = load n m' a := by
  induction n generalizing a with
  | zero => rfl
  | succ n ih =>
    have hfirst : m a = m' a := h ⟨le_rfl, by omega⟩
    have hrest : load n m (a + 1) = load n m' (a + 1) := by
      refine ih fun x hx => h ⟨?_, ?_⟩
      · exact (Nat.le_succ a).trans hx.1
      · have := hx.2
        omega
    rw [load, load, hfirst, hrest]

theorem store_apply_of_notMem {n : ℕ} (m : Mem) {a x : ℕ} (v : ℕ) (h : x < a ∨ a + n ≤ x) :
    store n m a v x = m x := by
  induction n generalizing a v with
  | zero => rfl
  | succ n ih =>
    rw [store, Function.update_of_ne (by omega)]
    exact ih (v / 256) (by omega)

theorem store_eqOn {n : ℕ} (m : Mem) {a lo hi : ℕ} (v : ℕ) (h : hi ≤ a ∨ a + n ≤ lo) :
    Set.EqOn (store n m a v) m (Set.Ico lo hi) := by
  intro x hx
  obtain ⟨hlo, hhi⟩ := hx
  exact store_apply_of_notMem m v (by omega)

theorem load_store_self {n : ℕ} (m : Mem) (a : ℕ) {v : ℕ} (hv : v < 256 ^ n) :
    load n (store n m a v) a = v := by
  induction n generalizing a v with
  | zero =>
    rw [Nat.pow_zero] at hv
    rw [load]
    omega
  | succ n ih =>
    have hrest : load n (store (n + 1) m a v) (a + 1) = v / 256 := by
      rw [@load_congr n _ (store n m (a + 1) (v / 256)) (a + 1) fun x hx => Function.update_of_ne (by
        have := hx.1
        omega) _ _]
      exact ih (a + 1) (by rw [Nat.pow_succ] at hv; omega)
    rw [load, hrest, store, Function.update_self, BitVec.toNat_ofNat]
    omega

theorem load_store_of_disjoint {n n' : ℕ} (m : Mem) {a b : ℕ} (v : ℕ) (h : b + n' ≤ a ∨ a + n ≤ b) :
    load n' (store n m a v) b = load n' m b := load_congr (store_eqOn m v h)

/-- A byte that is stored does not depend on the memory. -/
theorem store_covered {n : ℕ} {a x : ℕ} (v : ℕ) (hx : a ≤ x ∧ x < a + n) (m m' : Mem) :
    store n m a v x = store n m' a v x := by
  induction n generalizing a v with
  | zero => omega
  | succ n ih =>
    rw [store, store]
    by_cases he : x = a
    · rw [he, Function.update_self, Function.update_self]
    · rw [Function.update_of_ne he, Function.update_of_ne he]
      exact ih (v / 256) (by omega)

theorem store_agree {n : ℕ} {m m' : Mem} {a x : ℕ} (v : ℕ) (hm : m x = m' x) : store n m a v x = store n m' a v x := by
  by_cases hx : a ≤ x ∧ x < a + n
  · exact store_covered v hx m m'
  · rw [store_apply_of_notMem m v (by omega), store_apply_of_notMem m' v (by omega)]
    exact hm

/-- Words of four bytes, one behind the other. -/
def storeWords : Mem → ℕ → List ℕ → Mem
  | m, _, [] => m
  | m, a, w :: ws => storeWords (store 4 m a w) (a + 4) ws

theorem storeWords_of_notMem {m : Mem} {a x : ℕ} {ws : List ℕ} (h : x < a ∨ a + 4 * ws.length ≤ x) :
    storeWords m a ws x = m x := by
  induction ws generalizing m a with
  | nil => rfl
  | cons w ws ih =>
    rw [List.length_cons] at h
    rw [storeWords, ih (by omega)]
    exact store_apply_of_notMem m w (by omega)

/-! ### Records -/

/-- `m'` differs from `m` only in the records of `w` bytes at the addresses `C`. -/
def ChangedAt (w : ℕ) (C : Set ℕ) (m m' : Mem) : Prop := ∀ x, (∀ c ∈ C, x < c ∨ c + w ≤ x) → m' x = m x

variable {w : ℕ} {C D : Set ℕ} {m m' m'' : Mem}

theorem ChangedAt.refl (m : Mem) : ChangedAt w C m m := fun _ _ => rfl

theorem ChangedAt.trans (h : ChangedAt w C m m') (h' : ChangedAt w C m' m'') : ChangedAt w C m m'' :=
  fun x hx => (h' x hx).trans (h x hx)

theorem ChangedAt.mono (h : ChangedAt w C m m') (hsub : C ⊆ D) : ChangedAt w D m m' :=
  fun x hx => h x fun c hc => hx c (hsub hc)

theorem changedAt_store {n i c : ℕ} (m : Mem) (v : ℕ) (hc : c ∈ C) (hi : i + n ≤ w) : ChangedAt w C m (store n m (c + i) v) := by
  intro x hx
  have hout := hx c hc
  exact store_apply_of_notMem m v (by omega)

theorem ChangedAt.eqOn {lo hi : ℕ} (h : ChangedAt w C m m') (hout : ∀ c ∈ C, c + w ≤ lo ∨ hi ≤ c) :
    Set.EqOn m' m (Set.Ico lo hi) := by
  intro x hx
  obtain ⟨hlo, hhi⟩ := hx
  refine h x fun c hc => ?_
  have := hout c hc
  omega

end RtThread.Lib.Bytes
