import Mathlib

/-!
# Skip lists

The rows of a skip list are lists, each a subsequence of the next. A position in a row is a
node of it, or `none` for its head. The search walks along a row as long as `pass` holds of
the next node, and goes on in the next row from the node it has reached. When the nodes that
pass come first in every row, the positions found are those behind all nodes that pass.
-/

namespace RtThread.Lib.SkipList

variable {T : Type*}

/-- The position reached from `pos`, when `l` are the nodes behind it. -/
def walk (pass : T → Bool) : Option T → List T → Option T
  | pos, [] => pos
  | pos, x :: l => if pass x then walk pass (some x) l else pos

/-- The nodes that pass come first. -/
def Ordered (pass : T → Bool) (l : List T) : Prop :=
  l.Pairwise fun x y => pass y = true → pass x = true

/-- A new node behind all nodes that pass. -/
def insertBehind (pass : T → Bool) (x : T) (l : List T) : List T :=
  l.filter pass ++ x :: l.filter fun y => !pass y

theorem walk_eq_getLast? (pass : T → Bool) (pre l : List T) :
    walk pass pre.getLast? l = (pre ++ l.takeWhile pass).getLast? := by
  induction l generalizing pre with
  | nil => simp [walk]
  | cons x l ih =>
    simp only [walk, List.takeWhile_cons]
    split
    · have h := ih (pre ++ [x])
      rw [List.getLast?_concat] at h
      rw [h, List.append_assoc, List.singleton_append]
    · simp

theorem Ordered.takeWhile_eq {pass : T → Bool} {l : List T} (h : Ordered pass l) :
    l.takeWhile pass = l.filter pass ∧ l.dropWhile pass = l.filter fun y => !pass y := by
  induction l with
  | nil => exact ⟨rfl, rfl⟩
  | cons x l ih =>
    obtain ⟨hx, hl⟩ := List.pairwise_cons.mp h
    cases hp : pass x with
    | true => simp [hp, ih hl]
    | false =>
      have hnone : ∀ y ∈ l, pass y = false := by
        intro y hy
        by_contra hpy
        exact absurd (hx y hy (by simpa using hpy)) (by simp [hp])
      have hfilter : l.filter pass = [] := by simpa using hnone
      have hall : (l.filter fun y => !pass y) = l := by simpa using hnone
      simp [hp, hfilter, hall]

theorem Ordered.filter_append {pass : T → Bool} {l : List T} (h : Ordered pass l) :
    l.filter pass ++ l.filter (fun y => !pass y) = l := by
  rw [← h.takeWhile_eq.1, ← h.takeWhile_eq.2]
  exact List.takeWhile_append_dropWhile

theorem Ordered.congr {pass pass' : T → Bool} {l : List T} (h : Ordered pass' l)
    (heq : ∀ y ∈ l, pass y = pass' y) : Ordered pass l := by
  refine h.imp_of_mem fun {x y} hx hy hxy => ?_
  rw [heq x hx, heq y hy]
  exact hxy

theorem ordered_of_sorted {key : T → ℕ} {l : List T} (h : l.Pairwise fun a b => key a ≤ key b) (n : ℕ) :
    Ordered (fun y => decide (key y ≤ n)) l := by
  refine h.imp fun {x y} hle => ?_
  simp only [decide_eq_true_eq]
  omega

theorem Ordered.insertBehind_eq {pass : T → Bool} {l : List T} (h : Ordered pass l) (x : T) :
    insertBehind pass x l = l.takeWhile pass ++ x :: l.dropWhile pass := by
  rw [insertBehind, h.takeWhile_eq.1, h.takeWhile_eq.2]

theorem mem_insertBehind {pass : T → Bool} {x y : T} {l : List T} :
    y ∈ insertBehind pass x l ↔ y = x ∨ y ∈ l := by
  simp only [insertBehind, List.mem_append, List.mem_cons, List.mem_filter]
  cases pass y <;> simp [or_comm]

theorem insertBehind_perm (pass : T → Bool) (x : T) (l : List T) :
    (insertBehind pass x l).Perm (x :: l) :=
  List.perm_middle.trans ((List.filter_append_perm pass l).cons x)

theorem insertBehind_congr {pass pass' : T → Bool} (x : T) {l : List T}
    (h : ∀ y ∈ l, pass y = pass' y) : insertBehind pass x l = insertBehind pass' x l := by
  simp only [insertBehind]
  rw [List.filter_congr h, List.filter_congr fun y hy => congrArg not (h y hy)]

theorem insertBehind_append {pass : T → Bool} (x : T) {l₁ l₂ : List T} (h : ∀ y ∈ l₁, pass y = true) :
    insertBehind pass x (l₁ ++ l₂) = l₁ ++ insertBehind pass x l₂ := by
  have hfilter : l₁.filter pass = l₁ := by simpa using h
  have hnone : (l₁.filter fun y => !pass y) = [] := by simpa using h
  simp [insertBehind, hfilter, hnone]

theorem insertBehind_sublist {pass : T → Bool} {x : T} {l l' : List T} (h : l.Sublist l') :
    (insertBehind pass x l).Sublist (insertBehind pass x l') :=
  (h.filter pass).append ((h.filter _).cons_cons x)

theorem Ordered.sublist_insertBehind {pass : T → Bool} {x : T} {l : List T} (h : Ordered pass l) :
    l.Sublist (insertBehind pass x l) := by
  rw [h.insertBehind_eq]
  nth_rewrite 1 [← List.takeWhile_append_dropWhile (p := pass) (l := l)]
  exact (List.Sublist.refl _).append (List.sublist_cons_self x _)

theorem pairwise_insertBehind (key : T → ℕ) {x : T} {l : List T}
    (h : l.Pairwise fun a b => key a ≤ key b) :
    (insertBehind (fun y => decide (key y ≤ key x)) x l).Pairwise fun a b => key a ≤ key b := by
  refine List.pairwise_append.mpr ⟨h.filter _, List.pairwise_cons.mpr ⟨fun y hy => ?_, h.filter _⟩, ?_⟩
  · simp only [List.mem_filter, Bool.not_eq_true', decide_eq_false_iff_not] at hy
    omega
  · intro a ha b hb
    simp only [List.mem_filter, decide_eq_true_eq] at ha
    simp only [List.mem_cons, List.mem_filter, Bool.not_eq_true', decide_eq_false_iff_not] at hb
    rcases hb with rfl | hb
    · exact ha.2
    · omega

variable [DecidableEq T]

def after : Option T → List T → List T
  | none, l => l
  | some _, [] => []
  | some p, x :: l => if x = p then l else after (some p) l

def insertAfter (x : T) : Option T → List T → List T
  | none, l => x :: l
  | some _, [] => []
  | some p, y :: l => if y = p then y :: x :: l else y :: insertAfter x (some p) l

theorem after_getLast? {pre l : List T} (h : (pre ++ l).Nodup) : after pre.getLast? (pre ++ l) = l := by
  induction pre with
  | nil => simp [after]
  | cons y pre ih =>
    have hy := List.nodup_cons.mp h
    cases hpre : pre.getLast? with
    | none =>
      rw [List.getLast?_eq_none_iff] at hpre
      simp [hpre, after]
    | some p =>
      have hp : p ∈ pre := List.mem_of_getLast? hpre
      have hne : y ≠ p := fun he => hy.1 (List.mem_append_left l (he ▸ hp))
      have ih := ih hy.2
      rw [hpre] at ih
      simp [List.getLast?_cons, hpre, after, hne, ih]

theorem insertAfter_getLast? {pre l : List T} (x : T) (h : (pre ++ l).Nodup) :
    insertAfter x pre.getLast? (pre ++ l) = pre ++ x :: l := by
  induction pre with
  | nil => simp [insertAfter]
  | cons y pre ih =>
    have hy := List.nodup_cons.mp h
    cases hpre : pre.getLast? with
    | none =>
      rw [List.getLast?_eq_none_iff] at hpre
      simp [hpre, insertAfter]
    | some p =>
      have hp : p ∈ pre := List.mem_of_getLast? hpre
      have hne : y ≠ p := fun he => hy.1 (List.mem_append_left l (he ▸ hp))
      have ih := ih hy.2
      rw [hpre] at ih
      simp [List.getLast?_cons, hpre, insertAfter, hne, ih]

/-- A position of a row that the search may start from. -/
def Passed (pass : T → Bool) (pos : Option T) (l : List T) : Prop :=
  ∀ p, pos = some p → p ∈ l ∧ pass p = true

omit [DecidableEq T] in
theorem Passed.exists_append {pass : T → Bool} {pos : Option T} {l : List T} (h : Passed pass pos l)
    (hord : Ordered pass l) : ∃ pre suf, l = pre ++ suf ∧ pos = pre.getLast? ∧ ∀ y ∈ pre, pass y = true := by
  cases pos with
  | none => exact ⟨[], l, rfl, rfl, nofun⟩
  | some p =>
    obtain ⟨hmem, hpass⟩ := h p rfl
    obtain ⟨pre, suf, rfl⟩ := List.append_of_mem hmem
    refine ⟨pre ++ [p], suf, by simp, by simp, fun y hy => ?_⟩
    rcases List.mem_append.mp hy with hy | hy
    · exact (List.pairwise_append.mp hord).2.2 y hy p List.mem_cons_self hpass
    · rw [List.mem_singleton.mp hy]
      exact hpass

theorem walk_after {pass : T → Bool} {pos : Option T} {l : List T} (hnd : l.Nodup)
    (hord : Ordered pass l) (hpos : Passed pass pos l) :
    walk pass pos (after pos l) = (l.takeWhile pass).getLast? := by
  obtain ⟨pre, suf, rfl, rfl, hpre⟩ := hpos.exists_append hord
  rw [after_getLast? hnd, walk_eq_getLast?]
  rw [List.takeWhile_append_of_pos hpre]

omit [DecidableEq T] in
theorem passed_getLast? {pass : T → Bool} {l l' : List T} (hsub : l.Sublist l') :
    Passed pass (l.takeWhile pass).getLast? l' := by
  intro p hp
  have hmem := List.mem_of_getLast? hp
  exact ⟨hsub.subset ((List.takeWhile_prefix pass).subset hmem), List.mem_takeWhile_imp hmem⟩

theorem insertAfter_takeWhile {pass : T → Bool} {l : List T} (x : T) (hnd : l.Nodup)
    (hord : Ordered pass l) : insertAfter x (l.takeWhile pass).getLast? l = insertBehind pass x l := by
  have hsplit := List.takeWhile_append_dropWhile (p := pass) (l := l)
  have h := @insertAfter_getLast? T _ (l.takeWhile pass) (l.dropWhile pass) x (by rwa [hsplit])
  rw [hsplit] at h
  rw [h, hord.insertBehind_eq]

def search (pass : T → Bool) (row : ℕ → List T) : ℕ → Option T
  | 0 => walk pass none (row 0)
  | i + 1 =>
    let pos := search pass row i
    walk pass pos (after pos (row (i + 1)))

theorem search_eq {pass : T → Bool} {row : ℕ → List T} {n : ℕ}
    (hnd : ∀ i < n, (row i).Nodup) (hord : ∀ i < n, Ordered pass (row i))
    (hsub : ∀ i, i + 1 < n → (row i).Sublist (row (i + 1))) {i : ℕ} (hi : i < n) :
    search pass row i = ((row i).takeWhile pass).getLast? := by
  induction i with
  | zero =>
    have h := @walk_after T _ pass none (row 0) (hnd 0 hi) (hord 0 hi) (fun p hp => by cases hp)
    rwa [after] at h
  | succ i ih =>
    simp only [search]
    rw [ih (by omega)]
    exact walk_after (hnd _ hi) (hord _ hi) (passed_getLast? (hsub i hi))

/-! ### Insertion at any position -/

theorem insertAfter_perm (x : T) {pos : Option T} {l : List T} (hpos : ∀ p, pos = some p → p ∈ l) :
    (insertAfter x pos l).Perm (x :: l) := by
  cases pos with
  | none =>
    rw [insertAfter]
  | some p =>
    induction l with
    | nil => cases hpos p rfl
    | cons y l ih =>
      simp only [insertAfter]
      split
      · exact List.Perm.swap x y l
      · rename_i hne
        have hp : p ∈ l := (List.mem_cons.mp (hpos p rfl)).resolve_left fun he => hne he.symm
        have hrest := ih fun q hq => by
          cases hq
          exact hp
        exact (hrest.cons y).trans (List.Perm.swap x y l)

theorem erase_insertAfter {x : T} {l : List T} (h : x ∉ l) (pos : Option T) : (insertAfter x pos l).erase x = l := by
  cases pos with
  | none =>
    rw [insertAfter, List.erase_cons_head]
  | some p =>
    induction l with
    | nil => rfl
    | cons y l ih =>
      obtain ⟨hne, hl⟩ := not_or.mp (List.mem_cons.not.mp h)
      have hy : (y == x) = false := beq_eq_false_iff_ne.mpr fun he => hne he.symm
      simp only [insertAfter]
      split
      · simp [hy]
      · rw [List.erase_cons, hy]
        simp [ih hl]

theorem mem_of_mem_after {pos : Option T} {l : List T} {y : T} (h : y ∈ after pos l) : y ∈ l := by
  cases pos with
  | none =>
    rw [after] at h
    exact h
  | some p =>
    induction l with
    | nil => cases h
    | cons x l ih =>
      simp only [after] at h
      split at h
      · exact List.mem_cons_of_mem x h
      · exact List.mem_cons_of_mem x (ih h)

omit [DecidableEq T] in
theorem walk_mem (pass : T → Bool) {pos : Option T} {l : List T} {p : T} (h : walk pass pos l = some p) :
    pos = some p ∨ p ∈ l := by
  induction l generalizing pos with
  | nil => exact Or.inl h
  | cons x l ih =>
    rw [walk] at h
    split at h
    · rcases ih h with hx | hl
      · cases hx
        exact Or.inr List.mem_cons_self
      · exact Or.inr (List.mem_cons_of_mem x hl)
    · exact Or.inl h

/-- The search finds a node of the row, whatever the order of the nodes. -/
theorem search_mem {pass : T → Bool} {row : ℕ → List T} {n : ℕ} (hsub : ∀ i, i + 1 < n → row i ⊆ row (i + 1))
    {i : ℕ} (hi : i < n) {p : T} (h : search pass row i = some p) : p ∈ row i := by
  induction i generalizing p with
  | zero =>
    rcases walk_mem pass h with hnone | hp
    · cases hnone
    · exact hp
  | succ i ih =>
    simp only [search] at h
    rcases walk_mem pass h with hpos | hp
    · exact hsub i hi (ih (by omega) hpos)
    · exact mem_of_mem_after hp

end RtThread.Lib.SkipList
