import Mathlib

/-!
# Singly linked chains

`Linked next start l`: following `next` from `start` visits the nodes of `l` in order
and ends with a null link. Assigning a link is `Function.update next`.
-/

namespace RtThread.Lib.Chain

variable {A : Type*}

def Linked (next : A → Option A) : Option A → List A → Prop
  | start, [] => start = none
  | start, a :: l => start = some a ∧ Linked next (next a) l

theorem Linked.exists_cons {next : A → Option A} {a : A} {l : List A}
    (h : Linked next (some a) l) : ∃ l', l = a :: l' ∧ Linked next (next a) l' := by
  cases l with
  | nil => cases h
  | cons b l =>
    obtain ⟨hb, hl⟩ := h
    cases hb
    exact ⟨l, rfl, hl⟩

theorem Linked.next_eq_head {next : A → Option A} {start : Option A} {a : A} {l : List A}
    (h : Linked next start (a :: l)) : next a = l.head? := by
  cases l with
  | nil => exact h.2
  | cons b l => exact h.2.1

/-- Links that the chain does not use play no part in it. -/
theorem Linked.congr {next next' : A → Option A} {l : List A} (hn : ∀ a ∈ l, next' a = next a) :
    ∀ {start : Option A}, Linked next start l → Linked next' start l := by
  induction l with
  | nil => exact id
  | cons a l ih =>
    intro start h
    refine ⟨h.1, ?_⟩
    rw [hn a List.mem_cons_self]
    exact ih (fun b hb => hn b (List.mem_cons_of_mem a hb)) h.2

/-- The nodes that following at most `k` links visits. -/
def follow (next : A → Option A) : ℕ → Option A → List A
  | 0, _ => []
  | _ + 1, none => []
  | k + 1, some a => a :: follow next k (next a)

theorem Linked.follow_eq {next : A → Option A} {l : List A} {k : ℕ} (hk : l.length ≤ k) :
    ∀ {start : Option A}, Linked next start l → follow next k start = l := by
  induction l generalizing k with
  | nil =>
    intro start h
    rw [show start = none from h]
    cases k with
    | zero => rfl
    | succ k => rfl
  | cons a l ih =>
    intro start h
    cases k with
    | zero => exact absurd hk (Nat.not_succ_le_zero _)
    | succ k =>
      rw [h.1, follow, ih (Nat.le_of_succ_le_succ hk) h.2]

/-- The chain `f n, f (n + 1), ..., f (n + m - 1)`. -/
theorem linked_map_range' {next : A → Option A} (f : ℕ → A) {n m : ℕ}
    (hnext : ∀ i, n ≤ i → i + 1 < n + m → next (f i) = some (f (i + 1)))
    (hlast : 0 < m → next (f (n + m - 1)) = none) :
    Linked next (if m = 0 then none else some (f n)) ((List.range' n m).map f) := by
  induction m generalizing n with
  | zero => rfl
  | succ m ih =>
    refine ⟨rfl, ?_⟩
    have hrest := @ih (n + 1) (fun i hi hlt => hnext i (by omega) (by omega)) fun _ => by
      rw [show n + 1 + m - 1 = n + (m + 1) - 1 by omega]
      exact hlast (Nat.succ_pos m)
    cases m with
    | zero =>
      rw [show next (f n) = none from hlast Nat.one_pos]
      exact hrest
    | succ m =>
      rw [hnext n le_rfl (by omega)]
      exact hrest

/-- The chain `n, n + 1, ..., n + m - 1`. -/
theorem linked_range' {next : ℕ → Option ℕ} {n m : ℕ} (hnext : ∀ i, n ≤ i → i + 1 < n + m → next i = some (i + 1))
    (hlast : 0 < m → next (n + m - 1) = none) :
    Linked next (if m = 0 then none else some n) (List.range' n m) := by
  have hlinked := linked_map_range' id hnext hlast
  rwa [List.map_id] at hlinked

/-- The links of the nodes before `u` lead to nodes up to `u`. -/
theorem Linked.exists_mem {next : A → Option A} {us vs : List A} {u a : A} {start : Option A}
    (h : Linked next start (us ++ u :: vs)) (ha : a ∈ us) : ∃ b ∈ us ++ [u], next a = some b := by
  induction us generalizing start with
  | nil => cases ha
  | cons c us ih =>
    rcases List.mem_cons.mp ha with rfl | hrest
    · have hhead := h.next_eq_head
      cases us with
      | nil => exact ⟨u, by simp, hhead⟩
      | cons d us => exact ⟨d, by simp, hhead⟩
    · obtain ⟨b, hb, hnext⟩ := ih h.2 hrest
      exact ⟨b, List.mem_cons_of_mem c hb, hnext⟩

theorem Linked.next_middle {next : A → Option A} {us vs : List A} {u : A} {start : Option A}
    (h : Linked next start (us ++ u :: vs)) : next u = vs.head? := by
  induction us generalizing start with
  | nil => exact h.next_eq_head
  | cons c us ih => exact ih h.2

variable [DecidableEq A]

theorem Linked.update {next : A → Option A} {start : Option A} {l : List A}
    (h : Linked next start l) {a : A} (ha : a ∉ l) (x : Option A) :
    Linked (Function.update next a x) start l := by
  have hn : ∀ b ∈ l, Function.update next a x b = next b := by
    intro b hb
    refine Function.update_of_ne ?_ _ _
    rintro rfl
    exact ha hb
  exact Linked.congr hn h

theorem Linked.push {next : A → Option A} {start : Option A} {l : List A}
    (h : Linked next start l) {a : A} (ha : a ∉ l) :
    Linked (Function.update next a start) (some a) (a :: l) := by
  refine ⟨rfl, ?_⟩
  rw [Function.update_self]
  exact h.update ha start

theorem Linked.snoc {next : A → Option A} {z b : A} (hb : next b = none) {l : List A} :
    ∀ {start : Option A}, Linked next start l → l.Nodup → l.getLast? = some z → b ∉ l →
      Linked (Function.update next z (some b)) start (l ++ [b]) := by
  induction l with
  | nil => nofun
  | cons a l ih =>
    intro start h hnd hlast hmem
    obtain ⟨hba, hbl⟩ := not_or.mp (mt List.mem_cons.mpr hmem)
    obtain ⟨hal, hnd'⟩ := List.nodup_cons.mp hnd
    refine ⟨h.1, ?_⟩
    cases l with
    | nil =>
      obtain rfl : a = z := by simpa using hlast
      simp [Linked, Function.update_of_ne hba, hb]
    | cons a' l =>
      have hz : z ∈ a' :: l := List.mem_of_getLast? (by simpa using hlast)
      have haz : a ≠ z := by
        rintro rfl
        exact hal hz
      rw [Function.update_of_ne haz]
      exact ih h.2 hnd' (by simpa using hlast) hbl

/-- A node that leads on to the rest is put behind `u`. -/
theorem Linked.insert_after {next : A → Option A} {us vs : List A} {u b : A} (hb : next b = vs.head?) :
    ∀ {start : Option A}, Linked next start (us ++ u :: vs) → (us ++ u :: vs).Nodup → b ∉ us ++ u :: vs →
      Linked (Function.update next u (some b)) start (us ++ u :: b :: vs) := by
  induction us with
  | nil =>
    intro start h hnodup hmem
    obtain ⟨hu, -⟩ := List.nodup_cons.mp hnodup
    obtain ⟨hbu, -⟩ := not_or.mp (mt List.mem_cons.mpr hmem)
    refine ⟨h.1, ?_⟩
    rw [Function.update_self]
    refine ⟨rfl, ?_⟩
    rw [Function.update_of_ne hbu, hb, ← Linked.next_eq_head h]
    exact h.2.update hu _
  | cons a us ih =>
    intro start h hnodup hmem
    obtain ⟨ha, hnodup⟩ := List.nodup_cons.mp hnodup
    obtain ⟨-, hmem⟩ := not_or.mp (mt List.mem_cons.mpr hmem)
    have hne : a ≠ u := by
      rintro rfl
      exact ha (List.mem_append_right us List.mem_cons_self)
    refine ⟨h.1, ?_⟩
    rw [Function.update_of_ne hne]
    exact ih h.2 hnodup hmem

/-- The node behind `b` is taken out. -/
theorem Linked.remove {next : A → Option A} {us vs : List A} {b z : A} :
    ∀ {start : Option A}, Linked next start (us ++ b :: z :: vs) → (us ++ b :: z :: vs).Nodup →
      Linked (Function.update next b (next z)) start (us ++ b :: vs) := by
  induction us with
  | nil =>
    rintro start ⟨hb, hz, hrest⟩ hnodup
    have hmem : b ∉ vs := fun h => (List.nodup_cons.mp hnodup).1 (List.mem_cons_of_mem z h)
    refine ⟨hb, ?_⟩
    rw [Function.update_self]
    exact hrest.update hmem _
  | cons a us ih =>
    rintro start ⟨ha, hrest⟩ hnodup
    obtain ⟨hmem, hnodup⟩ := List.nodup_cons.mp hnodup
    have hne : a ≠ b := by
      rintro rfl
      exact hmem (by simp)
    refine ⟨ha, ?_⟩
    rw [Function.update_of_ne hne]
    exact ih hrest hnodup

end RtThread.Lib.Chain
