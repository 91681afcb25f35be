import Mathlib

/-!
# Doubly linked rings

`Circular next prev l`: following `next` from the first node of `l` visits the nodes of `l` in order
and comes back to the first, and `prev` leads the other way. A node is put behind another and is
taken out by assignments to the links of its neighbours.
-/

namespace RtThread.Lib.Rings

variable {A : Type*}

def Circular (next prev : A → A) : List A → Prop
  | [] => False
  | a :: l => (a :: l).map next = l ++ [a] ∧ (l ++ [a]).map prev = a :: l

/-- A ring seen from one of its nodes: `first` is where it begins, and `t` the nodes up to `a`
without the first. -/
theorem circular_cut {next prev : A → A} {us ys : List A} {a : A} : Circular next prev (us ++ a :: ys) ↔
    ∃ first t, us ++ [a] = first :: t ∧ us.map next = t ∧ (a :: ys).map next = ys ++ [first] ∧
      t.map prev = us ∧ (ys ++ [first]).map prev = a :: ys := by
  cases us with
  | nil =>
    simp only [List.nil_append, Circular]
    constructor
    · rintro ⟨hnext, hprev⟩
      exact ⟨a, [], rfl, rfl, hnext, rfl, hprev⟩
    · rintro ⟨first, t, heq, -, hnext, -, hprev⟩
      cases heq
      exact ⟨hnext, hprev⟩
  | cons x us =>
    have hlen : ∀ f : A → A, ((x :: us).map f).length = (us ++ [a]).length := by simp
    have hsplit : us ++ a :: ys ++ [x] = (us ++ [a]) ++ (ys ++ [x]) := by simp
    simp only [Circular, List.cons_append]
    rw [hsplit, List.map_append, ← List.cons_append, List.map_append, ← List.cons_append]
    constructor
    · rintro ⟨hnext, hprev⟩
      obtain ⟨hn₁, hn₂⟩ := List.append_inj hnext (hlen next)
      obtain ⟨hp₁, hp₂⟩ := List.append_inj hprev (by simp)
      exact ⟨x, us ++ [a], rfl, hn₁, hn₂, hp₁, hp₂⟩
    · rintro ⟨first, t, heq, hn₁, hn₂, hp₁, hp₂⟩
      obtain ⟨rfl, rfl⟩ := List.cons.inj (show x :: (us ++ [a]) = first :: t from heq)
      exact ⟨by rw [hn₁, hn₂], by rw [hp₁, hp₂]⟩

theorem Circular.congr {next prev next' prev' : A → A} {l : List A} (h : Circular next prev l)
    (hnext : ∀ a ∈ l, next' a = next a) (hprev : ∀ a ∈ l, prev' a = prev a) : Circular next' prev' l := by
  cases l with
  | nil => exact h
  | cons a l =>
    refine ⟨(List.map_congr_left hnext).trans h.1, (List.map_congr_left fun b hb => hprev b ?_).trans h.2⟩
    rcases List.mem_append.mp hb with hb | hb
    · exact List.mem_cons_of_mem a hb
    · exact List.mem_singleton.mp hb ▸ List.mem_cons_self

/-- Neighbours are linked both ways. -/
theorem Circular.links {next prev : A → A} {us ys : List A} {a b : A} (h : Circular next prev (us ++ a :: b :: ys)) :
    next a = b ∧ prev b = a := by
  obtain ⟨first, t, -, -, hnext, -, hprev⟩ := circular_cut.mp h
  simp only [List.map_cons, List.cons_append, List.cons.injEq] at hnext hprev
  exact ⟨hnext.1, hprev.1⟩

theorem Circular.links_last {next prev : A → A} {l : List A} {a b : A} (h : Circular next prev (a :: l ++ [b])) :
    next b = a ∧ prev a = b := by
  obtain ⟨first, t, heq, -, hnext, -, hprev⟩ := circular_cut.mp h
  cases heq
  simpa using And.intro hnext hprev

theorem Circular.next_ne {next prev : A → A} {us ys : List A} {a p : A} (h : Circular next prev (us ++ a :: p :: ys))
    (hnodup : (us ++ a :: p :: ys).Nodup) : next p ≠ p := by
  rw [List.append_cons] at h hnodup
  cases ys with
  | nil =>
    obtain ⟨x, l, hx⟩ : ∃ x l, us ++ [a] = x :: l := List.exists_cons_of_ne_nil (by simp)
    rw [hx] at h hnodup
    rw [h.links_last.1]
    rintro rfl
    exact (List.nodup_cons.mp hnodup).1 (by simp)
  | cons y ys =>
    rw [h.links.1]
    rintro rfl
    have hcons := (List.nodup_append.mp hnodup).2.1
    exact (List.nodup_cons.mp hcons).1 List.mem_cons_self

/-- The links lead from nodes to nodes. -/
theorem Circular.next_mem {next prev : A → A} {l : List A} {a : A} (h : Circular next prev l) (ha : a ∈ l) :
    next a ∈ l := by
  cases l with
  | nil => cases ha
  | cons b l =>
    have hmem : next a ∈ l ++ [b] := h.1 ▸ List.mem_map_of_mem ha
    exact (List.perm_append_singleton b l).mem_iff.mp hmem

theorem Circular.prev_mem {next prev : A → A} {l : List A} {a : A} (h : Circular next prev l) (ha : a ∈ l) :
    prev a ∈ l := by
  cases l with
  | nil => cases ha
  | cons b l =>
    have hrot : a ∈ l ++ [b] := (List.perm_append_singleton b l).mem_iff.mpr ha
    have hmem : prev a ∈ (l ++ [b]).map prev := List.mem_map_of_mem hrot
    exact h.2 ▸ hmem

variable [DecidableEq A]

theorem map_update {f : A → A} {l : List A} {a : A} (ha : a ∉ l) (x : A) :
    l.map (Function.update f a x) = l.map f := by
  refine List.map_congr_left fun b hb => Function.update_of_ne ?_ _ _
  rintro rfl
  exact ha hb

/-- A new node is put behind `a`. -/
theorem Circular.insert {next prev : A → A} {us ys : List A} {a q : A} (h : Circular next prev (us ++ a :: ys))
    (hnodup : (us ++ a :: ys).Nodup) (hq : q ∉ us ++ a :: ys) :
    Circular (Function.update (Function.update next q (next a)) a q)
      (Function.update (Function.update prev q a) (next a) q) (us ++ a :: q :: ys) := by
  obtain ⟨first, t, heq, hn, hnext, hp, hprev⟩ := circular_cut.mp h
  -- `b` is the node behind `a` so far
  obtain ⟨b, w, hbw⟩ : ∃ b w, ys ++ [first] = b :: w := List.exists_cons_of_ne_nil (by simp)
  rw [hbw] at hnext hprev
  simp only [List.map_cons, List.cons.injEq] at hnext hprev
  obtain ⟨hab, hyw⟩ := hnext
  obtain ⟨hba, hwy⟩ := hprev
  have hrot : ((first :: t) ++ ys).Nodup := by
    rw [← heq, List.append_assoc]
    exact hnodup
  have hrot' : (t ++ (b :: w)).Nodup := by
    rw [← hbw, ← List.append_assoc]
    exact (List.perm_append_singleton _ _).nodup_iff.mpr hrot
  have hmem : ∀ x, x ∈ t ++ b :: w ↔ x ∈ us ++ a :: ys := by
    intro x
    have h1 : x ∈ us ++ a :: ys ↔ x ∈ (first :: t) ++ ys := by
      rw [← heq, List.append_assoc]
      rfl
    rw [h1, ← hbw]
    simp only [List.mem_append, List.mem_cons, List.not_mem_nil, or_false]
    tauto
  obtain ⟨-, hbw', htb⟩ := List.nodup_append.mp hrot'
  have hbt : b ∉ t := fun hb => htb b hb b List.mem_cons_self rfl
  have hqt : q ∉ t ++ b :: w := fun hqm => hq ((hmem q).mp hqm)
  simp only [List.mem_append, List.mem_cons, not_or] at hqt hq
  obtain ⟨-, hays, husa⟩ := List.nodup_append.mp hnodup
  have haus : a ∉ us := fun ha => husa a ha a List.mem_cons_self rfl
  rw [hab]
  refine circular_cut.mpr ⟨first, t, heq, ?_, ?_, ?_, ?_⟩
  · rw [map_update haus, map_update hq.1, hn]
  · rw [List.cons_append, hbw]
    simp only [List.map_cons, Function.update_self, Function.update_of_ne hq.2.1]
    rw [map_update (List.nodup_cons.mp hays).1, map_update hq.2.2, hyw]
  · rw [map_update hbt, map_update hqt.1, hp]
  · rw [List.cons_append, hbw]
    simp only [List.map_cons, Function.update_self, Function.update_of_ne hqt.2.1]
    rw [map_update (List.nodup_cons.mp hbw').1, map_update hqt.2.2, hwy]

/-- The node `p` behind `a` is taken out. -/
theorem Circular.remove {next prev : A → A} {us ys : List A} {a p : A} (h : Circular next prev (us ++ a :: p :: ys))
    (hnodup : (us ++ a :: p :: ys).Nodup) :
    Circular (Function.update next a (next p)) (Function.update prev (next p) a) (us ++ a :: ys) := by
  obtain ⟨first, t, heq, hn, hnext, hp, hprev⟩ := circular_cut.mp h
  obtain ⟨b, w, hbw⟩ : ∃ b w, ys ++ [first] = b :: w := List.exists_cons_of_ne_nil (by simp)
  rw [List.cons_append, hbw] at hnext hprev
  simp only [List.map_cons, List.cons.injEq] at hnext hprev
  obtain ⟨-, hpb, hyw⟩ := hnext
  obtain ⟨-, hbp, hwy⟩ := hprev
  have hsub : List.Sublist (us ++ a :: ys) (us ++ a :: p :: ys) :=
    (List.Sublist.refl us).append ((List.sublist_cons_self p ys).cons_cons a)
  have hnodup' := hnodup.sublist hsub
  have hrot : (t ++ (b :: w)).Nodup := by
    rw [← hbw, ← List.append_assoc]
    refine (List.perm_append_singleton _ _).nodup_iff.mpr ?_
    rw [← List.cons_append, ← heq, List.append_assoc]
    exact hnodup'
  obtain ⟨-, hbw', htb⟩ := List.nodup_append.mp hrot
  have hbt : b ∉ t := fun hb => htb b hb b List.mem_cons_self rfl
  obtain ⟨-, hays, husa⟩ := List.nodup_append.mp hnodup'
  have haus : a ∉ us := fun ha => husa a ha a List.mem_cons_self rfl
  rw [hpb]
  refine circular_cut.mpr ⟨first, t, heq, ?_, ?_, ?_, ?_⟩
  · rw [map_update haus, hn]
  · rw [hbw]
    simp only [List.map_cons, Function.update_self]
    rw [map_update (List.nodup_cons.mp hays).1, hyw]
  · rw [map_update hbt, hp]
  · rw [hbw]
    simp only [List.map_cons, Function.update_self]
    rw [map_update (List.nodup_cons.mp hbw').1, hwy]

end RtThread.Lib.Rings
