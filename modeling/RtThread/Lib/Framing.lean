import Mathlib

/-!
# Streams cut into frames

A frame ends with the first symbol at which `done` holds of what has come since the last one. The frames are a function
of the stream: they do not depend on how it arrives.
-/

namespace RtThread.Lib.Framing

variable {α : Type*} {done : List α → Prop} {taken xs : List α} {segs : List (List α)} {cur : List α}

/-- No beginning of `xs` is a frame. -/
def Unfinished (done : List α → Prop) (xs : List α) : Prop := ∀ ys, ys ≠ [] → ys <+: xs → ¬done ys

/-- `xs` is a frame, and no shorter beginning of it is one. -/
def Frame (done : List α → Prop) (xs : List α) : Prop :=
  xs ≠ [] ∧ done xs ∧ ∀ ys, ys ≠ [] → ys <+: xs → ys ≠ xs → ¬done ys

/-- `taken` is the frames `segs`, and the beginning `cur` of another one. -/
structure Framed (done : List α → Prop) (taken : List α) (segs : List (List α)) (cur : List α) : Prop where
  split : taken = segs.flatten ++ cur
  frame : ∀ xs ∈ segs, Frame done xs
  unfinished : Unfinished done cur

theorem Framed.nil : Framed done ([] : List α) [] [] :=
  ⟨rfl, fun _ h => (List.not_mem_nil h).elim, fun _ hne h => (hne (List.prefix_nil.mp h)).elim⟩

theorem prefix_concat_iff {ys : List α} {x : α} : ys <+: cur ++ [x] ↔ ys = cur ++ [x] ∨ ys <+: cur :=
  List.prefix_concat_iff

/-- A symbol that ends no frame. -/
theorem Framed.push (h : Framed done taken segs cur) {x : α} (hx : ¬done (cur ++ [x])) :
    Framed done (taken ++ [x]) segs (cur ++ [x]) where
  split := by rw [h.split, List.append_assoc]
  frame := h.frame
  unfinished ys hne hpre := by
    obtain rfl | hpre := prefix_concat_iff.mp hpre
    · exact hx
    · exact h.unfinished ys hne hpre

/-- A symbol that ends a frame. -/
theorem Framed.close (h : Framed done taken segs cur) {x : α} (hx : done (cur ++ [x])) :
    Framed done (taken ++ [x]) (segs ++ [cur ++ [x]]) [] where
  split := by simp [h.split]
  frame ys hys := by
    obtain hys | hys := List.mem_append.mp hys
    · exact h.frame ys hys
    · rw [List.mem_singleton.mp hys]
      refine ⟨by simp, hx, fun zs hne hpre hshort => ?_⟩
      exact h.unfinished zs hne ((prefix_concat_iff.mp hpre).resolve_left hshort)
  unfinished ys hne hpre := (hne (List.prefix_nil.mp hpre)).elim

theorem Frame.eq_of_prefix {ys zs : List α} (hx : Frame done xs) (hy : Frame done ys) (h : xs <+: zs) (h' : ys <+: zs) :
    xs = ys := by
  by_contra hne
  obtain hxy | hyx := List.prefix_or_prefix_of_prefix h h'
  · exact hy.2.2 xs hx.1 hxy hne hx.2.1
  · exact hx.2.2 ys hy.1 hyx (Ne.symm hne) hy.2.1

/-- The frames are determined by the stream. -/
theorem Framed.unique {segs' : List (List α)} {cur' : List α} (h : Framed done taken segs cur)
    (h' : Framed done taken segs' cur') : segs = segs' ∧ cur = cur' := by
  induction segs generalizing taken segs' with
  | nil =>
    cases segs' with
    | nil =>
      have hcur := h.split.symm.trans h'.split
      simpa using hcur
    | cons ys rest =>
      -- the first frame would be a beginning of the unfinished one
      have hframe := h'.frame ys List.mem_cons_self
      have hpre : ys <+: cur := by
        have hcur := h.split.symm.trans h'.split
        rw [List.flatten_nil, List.nil_append, List.flatten_cons, List.append_assoc] at hcur
        exact hcur ▸ List.prefix_append _ _
      exact absurd hframe.2.1 (h.unfinished ys hframe.1 hpre)
  | cons xs rest ih =>
    have hframe := h.frame xs List.mem_cons_self
    have hpre : xs <+: taken := by
      rw [h.split, List.flatten_cons, List.append_assoc]
      exact List.prefix_append _ _
    cases segs' with
    | nil =>
      have hpre' : xs <+: cur' := by
        have htaken := h'.split
        rw [List.flatten_nil, List.nil_append] at htaken
        exact htaken ▸ hpre
      exact absurd hframe.2.1 (h'.unfinished xs hframe.1 hpre')
    | cons ys rest' =>
      have hsplit := h.split.symm.trans h'.split
      have hpre' : ys <+: taken := by
        rw [h'.split, List.flatten_cons, List.append_assoc]
        exact List.prefix_append _ _
      obtain rfl := hframe.eq_of_prefix (h'.frame ys List.mem_cons_self) hpre hpre'
      simp only [List.flatten_cons, List.append_assoc, List.append_cancel_left_eq] at hsplit
      have hrest : Framed done (rest.flatten ++ cur) rest cur :=
        ⟨rfl, fun zs hz => h.frame zs (List.mem_cons_of_mem _ hz), h.unfinished⟩
      obtain ⟨rfl, rfl⟩ := ih hrest ⟨hsplit, fun zs hz => h'.frame zs (List.mem_cons_of_mem _ hz), h'.unfinished⟩
      exact ⟨rfl, rfl⟩

end RtThread.Lib.Framing
