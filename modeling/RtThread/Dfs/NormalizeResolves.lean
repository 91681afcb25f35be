import RtThread.Dfs.Lookup
import RtThread.Dfs.NormalizeInPlace

/-!
# What normalising a path gives

A filename is resolved against a directory, component by component. A `..` at the root leads above it, where the
rewriting of the text goes on for one level.
-/

namespace RtThread.Dfs.NormalizeResolves

open RtThread.Dfs.NormalizePath RtThread.Dfs.NormalizeInPlace RtThread.Dfs.Lookup

/-- A text that begins with a slash and has no slash at its end, no empty component, no `.` and no `..`. -/
def Clean (p : Path) : Prop :=
  p = ['/'] ∨ p.head? = some '/' ∧ ∀ w ∈ p.tail.splitOnP (· == '/'), w ≠ [] ∧ w ≠ ['.'] ∧ w ≠ ['.', '.']

/-- A step of the resolution; it stays at the root. -/
def climb (names : List Name) : Component → List Name
  | .here => names
  | .parent => names.tail
  | .name n => n :: names

/-- Where a filename is resolved from. -/
def origin (names : List Name) (filename : Path) : List Name := if filename.head? = some '/' then [] else names

/-- The components that a filename is resolved to, the innermost first. -/
def target (names : List Name) (filename : Path) : List Name := (components filename).foldl climb (origin names filename)

def rise : Component → ℤ
  | .here => 0
  | .parent => -1
  | .name _ => 1

/-- The lowest level that some components lead to, from a level above. -/
def lowest : ℤ → List Component → ℤ
  | level, [] => level
  | level, c :: cs => min level (lowest (level + rise c) cs)

/-- The lowest level that a filename leads to; the root is at 0. -/
def deepest (names : List Name) (filename : Path) : ℤ := lowest (origin names filename).length (components filename)

/-- What `dfs_normalize_path` is for: nothing where memory is missing or the filename leads above the root, or
else the resolved path, which it leaves as it is. -/
inductive Right (names : List Name) (malloc : Bool) (filename : Path) : Option (Option Path) → Prop where
  | null (h : malloc = false ∨ deepest names filename < 0) : Right names malloc filename (some none)
  | path (p : Path) (clean : Clean p) (resolved : p = Place.text ⟨true, target names filename⟩)
      (fixed : ∀ workdir directory, NormalizeInPlace.dfsNormalizePath workdir true directory p = some (some p)) :
      Right names malloc filename (some (some p))

/-! ### The walk and its levels -/

theorem lowest_le (level : ℤ) (cs : List Component) : lowest level cs ≤ level := by
  cases cs with
  | nil => exact le_rfl
  | cons c cs => exact min_le_left _ _

theorem lowest_add (level k : ℤ) (cs : List Component) : lowest (level + k) cs = lowest level cs + k := by
  induction cs generalizing level with
  | nil => rfl
  | cons c cs ih =>
    rw [lowest, lowest, add_right_comm, ih]
    omega

theorem rise_name (names : List Name) (n : Name) :
    (names.length : ℤ) + rise (.name n) = (n :: names).length := by
  rw [rise, List.length_cons]
  omega

theorem rise_parent (n : Name) (names : List Name) : ((n :: names).length : ℤ) + rise .parent = names.length := by
  rw [rise, List.length_cons]
  omega

theorem walk_unrooted (names : List Name) (cs : List Component) :
    (0 ≤ lowest names.length cs ∧ ∃ ms, Place.walk ⟨false, names⟩ cs = some ⟨false, ms⟩) ∨
      (lowest names.length cs < 0 ∧ Place.walk ⟨false, names⟩ cs = none) := by
  -- a step to a place that is not above the first one
  have hstep : ∀ {level low : ℤ} {P Q : Prop}, 0 ≤ level → 0 ≤ low ∧ P ∨ low < 0 ∧ Q →
      0 ≤ min level low ∧ P ∨ min level low < 0 ∧ Q := fun hlevel h =>
    h.imp (And.imp_left (le_min hlevel)) (And.imp_left min_lt_of_right_lt)
  induction cs generalizing names with
  | nil => exact Or.inl ⟨Int.natCast_nonneg _, names, rfl⟩
  | cons c cs ih =>
    rw [lowest]
    cases c with
    | here =>
      rw [rise, add_zero]
      exact hstep (Int.natCast_nonneg _) (ih names)
    | name n =>
      rw [rise_name]
      exact hstep (Int.natCast_nonneg _) (ih (n :: names))
    | parent =>
      cases names with
      | nil =>
        have hlow := lowest_le (([] : List Name).length + rise .parent) cs
        refine Or.inr ⟨?_, rfl⟩
        simp only [rise, List.length_nil] at hlow ⊢
        omega
      | cons n names =>
        rw [rise_parent]
        exact hstep (Int.natCast_nonneg _) (ih names)

theorem walk_rooted (names : List Name) (cs : List Component) :
    (0 ≤ lowest names.length cs ∧ Place.walk ⟨true, names⟩ cs = some ⟨true, cs.foldl climb names⟩) ∨
      (lowest names.length cs = -1 ∧ ∃ ms, Place.walk ⟨true, names⟩ cs = some ⟨false, ms⟩) ∨
      (lowest names.length cs < -1 ∧ Place.walk ⟨true, names⟩ cs = none) := by
  have hstep : ∀ {level low : ℤ} {P Q R : Prop}, 0 ≤ level → 0 ≤ low ∧ P ∨ low = -1 ∧ Q ∨ low < -1 ∧ R →
      0 ≤ min level low ∧ P ∨ min level low = -1 ∧ Q ∨ min level low < -1 ∧ R := by
    rintro level low P Q R hlevel (⟨hlow, h⟩ | ⟨hlow, h⟩ | ⟨hlow, h⟩)
    · exact Or.inl ⟨le_min hlevel hlow, h⟩
    · exact Or.inr (Or.inl ⟨by omega, h⟩)
    · exact Or.inr (Or.inr ⟨min_lt_of_right_lt hlow, h⟩)
  induction cs generalizing names with
  | nil => exact Or.inl ⟨Int.natCast_nonneg _, rfl⟩
  | cons c cs ih =>
    rw [lowest]
    cases c with
    | here =>
      rw [rise, add_zero]
      exact hstep (Int.natCast_nonneg _) (ih names)
    | name n =>
      rw [rise_name]
      exact hstep (Int.natCast_nonneg _) (ih (n :: names))
    | parent =>
      cases names with
      | nil =>
        -- the walk leaves the root
        have hshift := lowest_add 0 (-1) cs
        have hlevel : (([] : List Name).length : ℤ) + rise .parent = 0 + -1 := rfl
        have hle := lowest_le 0 cs
        have hwalk : Place.walk ⟨true, []⟩ (.parent :: cs) = Place.walk ⟨false, []⟩ cs := rfl
        rw [hlevel, hshift, hwalk]
        rcases walk_unrooted [] cs with ⟨hlow, hrest⟩ | ⟨hlow, hrest⟩
        · refine Or.inr (Or.inl ⟨?_, hrest⟩)
          simp only [List.length_nil, Nat.cast_zero] at hlow ⊢
          omega
        · refine Or.inr (Or.inr ⟨?_, hrest⟩)
          simp only [List.length_nil, Nat.cast_zero] at hlow ⊢
          omega
      | cons n names =>
        rw [rise_parent]
        exact hstep (Int.natCast_nonneg _) (ih names)

/-! ### The texts -/

theorem components_flat_append (names : List Name) (filename : Path) :
    components (flat names ++ '/' :: filename) = names.map Component.name ++ components filename := by
  induction names with
  | nil => exact components_slash filename
  | cons n names ih =>
    have hword : Component.ofWord n.text = some (.name n) := by
      rw [Component.ofWord, dif_neg n.ne_nil, dif_neg n.ne_here, dif_neg n.ne_parent, dif_neg n.no_slash]
    have hbehind : ∃ rest, flat names ++ '/' :: filename = '/' :: rest := by
      cases names with
      | nil => exact ⟨filename, rfl⟩
      | cons m names => exact ⟨_, rfl⟩
    obtain ⟨rest, hrest⟩ := hbehind
    rw [hrest, components_slash] at ih
    have hsplit : flat (n :: names) ++ '/' :: filename = '/' :: (n.text ++ '/' :: rest) := by
      rw [← hrest, ← List.append_assoc]
      rfl
    rw [hsplit, components_slash, components_word_append n.no_slash, hword, ih]
    rfl

theorem walk_append (cs ds : List Component) (p : Place) : p.walk (cs ++ ds) = (p.walk cs).bind fun q => q.walk ds := by
  induction cs generalizing p with
  | nil => rfl
  | cons c cs ih =>
    rw [List.cons_append, Place.walk, Place.walk]
    cases p.go c with
    | none => rfl
    | some q => exact ih q

theorem resolve_fullText (names : List Name) (workdir : Option Path) (filename : Path) :
    ∃ text, fullText workdir (some (Place.text ⟨true, names⟩)) filename = some text ∧
      (∀ c ∈ text, c ∈ Place.text ⟨true, names⟩ ∨ c = '/' ∨ c ∈ filename) ∧
      resolve text = Place.walk ⟨true, origin names filename⟩ (components filename) := by
  by_cases habs : filename.head? = some '/'
  · refine ⟨filename, if_pos habs, fun c hc => Or.inr (Or.inr hc), ?_⟩
    rw [resolve, habs, origin, if_pos habs, decide_eq_true rfl]
  · refine ⟨Place.text ⟨true, names⟩ ++ '/' :: filename, if_neg habs, fun c hc => ?_, ?_⟩
    · rwa [List.mem_append, List.mem_cons] at hc
    · have hhead : (Place.text ⟨true, names⟩ ++ '/' :: filename).head? = some '/' := by
        rw [List.head?_append, head_text_rooted]
        rfl
      have hcomponents : components (Place.text ⟨true, names⟩ ++ '/' :: filename) =
          names.reverse.map Component.name ++ components filename := by
        rcases eq_or_ne names [] with rfl | hne
        · exact (components_slash _).trans (components_slash _)
        · rw [text_rooted names hne, components_flat_append]
      rw [resolve, hhead, decide_eq_true rfl, hcomponents, walk_append, walk_names, origin, if_neg habs, List.reverse_reverse,
        List.append_nil, Option.bind_some]

theorem splitOnP_flat (n : Name) (names : List Name) :
    (n.text ++ flat names).splitOnP (· == '/') = n.text :: names.map Name.text := by
  have hplain : ∀ n : Name, ∀ c ∈ n.text, (c == '/') = false :=
    fun n c hc => beq_false_of_ne (bne_iff_ne.mp (bne_slash_of_not_mem n.no_slash c hc))
  induction names generalizing n with
  | nil =>
    rw [flat, List.flatMap_nil, List.append_nil]
    exact List.splitOnP_eq_singleton (hplain n)
  | cons m names ih =>
    rw [List.map_cons, ← ih m]
    exact List.splitOnP_append_cons_of_forall_mem (hplain n) '/' (by decide) _

theorem clean_text (names : List Name) : Clean (Place.text ⟨true, names⟩) := by
  rcases eq_or_ne names [] with rfl | hne
  · exact Or.inl rfl
  · refine Or.inr ⟨head_text_rooted names, ?_⟩
    rw [text_rooted names hne]
    obtain ⟨n, ns, hns⟩ := List.exists_cons_of_ne_nil (List.reverse_ne_nil_iff.mpr hne)
    have htail : (flat (n :: ns)).tail = n.text ++ flat ns := rfl
    rw [hns, htail, splitOnP_flat, ← List.map_cons]
    exact List.forall_mem_map.mpr fun m _ => ⟨m.ne_nil, m.ne_here, m.ne_parent⟩

theorem written_ne_nil {names : List Name} {d : Path} (h : Written ⟨true, names⟩ d) : d ≠ [] := by
  cases h with
  | buffer => exact List.append_ne_nil_of_right_ne_nil _ (List.cons_ne_nil _ _)
  | name n names hnames =>
    exact List.append_ne_nil_of_left_ne_nil (List.reverse_ne_nil_iff.mpr n.ne_nil) _

theorem nul_finish {d : Path} (h : nul ∉ d) : nul ∉ finish d := by
  by_cases hslash : ∃ e t, d = '/' :: e :: t
  · obtain ⟨e, t, rfl⟩ := hslash
    rw [finish_slash, List.mem_reverse]
    exact fun hmem => h (List.mem_cons_of_mem _ hmem)
  · rcases eq_or_ne d [] with rfl | hne
    · decide
    · rw [finish_plain hne fun e t he => hslash ⟨e, t, he⟩, List.mem_reverse]
      exact h

theorem rewriteText_rooted {text : Path} (hnul : nul ∉ text) {names : List Name}
    (hresolve : resolve text = some ⟨true, names⟩) :
    rewriteText text = some (some (Place.text ⟨true, names⟩)) ∧ nul ∉ Place.text ⟨true, names⟩ := by
  have hwritten := scan_resolve text
  rw [hresolve] at hwritten
  rw [rewriteText_eq hnul]
  generalize hscan : scan text [] = r at hwritten ⊢
  cases hwritten with
  | some h =>
    rw [Option.elim_some, if_neg (written_ne_nil h), h.finish]
    refine ⟨rfl, ?_⟩
    rw [← h.finish]
    exact nul_finish (nul_scan text [] hnul List.not_mem_nil hscan)

/-- A text that leads one level above the root is rewritten to a path that does not begin there, or there is an
access outside of the text. -/
theorem rewriteText_unrooted {text : Path} (hnul : nul ∉ text) {names : List Name}
    (hresolve : resolve text = some ⟨false, names⟩) :
    rewriteText text = none ∨ ∃ p, rewriteText text = some (some p) ∧ p.head? ≠ some '/' := by
  have hwritten := scan_resolve text
  rw [hresolve] at hwritten
  rw [rewriteText_eq hnul]
  generalize scan text [] = r at hwritten
  cases hwritten with
  | some h =>
    rename_i d
    rw [Option.elim_some]
    by_cases hd : d = []
    · exact Or.inl (if_pos hd)
    · refine Or.inr ⟨Place.text ⟨false, names⟩, by rw [if_neg hd, h.finish], ?_⟩
      cases names with
      | nil =>
        cases h with
        | buffer => exact absurd rfl hd
        | name n names hnames => cases hnames
      | cons n names => exact head_text_unrooted n names

theorem rewriteText_null {text : Path} (hnul : nul ∉ text) (hresolve : resolve text = none) : rewriteText text = some none := by
  have hwritten := scan_resolve text
  rw [hresolve] at hwritten
  rw [rewriteText_eq hnul]
  generalize scan text [] = r at hwritten
  cases hwritten with
  | none => rfl

/-- `dfs_normalize_path` does what it is for exactly if memory is missing, or the filename does not lead above
the root or leads above it by more than one level. -/
theorem normalize_right_iff (names : List Name) (hnames : nul ∉ Place.text ⟨true, names⟩) (workdir : Option Path)
    (malloc : Bool) (filename : Path) (hfilename : nul ∉ filename) :
    Right names malloc filename
        (NormalizeInPlace.dfsNormalizePath workdir malloc (some (Place.text ⟨true, names⟩)) filename) ↔
      malloc = false ∨ deepest names filename ≠ -1 := by
  obtain ⟨text, htext, hchars, hresolve⟩ := resolve_fullText names workdir filename
  rw [NormalizeInPlace.dfsNormalizePath, htext]
  simp only
  cases malloc with
  | false => exact iff_of_true (.null (Or.inl rfl)) (Or.inl rfl)
  | true =>
    have hnul : nul ∉ text := by
      intro hmem
      rcases hchars nul hmem with hc | hc | hc
      · exact hnames hc
      · exact absurd hc (by decide)
      · exact hfilename hc
    rw [if_pos rfl, or_iff_right Bool.true_eq_false_eq_False]
    rcases walk_rooted (origin names filename) (components filename) with ⟨hlow, hwalk⟩ | ⟨hlow, ms, hwalk⟩ | ⟨hlow, hwalk⟩
    · refine iff_of_true ?_ ?_
      · obtain ⟨hresult, hclean⟩ := rewriteText_rooted hnul (hresolve.trans hwalk)
        rw [hresult]
        refine .path _ (clean_text _) rfl fun workdir directory => ?_
        rw [NormalizeInPlace.dfsNormalizePath, fullText, if_pos (head_text_rooted _)]
        exact (rewriteText_rooted hclean (resolve_text_rooted _)).1
      · rw [deepest]
        omega
    · refine iff_of_false ?_ (not_not.mpr hlow)
      intro hright
      rcases rewriteText_unrooted hnul (hresolve.trans hwalk) with hnone | ⟨p, hp, hhead⟩
      · rw [hnone] at hright
        cases hright
      · rw [hp] at hright
        cases hright with
        | path p clean resolved fixed =>
          rw [resolved] at hhead
          exact hhead (head_text_rooted _)
    · have hdeep : deepest names filename < -1 := hlow
      rw [rewriteText_null hnul (hresolve.trans hwalk)]
      exact iff_of_true (.null (Or.inr (by omega))) (by omega)

def usr : Name := ⟨"usr".toList, by decide, by decide, by decide, by decide⟩

theorem normalize_right_iff_parent :
    Right [usr] true "../etc//./x/..".toList
        (NormalizeInPlace.dfsNormalizePath none true (some "/usr".toList) "../etc//./x/..".toList) :=
  (normalize_right_iff [usr] (by decide) none true "../etc//./x/..".toList (by decide)).mpr (Or.inr (by decide))

/-- Above the root a name makes a path that does not begin with a slash, and without one the memory before the
text is read. -/
theorem above_root_wrong :
    (NormalizeInPlace.dfsNormalizePath none true (some "/usr".toList) "/../a".toList = some (some "a".toList) ∧
      ¬Right [usr] true "/../a".toList
        (NormalizeInPlace.dfsNormalizePath none true (some "/usr".toList) "/../a".toList)) ∧
      NormalizeInPlace.dfsNormalizePath none true (some "/usr".toList) "/..".toList = none ∧
        ¬Right [usr] true "/..".toList (NormalizeInPlace.dfsNormalizePath none true (some "/usr".toList) "/..".toList) := by
  have hname : NormalizeInPlace.dfsNormalizePath none true (some "/usr".toList) "/../a".toList = some (some "a".toList) := by
    decide
  have hroot : NormalizeInPlace.dfsNormalizePath none true (some "/usr".toList) "/..".toList = none := by decide
  refine ⟨⟨hname, fun h => ?_⟩, hroot, fun h => ?_⟩
  · rw [hname] at h
    cases h with
    | path p clean resolved fixed =>
      revert resolved
      decide
  · rw [hroot] at h
    cases h

end RtThread.Dfs.NormalizeResolves
