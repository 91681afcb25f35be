import Mathlib

/-!
# Normalising a path (`dfs.c:374-496`)

`dfs_normalize_path` rewrites a text in place. The scan reads and writes characters; what it computes is a
walk over the components of the text, which `dfsNormalizePath_eq` states.
-/

namespace RtThread.Dfs.NormalizePath

/-- A C string without its terminator. -/
abbrev Path := List Char

def skipSlashes (src : Path) : Path := src.dropWhile (· == '/')

/-- The label `up_one` (`dfs.c:468-475`). The text written so far stands last character first. -/
def upOne : Path → Option Path
  | [] => none
  | _ :: dst => some (dst.dropWhile (· != '/'))

theorem skipSlashes_length_le (src : Path) : (skipSlashes src).length ≤ src.length :=
  (List.dropWhile_suffix _).length_le

/-- The loop (`dfs.c:414-476`): `src` is the text still to be read, and it returns what is written. -/
def scan : Path → Path → Option Path
  | ['.'], dst => scan [] dst
  | '.' :: '/' :: src, dst => scan (skipSlashes src) dst
  | ['.', '.'], dst => (upOne dst).bind fun dst => scan [] dst
  | '.' :: '.' :: '/' :: src, dst => (upOne dst).bind fun dst => scan (skipSlashes src) dst
  | src, dst =>
    match _hrest : src.dropWhile (· != '/') with
    | [] => some (src.reverse ++ dst)
    | _ :: rest => scan (skipSlashes rest) ('/' :: ((src.takeWhile (· != '/')).reverse ++ dst))
termination_by src => src.length
decreasing_by
  · simp only [List.length_cons, List.length_nil, Nat.zero_lt_succ]
  · have hle := skipSlashes_length_le src
    simp only [List.length_cons]
    omega
  · simp only [List.length_cons, List.length_nil, Nat.zero_lt_succ]
  · have hle := skipSlashes_length_le src
    simp only [List.length_cons]
    omega
  · have hle := skipSlashes_length_le rest
    have hdrop := (List.dropWhile_suffix (l := src) (· != '/')).length_le
    rw [_hrest, List.length_cons] at hdrop
    omega

/-- The end of the function (`dfs.c:478-492`). -/
def finish (dst : Path) : Path :=
  let fullpath :=
    match dst with
    | '/' :: c :: dst => (c :: dst).reverse
    | dst => dst.reverse
  if fullpath = [] then ['/'] else fullpath

/-- The text that is rewritten (`dfs.c:382-411`); `workdir` is `working_directory` where the build has one. -/
def fullText (workdir directory : Option Path) (filename : Path) : Option Path :=
  if filename.head? = some '/' then some filename
  else (directory.or workdir).map fun directory => directory ++ '/' :: filename

/-- `dfs_normalize_path` (`dfs.c:374-496`). -/
def dfsNormalizePath (workdir : Option Path) (malloc : Bool) (directory : Option Path) (filename : Path) : Option Path :=
  (fullText workdir directory filename).bind fun text => if malloc then (scan text []).map finish else none

/-! ### Components -/

/-- A component that stands for itself. -/
structure Name where
  text : Path
  ne_nil : text ≠ []
  no_slash : '/' ∉ text
  ne_here : text ≠ ['.']
  ne_parent : text ≠ ['.', '.']
  deriving DecidableEq

inductive Component where
  | here
  | parent
  | name (n : Name)
  deriving DecidableEq

/-- The component between two slashes; there is none in `//`. -/
def Component.ofWord (w : Path) : Option Component :=
  if hnil : w = [] then none
  else if hhere : w = ['.'] then some .here
  else if hparent : w = ['.', '.'] then some .parent
  else if hslash : '/' ∈ w then none
  else some (.name ⟨w, hnil, hslash, hhere, hparent⟩)

def components (p : Path) : List Component := (p.splitOnP (· == '/')).filterMap Component.ofWord

/-- Where a walk has come: down the names, innermost first, from the root, or from above it. -/
structure Place where
  rooted : Bool
  names : List Name
  deriving DecidableEq

def Place.go (p : Place) : Component → Option Place
  | .here => some p
  | .parent =>
    match p.names with
    | _ :: names => some { p with names := names }
    | [] => if p.rooted then some ⟨false, []⟩ else none
  | .name n => some { p with names := n :: p.names }

def Place.walk : Place → List Component → Option Place
  | p, [] => some p
  | p, c :: cs => (p.go c).bind fun p => p.walk cs

def resolve (text : Path) : Option Place := Place.walk ⟨text.head? = some '/', []⟩ (components text)

def Place.text (p : Place) : Path :=
  match p.names with
  | [] => ['/']
  | n :: names =>
    let text := (n :: names).reverse.flatMap fun n => '/' :: n.text
    if p.rooted then text else text.tail

/-- A path from the root, every component of which is a name. -/
def Normalized (p : Path) : Prop := ∃ names, p = Place.text ⟨true, names⟩

/-! ### The scan reads one component after the other -/

theorem bne_slash_of_not_mem {w : Path} (hw : '/' ∉ w) : ∀ c ∈ w, (c != '/') = true := by
  intro c hc
  rw [bne_iff_ne]
  rintro rfl
  exact hw hc

theorem dropWhile_word {w : Path} (hw : '/' ∉ w) : w.dropWhile (· != '/') = [] :=
  List.dropWhile_eq_nil_iff.mpr (bne_slash_of_not_mem hw)

theorem dropWhile_word_append {w : Path} (hw : '/' ∉ w) (rest : Path) :
    (w ++ '/' :: rest).dropWhile (· != '/') = '/' :: rest := by
  rw [List.dropWhile_append_of_pos (bne_slash_of_not_mem hw), List.dropWhile_cons_of_neg (by decide)]

theorem takeWhile_word_append {w : Path} (hw : '/' ∉ w) (rest : Path) :
    (w ++ '/' :: rest).takeWhile (· != '/') = w := by
  rw [List.takeWhile_append_of_pos (bne_slash_of_not_mem hw), List.takeWhile_cons_of_neg (by decide), List.append_nil]

theorem scan_word {w : Path} (hw : '/' ∉ w) (hhere : w ≠ ['.']) (hparent : w ≠ ['.', '.']) (dst : Path) :
    scan w dst = some (w.reverse ++ dst) := by
  rw [scan]
  · split
    · rfl
    · next hdrop =>
      rw [dropWhile_word hw] at hdrop
      cases hdrop
  · exact hhere
  · rintro src rfl
    simp only [List.mem_cons, true_or, or_true, not_true_eq_false] at hw
  · exact hparent
  · rintro src rfl
    simp only [List.mem_cons, true_or, or_true, not_true_eq_false] at hw

theorem scan_nil (dst : Path) : scan [] dst = some dst :=
  scan_word List.not_mem_nil (List.cons_ne_nil _ _).symm (List.cons_ne_nil _ _).symm dst

theorem scan_word_append {w : Path} (hw : '/' ∉ w) (hhere : w ≠ ['.']) (hparent : w ≠ ['.', '.']) (rest dst : Path) :
    scan (w ++ '/' :: rest) dst = scan (skipSlashes rest) ('/' :: (w.reverse ++ dst)) := by
  have htake := takeWhile_word_append hw rest
  rw [scan]
  · split
    · next hdrop =>
      rw [dropWhile_word_append hw] at hdrop
      cases hdrop
    · next hdrop =>
      rw [dropWhile_word_append hw] at hdrop
      cases hdrop
      rw [htake]
  · intro he
    rw [he] at htake
    exact hhere htake.symm
  · intro src he
    rw [he] at htake
    exact hhere htake.symm
  · intro he
    rw [he] at htake
    exact hparent htake.symm
  · intro src he
    rw [he] at htake
    exact hparent htake.symm

theorem components_word {w : Path} (hw : '/' ∉ w) : components w = (Component.ofWord w).toList := by
  have hsplit : w.splitOnP (· == '/') = [w] :=
    List.splitOnP_eq_singleton fun c hc => beq_false_of_ne (bne_iff_ne.mp (bne_slash_of_not_mem hw c hc))
  rw [components, hsplit]
  cases hword : Component.ofWord w with
  | none => rw [List.filterMap_cons_none hword]; rfl
  | some c => rw [List.filterMap_cons_some hword]; rfl

theorem components_word_append {w : Path} (hw : '/' ∉ w) (rest : Path) :
    components (w ++ '/' :: rest) = (Component.ofWord w).toList ++ components rest := by
  have hsplit : (w ++ '/' :: rest).splitOnP (· == '/') = w :: rest.splitOnP (· == '/') :=
    List.splitOnP_append_cons_of_forall_mem
      (fun c hc => beq_false_of_ne (bne_iff_ne.mp (bne_slash_of_not_mem hw c hc))) '/' (by decide) rest
  rw [components, hsplit]
  cases hword : Component.ofWord w with
  | none => rw [List.filterMap_cons_none hword]; rfl
  | some c => rw [List.filterMap_cons_some hword]; rfl

theorem components_slash (p : Path) : components ('/' :: p) = components p :=
  components_word_append (w := []) List.not_mem_nil p

theorem components_skipSlashes (p : Path) : components (skipSlashes p) = components p := by
  induction p with
  | nil => rfl
  | cons c p ih =>
    by_cases hc : c = '/'
    · rw [hc, components_slash, ← ih]
      rfl
    · rw [skipSlashes, List.dropWhile_cons_of_neg]
      simpa using hc

theorem head_skipSlashes (p : Path) : (skipSlashes p).head? ≠ some '/' := by
  intro h
  have hnot := List.head?_dropWhile_not (· == '/') p
  rw [skipSlashes] at h
  rw [h] at hnot
  exact absurd hnot (by decide)

/-! ### The text written is the place reached -/

def Place.buffer (p : Place) : Path :=
  (p.names.flatMap fun n => '/' :: n.text.reverse) ++ if p.rooted then ['/'] else []

theorem Name.text_reverse (n : Name) : ∃ c w, n.text.reverse = c :: w ∧ c ≠ '/' := by
  cases hrev : n.text.reverse with
  | nil => exact absurd (List.reverse_eq_nil_iff.mp hrev) n.ne_nil
  | cons c w =>
    refine ⟨c, w, rfl, ?_⟩
    rintro rfl
    exact n.no_slash (List.mem_reverse.mp (hrev ▸ List.mem_cons_self))

theorem buffer_rooted (names : List Name) :
    '/' :: (names.flatMap fun n => n.text.reverse ++ ['/']) = Place.buffer ⟨true, names⟩ := by
  simp only [Place.buffer, if_true]
  induction names with
  | nil => rfl
  | cons n names ih =>
    simp only [List.flatMap_cons, List.cons_append, List.append_assoc, List.nil_append] at ih ⊢
    rw [ih]

theorem buffer_true (names : List Name) : Place.buffer ⟨true, names⟩ = Place.buffer ⟨false, names⟩ ++ ['/'] := by
  simp only [Place.buffer, if_true, Bool.false_eq_true, if_false, List.append_nil]

theorem text_cons (r : Bool) (n : Name) (names : List Name) :
    Place.text ⟨r, n :: names⟩ = (n.text.reverse ++ Place.buffer ⟨r, names⟩).reverse := by
  have hrev : ((n :: names).reverse.flatMap fun n => '/' :: n.text) =
      (n.text.reverse ++ Place.buffer ⟨true, names⟩).reverse := by
    rw [List.flatMap_reverse, ← buffer_rooted]
    simp only [Function.comp_def, List.reverse_cons, List.flatMap_cons, List.append_assoc, List.cons_append, List.nil_append]
  simp only [Place.text]
  cases r with
  | true => exact hrev
  | false =>
    simp only [Bool.false_eq_true, if_false]
    rw [hrev, buffer_true, ← List.append_assoc, List.reverse_append]
    rfl

theorem buffer_cons (r : Bool) (n : Name) (names : List Name) :
    Place.buffer ⟨r, n :: names⟩ = '/' :: (n.text.reverse ++ Place.buffer ⟨r, names⟩) := by
  simp only [Place.buffer, List.flatMap_cons, List.cons_append, List.append_assoc]

theorem dropWhile_buffer (p : Place) : p.buffer.dropWhile (· != '/') = p.buffer := by
  obtain ⟨r, names⟩ := p
  cases names with
  | nil => cases r <;> rfl
  | cons n names => exact List.dropWhile_cons_of_neg (by decide)

theorem upOne_buffer (p : Place) : upOne p.buffer = (p.go .parent).map Place.buffer := by
  obtain ⟨r, names⟩ := p
  cases names with
  | nil => cases r <;> rfl
  | cons n names =>
    have hword : '/' ∉ n.text.reverse := fun h => n.no_slash (List.mem_reverse.mp h)
    rw [buffer_cons, upOne, List.dropWhile_append_of_pos (bne_slash_of_not_mem hword), dropWhile_buffer]
    rfl

theorem finish_buffer (p : Place) : finish p.buffer = p.text := by
  obtain ⟨r, names⟩ := p
  cases names with
  | nil => cases r <;> rfl
  | cons n names =>
    obtain ⟨c, w, hrev, hc⟩ := n.text_reverse
    rw [text_cons, buffer_cons, hrev, List.cons_append, finish]
    exact if_neg (List.reverse_ne_nil_iff.mpr (List.cons_ne_nil _ _))

theorem finish_name (p : Place) (n : Name) :
    finish (n.text.reverse ++ p.buffer) = Place.text ⟨p.rooted, n :: p.names⟩ := by
  obtain ⟨c, w, hrev, hc⟩ := n.text_reverse
  rw [text_cons, hrev, List.cons_append, finish]
  · exact if_neg (List.reverse_ne_nil_iff.mpr (List.cons_ne_nil _ _))
  · intro d dst he
    exact hc (List.cons.inj he).1

theorem ofWord_cases (w : Path) (hw : '/' ∉ w) :
    (w = [] ∧ Component.ofWord w = none) ∨ (w = ['.'] ∧ Component.ofWord w = some .here) ∨
      (w = ['.', '.'] ∧ Component.ofWord w = some .parent) ∨
        ∃ n : Name, n.text = w ∧ Component.ofWord w = some (.name n) := by
  unfold Component.ofWord
  by_cases hnil : w = []
  · exact .inl ⟨hnil, dif_pos hnil⟩
  · by_cases hhere : w = ['.']
    · exact .inr (.inl ⟨hhere, by rw [dif_neg hnil, dif_pos hhere]⟩)
    · by_cases hparent : w = ['.', '.']
      · exact .inr (.inr (.inl ⟨hparent, by rw [dif_neg hnil, dif_neg hhere, dif_pos hparent]⟩))
      · refine .inr (.inr (.inr ⟨⟨w, hnil, hw, hhere, hparent⟩, rfl, ?_⟩))
        rw [dif_neg hnil, dif_neg hhere, dif_neg hparent, dif_neg hw]

/-- What stands in the memory at a place: the text to the beginning of the next component, or to the end of
the last one. -/
inductive Written (p : Place) : Path → Prop where
  | buffer : Written p p.buffer
  | name (n : Name) (names : List Name) (hnames : p.names = n :: names) :
      Written p (n.text.reverse ++ Place.buffer ⟨p.rooted, names⟩)

/-- From the start of a component, the scan leads where the walk leads. The induction is on the length of what
is still to be read. -/
theorem scan_written (src : Path) (p : Place) (hsrc : src.head? ≠ some '/') :
    Option.Rel Written (p.walk (components src)) (scan src p.buffer) := by
  induction hn : src.length using Nat.strong_induction_on generalizing src p with
  | h n ih =>
    subst hn
    by_cases hslash : '/' ∈ src
    · obtain ⟨w, rest, rfl, hw⟩ := List.eq_append_cons_of_mem hslash
      have hlen : (skipSlashes rest).length < (w ++ '/' :: rest).length := by
        have hle := skipSlashes_length_le rest
        simp only [List.length_append, List.length_cons]
        omega
      have hrec : ∀ p : Place, Option.Rel Written (p.walk (components rest)) (scan (skipSlashes rest) p.buffer) := by
        intro p
        have hstep := ih _ hlen _ p (head_skipSlashes rest) rfl
        rwa [components_skipSlashes] at hstep
      rw [components_word_append hw]
      obtain ⟨rfl, -⟩ | ⟨rfl, hc⟩ | ⟨rfl, hc⟩ | ⟨n, rfl, hc⟩ := ofWord_cases w hw
      · exact absurd rfl hsrc
      · rw [hc, List.cons_append, List.nil_append, scan]
        exact hrec p
      · rw [hc]
        simp only [List.cons_append, List.nil_append, scan, upOne_buffer]
        simp only [Option.toList, List.cons_append, List.nil_append, Place.walk]
        cases p.go .parent with
        | none => exact .none
        | some q => exact hrec q
      · rw [hc, scan_word_append hw n.ne_here n.ne_parent, ← buffer_cons p.rooted n p.names]
        exact hrec ⟨p.rooted, n :: p.names⟩
    · rw [components_word hslash]
      obtain ⟨rfl, hc⟩ | ⟨rfl, hc⟩ | ⟨rfl, hc⟩ | ⟨n, rfl, hc⟩ := ofWord_cases src hslash
      · rw [hc, scan_nil]
        exact .some .buffer
      · rw [hc, scan, scan_nil]
        exact .some .buffer
      · rw [hc, scan, upOne_buffer]
        simp only [Option.toList, Place.walk]
        cases p.go .parent with
        | none => exact .none
        | some q =>
          simp only [Option.map_some, Option.bind_some, scan_nil]
          exact .some .buffer
      · rw [hc, scan_word hslash n.ne_here n.ne_parent]
        exact .some (.name n p.names rfl)

theorem Written.finish {p : Place} {d : Path} (h : Written p d) : finish d = p.text := by
  cases h with
  | buffer => exact finish_buffer p
  | name n names hnames =>
    rw [finish_name, ← hnames]

theorem scan_resolve (text : Path) : Option.Rel Written (resolve text) (scan text []) := by
  by_cases hroot : text.head? = some '/'
  · obtain ⟨rest, rfl⟩ := List.head?_eq_some_iff.mp hroot
    have hscan : scan ('/' :: rest) [] = scan (skipSlashes rest) (Place.buffer ⟨true, []⟩) :=
      scan_word_append (w := []) List.not_mem_nil (List.cons_ne_nil _ _).symm (List.cons_ne_nil _ _).symm rest []
    have hwritten := scan_written (skipSlashes rest) ⟨true, []⟩ (head_skipSlashes rest)
    rw [components_skipSlashes] at hwritten
    rw [hscan, resolve, components_slash]
    exact hwritten
  · have hwritten := scan_written text ⟨false, []⟩ hroot
    rw [resolve, decide_eq_false hroot]
    exact hwritten

theorem scan_eq_resolve (text : Path) : (scan text []).map finish = (resolve text).map Place.text := by
  have hwritten := scan_resolve text
  generalize resolve text = q, scan text [] = d at hwritten ⊢
  cases hwritten with
  | none => rfl
  | some h => exact congrArg some h.finish

/-- `dfs_normalize_path` walks over the components of the text. -/
theorem dfsNormalizePath_eq (workdir : Option Path) (malloc : Bool) (directory : Option Path) (filename : Path) :
    dfsNormalizePath workdir malloc directory filename =
      (fullText workdir directory filename).bind fun text => if malloc then (resolve text).map Place.text else none := by
  simp only [dfsNormalizePath, scan_eq_resolve]

/-! ### Normalised paths -/

theorem head_text_rooted (names : List Name) : (Place.text ⟨true, names⟩).head? = some '/' := by
  cases names with
  | nil => rfl
  | cons n names =>
    simp only [Place.text, if_true]
    cases hrev : (n :: names).reverse with
    | nil => exact absurd (List.reverse_eq_nil_iff.mp hrev) (List.cons_ne_nil _ _)
    | cons m ms => rfl

theorem head_text_unrooted (n : Name) (names : List Name) : (Place.text ⟨false, n :: names⟩).head? ≠ some '/' := by
  simp only [Place.text, Bool.false_eq_true, if_false]
  cases hrev : (n :: names).reverse with
  | nil => exact absurd (List.reverse_eq_nil_iff.mp hrev) (List.cons_ne_nil _ _)
  | cons m ms =>
    rw [List.flatMap_cons, List.cons_append, List.tail_cons, List.head?_append_of_ne_nil _ m.ne_nil]
    exact fun h => m.no_slash (List.mem_of_mem_head? h)

theorem components_flatMap (names : List Name) :
    components (names.flatMap fun n => '/' :: n.text) = names.map Component.name := by
  induction names with
  | nil => rfl
  | cons n names ih =>
    have hword : Component.ofWord n.text = some (.name n) := by
      rw [Component.ofWord, dif_neg n.ne_nil, dif_neg n.ne_here, dif_neg n.ne_parent, dif_neg n.no_slash]
    rw [List.flatMap_cons, List.cons_append, components_slash, List.map_cons, ← ih]
    cases names with
    | nil =>
      rw [List.flatMap_nil, List.append_nil, components_word n.no_slash, hword]
      rfl
    | cons m names =>
      rw [List.flatMap_cons, List.cons_append, components_word_append n.no_slash, hword, components_slash]
      rfl

theorem walk_names (names : List Name) (p : Place) :
    p.walk (names.map Component.name) = some ⟨p.rooted, names.reverse ++ p.names⟩ := by
  induction names generalizing p with
  | nil => rfl
  | cons n names ih =>
    rw [List.reverse_cons, List.append_assoc]
    exact ih ⟨p.rooted, n :: p.names⟩

theorem resolve_text_rooted (names : List Name) : resolve (Place.text ⟨true, names⟩) = some ⟨true, names⟩ := by
  rw [resolve, head_text_rooted, decide_eq_true rfl]
  cases names with
  | nil => rfl
  | cons n names =>
    simp only [Place.text, if_true]
    rw [components_flatMap, walk_names, List.reverse_reverse, List.append_nil]

theorem Normalized.dfsNormalizePath_eq {path : Path} (h : Normalized path) (workdir directory : Option Path) :
    dfsNormalizePath workdir true directory path = some path := by
  obtain ⟨names, rfl⟩ := h
  rw [NormalizePath.dfsNormalizePath_eq, fullText, if_pos (head_text_rooted names)]
  simp only [Option.bind_some, if_true, resolve_text_rooted, Option.map_some]

theorem normalized_text_iff (p : Place) : Normalized p.text ↔ p.rooted = true ∨ p.names = [] := by
  obtain ⟨r, names⟩ := p
  constructor
  · rintro ⟨ms, he⟩
    cases r with
    | true => exact .inl rfl
    | false =>
      cases names with
      | nil => exact .inr rfl
      | cons n names =>
        have hhead := head_text_unrooted n names
        rw [he] at hhead
        exact absurd (head_text_rooted ms) hhead
  · rintro (rfl | rfl)
    · exact ⟨names, rfl⟩
    · exact ⟨[], rfl⟩

end RtThread.Dfs.NormalizePath
