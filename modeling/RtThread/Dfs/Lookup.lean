import RtThread.Dfs.Mount

/-!
# Finding the file system of a path (`dfs_fs.c:78-114`)

`dfs_filesystem_lookup` compares texts, with a look at the character behind the mounted path. On normalised
paths it compares components.
-/

namespace RtThread.Dfs.Lookup

open RtThread.Dfs.NormalizePath RtThread.Dfs.Mount

variable {D X : Type*} {max : ℕ}

/-- The loop of `dfs_filesystem_lookup` for one entry; it carries `fs` and `prefixlen`. -/
def lookupStep (path : Path) (table : Table max D X) (found : Option (Fin max) × ℕ) (iter : Fin max) :
    Option (Fin max) × ℕ :=
  match (table iter).path, (table iter).ops with
  | some p, some _ =>
    let fspath := p.length
    -- `strncmp(iter->path, path, fspath) != 0`
    if fspath < found.2 ∨ p.take fspath ≠ path.take fspath then found
    else if 1 < fspath ∧ fspath < path.length ∧ path.getD fspath '\x00' ≠ '/' then found
    else (some iter, fspath)
  | _, _ => found

/-- `dfs_filesystem_lookup` (`dfs_fs.c:78-114`). -/
def dfsFilesystemLookup (table : Table max D X) (path : Path) : Option (Fin max) :=
  ((List.finRange max).foldl (lookupStep path table) (none, 0)).1

/-- An entry is in use. -/
def Mounted (fs : Filesystem D X) (p : Path) : Prop := fs.path = some p ∧ fs.ops ≠ none

/-- The components of a path begin with those of another. -/
def Above (p path : Path) : Prop := components p <+: components path

/-- The mount that lies above the path, below all others that do. -/
def Innermost (table : Table max D X) (path : Path) (i : Fin max) : Prop :=
  ∃ p, Mounted (table i) p ∧ Above p path ∧ ∀ j q, Mounted (table j) q → Above q path → Above q p

/-! ### Texts and components -/

def flat (names : List Name) : Path := names.flatMap fun n => '/' :: n.text

/-- What is behind a component. -/
def Behind (rest : Path) : Prop := ∀ c ∈ rest.head?, c = '/'

theorem behind_flat (names : List Name) : Behind (flat names) := by
  cases names with
  | nil => exact fun c hc => by cases hc
  | cons n names => exact fun c hc => (Option.some.inj hc).symm

theorem takeWhile_name (n : Name) {rest : Path} (hrest : Behind rest) : (n.text ++ rest).takeWhile (· != '/') = n.text := by
  cases rest with
  | nil =>
    rw [List.append_nil]
    exact List.takeWhile_eq_self_iff.mpr (bne_slash_of_not_mem n.no_slash)
  | cons c rest =>
    rw [hrest c rfl]
    exact takeWhile_word_append n.no_slash rest

theorem Name.ext_text {m n : Name} (h : m.text = n.text) : m = n := by
  cases m
  cases n
  cases h
  rfl

theorem Behind.append {rest : Path} (names : List Name) (h : Behind rest) : Behind (flat names ++ rest) := by
  cases names with
  | nil => exact h
  | cons n names => exact fun c hc => (Option.some.inj hc).symm

/-- Where the text of some names begins that of others, with a component behind it, the names begin the others. -/
theorem flat_eq_append {ms ns : List Name} {rest : Path} (hrest : Behind rest) (h : flat ns = flat ms ++ rest) : ms <+: ns := by
  induction ms generalizing ns with
  | nil => exact List.nil_prefix
  | cons m ms ih =>
    cases ns with
    | nil => cases h
    | cons n ns =>
      have htail : n.text ++ flat ns = m.text ++ (flat ms ++ rest) := by
        have hcons := List.cons.inj h
        rw [← List.append_assoc]
        exact hcons.2
      have hword := congrArg (List.takeWhile (· != '/')) htail
      rw [takeWhile_name n (behind_flat ns), takeWhile_name m (hrest.append ms)] at hword
      obtain rfl := Name.ext_text hword
      obtain ⟨ts, hts⟩ := ih (List.append_cancel_left htail)
      exact ⟨ts, congrArg (n :: ·) hts⟩

theorem text_rooted (names : List Name) (hne : names ≠ []) : Place.text ⟨true, names⟩ = flat names.reverse := by
  cases names with
  | nil => exact absurd rfl hne
  | cons n names => rfl

theorem components_text (names : List Name) :
    components (Place.text ⟨true, names⟩) = names.reverse.map Component.name := by
  cases names with
  | nil => rfl
  | cons n names => exact components_flatMap _

/-- The tests of the loop. -/
def Accepts (p path : Path) : Prop :=
  p.take p.length = path.take p.length ∧ ¬(1 < p.length ∧ p.length < path.length ∧ path.getD p.length '\x00' ≠ '/')

theorem accepts_iff_behind {p path : Path} :
    Accepts p path ↔ ∃ rest, path = p ++ rest ∧ (1 < p.length → Behind rest) := by
  constructor
  · intro h
    have hsplit : path = p ++ path.drop p.length := by
      rw [← List.take_append_drop p.length path, ← h.1, List.take_length, List.drop_left]
    refine ⟨path.drop p.length, hsplit, fun hlen c hc => ?_⟩
    rw [List.head?_drop] at hc
    obtain ⟨hlt, hget⟩ := List.getElem?_eq_some_iff.mp hc
    by_contra hne
    refine h.2 ⟨hlen, hlt, ?_⟩
    rw [List.getD_eq_getElem _ _ hlt, hget]
    exact hne
  · rintro ⟨rest, rfl, hbehind⟩
    refine ⟨by rw [List.take_length, List.take_left], fun ⟨hlen, hlt, hne⟩ => hne ?_⟩
    have hget : (p ++ rest)[p.length]? = rest.head? := by
      rw [List.getElem?_append_right le_rfl, Nat.sub_self, List.head?_eq_getElem?]
    rw [List.getD_eq_getElem?_getD, hget]
    cases rest with
    | nil => simp at hlt
    | cons c rest => exact hbehind hlen c rfl

theorem above_text (ms ns : List Name) :
    Above (Place.text ⟨true, ms⟩) (Place.text ⟨true, ns⟩) ↔ ms.reverse <+: ns.reverse := by
  rw [Above, components_text, components_text]
  exact List.prefix_map_iff_of_injective fun m n h => Component.name.inj h

theorem accepts_iff {p path : Path} (hp : Normalized p) (hpath : Normalized path) : Accepts p path ↔ Above p path := by
  obtain ⟨ms, rfl⟩ := hp
  obtain ⟨ns, rfl⟩ := hpath
  rw [accepts_iff_behind, above_text]
  rcases eq_or_ne ms [] with rfl | hms
  · -- the root
    obtain ⟨rest, hrest⟩ := List.head?_eq_some_iff.mp (head_text_rooted ns)
    exact iff_of_true ⟨rest, hrest, fun hlen => absurd hlen (lt_irrefl 1)⟩ List.nil_prefix
  · have hlen : 1 < (Place.text ⟨true, ms⟩).length := by
      obtain ⟨m, ms', rfl⟩ := List.exists_cons_of_ne_nil hms
      obtain ⟨c, w, hrev, -⟩ := m.text_reverse
      rw [text_cons, List.length_reverse, hrev, List.length_append, List.length_cons, buffer_true, List.length_append,
        List.length_singleton]
      omega
    rcases eq_or_ne ns [] with rfl | hns
    · refine iff_of_false ?_ ?_
      · rintro ⟨rest, he, -⟩
        have hlong := congrArg List.length he
        rw [List.length_append] at hlong
        have hone : (Place.text ⟨true, []⟩).length = 1 := rfl
        omega
      · intro h
        exact hms (List.reverse_eq_nil_iff.mp (List.prefix_nil.mp h))
    · rw [text_rooted ms hms, text_rooted ns hns]
      rw [text_rooted ms hms] at hlen
      constructor
      · rintro ⟨rest, he, hbehind⟩
        exact flat_eq_append (hbehind hlen) he
      · rintro ⟨ts, hts⟩
        refine ⟨flat ts, ?_, fun _ => behind_flat ts⟩
        rw [← hts, flat, flat, flat, List.flatMap_append]

theorem Above.isPrefix {p q : Path} (hp : Normalized p) (hq : Normalized q) (h : Above p q) : p <+: q := by
  obtain ⟨rest, he, -⟩ := accepts_iff_behind.mp ((accepts_iff hp hq).mpr h)
  exact ⟨rest, he.symm⟩

theorem Above.antisymm {p q : Path} (hp : Normalized p) (hq : Normalized q) (hpq : Above p q) (hqp : Above q p) : p = q :=
  (hpq.isPrefix hp hq).eq_of_length_le (hqp.isPrefix hq hp).length_le

theorem Above.of_length_le {p q path : Path} (hp : Normalized p) (hq : Normalized q) (hpa : Above p path)
    (hqa : Above q path) (hlen : q.length ≤ p.length) : Above q p := by
  rcases List.prefix_or_prefix_of_prefix hqa hpa with hle | hle
  · exact hle
  · rw [(Above.isPrefix hp hq hle).eq_of_length_le hlen]
    exact List.prefix_rfl

/-! ### The loop -/

/-- What the loop has found among the entries that it has passed. -/
structure Found (table : Table max D X) (path : Path) (passed : List (Fin max)) (found : Option (Fin max) × ℕ) : Prop where
  missing : found.1 = none → found.2 = 0 ∧ ∀ i ∈ passed, ∀ p, Mounted (table i) p → ¬Above p path
  best : ∀ i, found.1 = some i → i ∈ passed ∧ ∃ p, Mounted (table i) p ∧ Above p path ∧ found.2 = p.length ∧
    ∀ j ∈ passed, ∀ q, Mounted (table j) q → Above q path → q.length ≤ p.length

variable {table : Table max D X} {path : Path}

theorem found_start : Found table path [] (none, 0) where
  missing _ := ⟨rfl, fun i hi => absurd hi List.not_mem_nil⟩
  best i hi := by cases hi

theorem Found.skip {passed : List (Fin max)} {found : Option (Fin max) × ℕ} (h : Found table path passed found)
    {iter : Fin max} (hskip : ∀ p, Mounted (table iter) p → Above p path → p.length ≤ found.2 ∧ found.1 ≠ none) :
    Found table path (passed ++ [iter]) found where
  missing hnone := by
    obtain ⟨hzero, hall⟩ := h.missing hnone
    refine ⟨hzero, List.forall_mem_append.mpr ⟨hall, fun i hi p hp ha => ?_⟩⟩
    rw [List.mem_singleton.mp hi] at hp
    exact (hskip p hp ha).2 hnone
  best i hi := by
    obtain ⟨hmem, p, hp, ha, hlen, hall⟩ := h.best i hi
    refine ⟨List.mem_append_left _ hmem, p, hp, ha, hlen, List.forall_mem_append.mpr ⟨hall, fun j hj q hq hqa => ?_⟩⟩
    rw [List.mem_singleton.mp hj] at hq
    exact hlen ▸ (hskip q hq hqa).1

theorem Found.take {passed : List (Fin max)} {found : Option (Fin max) × ℕ} (h : Found table path passed found)
    {iter : Fin max} {p : Path} (hp : Mounted (table iter) p) (ha : Above p path) (hlen : found.2 ≤ p.length) :
    Found table path (passed ++ [iter]) (some iter, p.length) where
  missing hnone := by cases hnone
  best i hi := by
    obtain rfl := Option.some.inj hi
    refine ⟨List.mem_append_right _ List.mem_cons_self, p, hp, ha, rfl,
      List.forall_mem_append.mpr ⟨fun j hj q hq hqa => ?_, fun j hj q hq _ => ?_⟩⟩
    · cases hfound : found.1 with
      | none => exact absurd hqa ((h.missing hfound).2 j hj q hq)
      | some k =>
        obtain ⟨-, r, -, -, hr, hall⟩ := h.best k hfound
        exact (hall j hj q hq hqa).trans (hr ▸ hlen)
    · rw [List.mem_singleton.mp hj] at hq
      exact (congrArg List.length (Option.some.inj (hq.1.symm.trans hp.1))).le

theorem lookupStep_spec (hnorm : ∀ i p, Mounted (table i) p → Normalized p) (hpath : Normalized path)
    {passed : List (Fin max)} {found : Option (Fin max) × ℕ} (h : Found table path passed found) (iter : Fin max) :
    Found table path (passed ++ [iter]) (lookupStep path table found iter) := by
  unfold lookupStep
  split
  · rename_i p ops hp hops
    have hmounted : Mounted (table iter) p := ⟨hp, by rw [hops]; exact Option.some_ne_none ops⟩
    have honly : ∀ q, Mounted (table iter) q → q = p := fun q hq => Option.some.inj (hq.1.symm.trans hp)
    have haccepts := accepts_iff (hnorm iter p hmounted) hpath
    simp only
    split
    · rename_i hor
      refine h.skip fun q hq hqa => ?_
      rw [honly q hq] at hqa ⊢
      rcases hor with hlt | hne
      · refine ⟨hlt.le, fun hnone => ?_⟩
        rw [(h.missing hnone).1] at hlt
        exact Nat.not_lt_zero _ hlt
      · exact absurd (haccepts.mpr hqa).1 hne
    · rename_i hnot
      rw [not_or, not_lt, not_not] at hnot
      split
      · rename_i hsep
        refine h.skip fun q hq hqa => ?_
        rw [honly q hq] at hqa
        exact absurd hsep (haccepts.mpr hqa).2
      · rename_i hsep
        exact h.take hmounted (haccepts.mp ⟨hnot.2, hsep⟩) hnot.1
  · rename_i hnone
    refine h.skip fun q hq _ => ?_
    obtain ⟨ops, hops⟩ := Option.ne_none_iff_exists'.mp hq.2
    exact (hnone q ops hq.1 hops).elim

theorem foldl_spec (hnorm : ∀ i p, Mounted (table i) p → Normalized p) (hpath : Normalized path) (iters : List (Fin max))
    {passed : List (Fin max)} {found : Option (Fin max) × ℕ} (h : Found table path passed found) :
    Found table path (passed ++ iters) (iters.foldl (lookupStep path table) found) := by
  induction iters generalizing passed found with
  | nil =>
    rw [List.append_nil]
    exact h
  | cons iter iters ih =>
    have hstep := ih (lookupStep_spec hnorm hpath h iter)
    rw [List.append_assoc] at hstep
    exact hstep

/-- On normalised paths `dfs_filesystem_lookup` finds the innermost mount above the path, and nothing only
where there is none. -/
theorem lookup_innermost (table : Table max D X) (path : Path) (hnorm : ∀ i p, Mounted (table i) p → Normalized p)
    (hdistinct : ∀ i j p, Mounted (table i) p → Mounted (table j) p → i = j) (hpath : Normalized path) :
    (∀ i, dfsFilesystemLookup table path = some i ↔ Innermost table path i) ∧
      (dfsFilesystemLookup table path = none ↔ ∀ i p, Mounted (table i) p → ¬Above p path) := by
  have hstart : Found table path [] (none, 0) := found_start
  have hfound := foldl_spec hnorm hpath (List.finRange max) hstart
  rw [List.nil_append] at hfound
  have hinner : ∀ i, dfsFilesystemLookup table path = some i → Innermost table path i := by
    intro i hi
    obtain ⟨-, p, hp, ha, -, hall⟩ := hfound.best i hi
    refine ⟨p, hp, ha, fun j q hq hqa => ?_⟩
    exact Above.of_length_le (hnorm i p hp) (hnorm j q hq) ha hqa (hall j (List.mem_finRange j) q hq hqa)
  have hnone : dfsFilesystemLookup table path = none → ∀ i p, Mounted (table i) p → ¬Above p path :=
    fun h i => (hfound.missing h).2 i (List.mem_finRange i)
  refine ⟨fun i => ⟨hinner i, fun ⟨p, hp, ha, hmax⟩ => ?_⟩, hnone, fun hall => ?_⟩
  · cases hlookup : dfsFilesystemLookup table path with
    | none => exact absurd ha (hnone hlookup i p hp)
    | some j =>
      obtain ⟨q, hq, hqa, hqmax⟩ := hinner j hlookup
      have heq := Above.antisymm (hnorm i p hp) (hnorm j q hq) (hqmax i p hp ha) (hmax j q hq hqa)
      rw [hdistinct i j p hp (heq ▸ hq)]
  · cases hlookup : dfsFilesystemLookup table path with
    | none => rfl
    | some j =>
      obtain ⟨q, hq, hqa, -⟩ := hinner j hlookup
      exact absurd hqa (hall j q hq)

def nameA : Name := ⟨"a".toList, by decide, by decide, by decide, by decide⟩
def nameAb : Name := ⟨"ab".toList, by decide, by decide, by decide, by decide⟩

/-- `/a`, the root and `/ab`. -/
def sampleNames : Fin 3 → List Name
  | 0 => [nameA]
  | 1 => []
  | 2 => [nameAb]

def sampleTable : Table 3 Unit Unit := fun i => ⟨none, some (Place.text ⟨true, sampleNames i⟩), some ⟨[], true, true⟩, none⟩

theorem lookup_innermost_sample : Innermost sampleTable "/ab/a".toList 2 := by
  have hnorm : ∀ i p, Mounted (sampleTable i) p → Normalized p :=
    fun i p hp => ⟨sampleNames i, (Option.some.inj hp.1).symm⟩
  have hdistinct : ∀ i j p, Mounted (sampleTable i) p → Mounted (sampleTable j) p → i = j := by
    have htexts : ∀ i j, Place.text ⟨true, sampleNames i⟩ = Place.text ⟨true, sampleNames j⟩ → i = j := by decide
    exact fun i j p hi hj => htexts i j (Option.some.inj (hi.1.trans hj.1.symm))
  exact ((lookup_innermost sampleTable "/ab/a".toList hnorm hdistinct ⟨[nameA, nameAb], by decide⟩).1 2).mp (by decide)

end RtThread.Dfs.Lookup
