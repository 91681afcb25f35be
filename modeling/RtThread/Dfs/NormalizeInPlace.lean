import RtThread.Dfs.NormalizePath

/-!
# Normalising a path in place (`dfs.c:374-496`)

The text is read and written with two cursors in the memory that was allocated for it. An access outside of
this memory has no result, and neither has a loop that has not ended within its fuel.
-/

namespace RtThread.Dfs.NormalizeInPlace

open RtThread.Dfs.NormalizePath

def nul : Char := '\x00'

def read (buf : List Char) (i : ℕ) : Option Char := buf[i]?

def write (buf : List Char) (i : ℕ) (c : Char) : Option (List Char) := if i < buf.length then some (buf.set i c) else none

/-- The loops that pass slashes (`dfs.c:427`, `dfs.c:441`, `dfs.c:458-461`). -/
def skipLoop (buf : List Char) : ℕ → ℕ → Option ℕ
  | 0, _ => none
  | fuel + 1, src => (read buf src).bind fun c => if c = '/' then skipLoop buf fuel (src + 1) else some src

/-- Where the loop goes on. -/
inductive Move where
  | copy (src : ℕ)
  | here (src : ℕ)
  | upOne (src : ℕ)

/-- The cases of `.` and `..` (`dfs.c:418-449`). -/
def dots (buf : List Char) (src : ℕ) : Option Move :=
  (read buf src).bind fun c =>
    if c ≠ '.' then some (.copy src)
    else (read buf (src + 1)).bind fun c =>
      if c = nul then some (.copy (src + 1))
      else if c = '/' then (skipLoop buf (buf.length + 1) (src + 2)).map .here
      else if c = '.' then
        (read buf (src + 2)).bind fun c =>
          if c = nul then some (.upOne (src + 2))
          else if c = '/' then (skipLoop buf (buf.length + 1) (src + 3)).map .upOne
          else some (.copy src)
      else some (.copy src)

/-- `while ((c = *src++) != '\0' && c != '/') *dst ++ = c`, with the cursors and the character that it ends at. -/
def copyLoop : ℕ → List Char → ℕ → ℕ → Option (List Char × ℕ × ℕ × Char)
  | 0, _, _, _ => none
  | fuel + 1, buf, dst, src => (read buf src).bind fun c =>
    if c ≠ nul ∧ c ≠ '/' then (write buf dst c).bind fun buf => copyLoop fuel buf (dst + 1) (src + 1)
    else some (buf, dst, src + 1, c)

/-- `while (dst0 < dst && dst[-1] != '/') dst --`. -/
def upLoop (buf : List Char) : ℕ → Option ℕ
  | 0 => some 0
  | dst + 1 => (read buf dst).bind fun c => if c ≠ '/' then upLoop buf dst else some (dst + 1)

/-- The label `up_one` (`dfs.c:468-475`), with what follows it. -/
def upOneAt (buf : List Char) (go : ℕ → Option (Option (List Char × ℕ))) : ℕ → Option (Option (List Char × ℕ))
  | 0 => some none
  | dst + 1 => (upLoop buf dst).bind go

/-- The loop (`dfs.c:414-476`) up to its end, or to the end of the function. -/
def loop : ℕ → List Char → ℕ → ℕ → Option (Option (List Char × ℕ))
  | 0, _, _, _ => none
  | fuel + 1, buf, dst, src => (dots buf src).bind fun
    | .here src => loop fuel buf dst src
    | .upOne src => upOneAt buf (fun dst => loop fuel buf dst src) dst
    | .copy src => (copyLoop (buf.length + 1) buf dst src).bind fun (buf, dst, src, c) =>
      if c = '/' then
        (write buf dst '/').bind fun buf => (skipLoop buf (buf.length + 1) src).bind fun src => loop fuel buf (dst + 1) src
      else some (some (buf, dst))

/-- The end of the function (`dfs.c:478-492`). -/
def finishAt (buf : List Char) (dst : ℕ) : Option (List Char) :=
  (write buf dst nul).bind fun buf =>
    match dst with
    -- `dst` is one before the text now, and is read
    | 0 => none
    | dst + 1 => (if dst = 0 then some buf else (read buf dst).bind fun c => if c = '/' then write buf dst nul else some buf).bind
      fun buf => (read buf 0).bind fun c => if c = nul then (write buf 0 '/').bind fun buf => write buf 1 nul else some buf

/-- The rewriting of the text behind the allocation. -/
def rewriteText (text : Path) : Option (Option Path) :=
  (loop (text.length + 2) (text ++ [nul]) 0 0).bind fun
    | none => some none
    | some (buf, dst) => (finishAt buf dst).map fun buf => some (buf.takeWhile (· ≠ nul))

/-- `dfs_normalize_path` (`dfs.c:374-496`) with its memory. -/
def dfsNormalizePath (workdir : Option Path) (malloc : Bool) (directory : Option Path) (filename : Path) :
    Option (Option Path) :=
  match fullText workdir directory filename with
  | none => some none
  | some text => if malloc = true then rewriteText text else some none

/-! ### The memory while the loop runs -/

/-- `dst` has been written, last character first, and `src` is still to be read at the place `i`. -/
structure At (buf : List Char) (dst : Path) (i : ℕ) (src : Path) : Prop where
  written : dst.reverse <+: buf
  unread : ∃ tail, buf.drop i = src ++ nul :: tail
  le : dst.length ≤ i

variable {buf : List Char} {dst src : Path} {i : ℕ}

theorem read_add (buf : List Char) (i k : ℕ) : read buf (i + k) = (buf.drop i)[k]? := List.getElem?_drop.symm

theorem read_of_drop {c : Char} {rest : List Char} (h : buf.drop i = c :: rest) : read buf i = some c := by
  have hread := read_add buf i 0
  rw [h] at hread
  exact hread

theorem lt_of_drop {c : Char} {rest : List Char} (h : buf.drop i = c :: rest) : i < buf.length := by
  by_contra hle
  rw [List.drop_eq_nil_of_le (not_lt.mp hle)] at h
  cases h

theorem drop_succ {c : Char} {rest : List Char} (h : buf.drop i = c :: rest) : buf.drop (i + 1) = rest := by
  rw [← List.drop_drop, h, List.drop_one, List.tail_cons]

theorem write_next {c : Char} (hwritten : dst.reverse <+: buf) (hlt : dst.length < buf.length) :
    ∃ buf', write buf dst.length c = some buf' ∧ buf'.length = buf.length ∧ (c :: dst).reverse <+: buf' ∧
      ∀ j, dst.length < j → buf'.drop j = buf.drop j := by
  refine ⟨buf.set dst.length c, if_pos hlt, List.length_set, ?_, fun j hj => List.drop_set_of_lt hj⟩
  obtain ⟨rest, rfl⟩ := hwritten
  cases rest with
  | nil =>
    rw [List.append_nil, List.length_reverse] at hlt
    exact absurd hlt (lt_irrefl _)
  | cons d rest =>
    refine ⟨rest, ?_⟩
    rw [List.reverse_cons, List.append_assoc, ← List.length_reverse, List.set_append_right _ _ le_rfl, Nat.sub_self]
    rfl

theorem skipLoop_spec {tail : List Char} (h : buf.drop i = src ++ nul :: tail) {fuel : ℕ} (hfuel : src.length < fuel) :
    ∃ j, skipLoop buf fuel i = some j ∧ i ≤ j ∧ buf.drop j = skipSlashes src ++ nul :: tail := by
  induction src generalizing i fuel with
  | nil =>
    obtain ⟨fuel, rfl⟩ := Nat.exists_eq_succ_of_ne_zero (Nat.ne_of_gt hfuel)
    refine ⟨i, ?_, le_rfl, h⟩
    rw [skipLoop, read_of_drop h]
    rfl
  | cons c src ih =>
    obtain ⟨fuel, rfl⟩ := Nat.exists_eq_succ_of_ne_zero (Nat.ne_of_gt (Nat.zero_lt_of_lt hfuel))
    rw [skipLoop, read_of_drop h, Option.bind_some]
    by_cases hc : c = '/'
    · obtain ⟨j, hj, hle, hdrop⟩ := ih (drop_succ h) (Nat.lt_of_succ_lt_succ hfuel)
      refine ⟨j, by rw [if_pos hc, hj], Nat.le_of_succ_le hle, ?_⟩
      rw [hdrop, hc]
      rfl
    · refine ⟨i, if_neg hc, le_rfl, ?_⟩
      rw [h, skipSlashes, List.dropWhile_cons_of_neg (by simpa using hc)]

theorem copyLoop_spec {w rest : List Char} {c : Char} (hw : ∀ x ∈ w, x ≠ nul ∧ x ≠ '/') (hc : c = nul ∨ c = '/')
    (hwritten : dst.reverse <+: buf) (hle : dst.length ≤ i) (h : buf.drop i = w ++ c :: rest) {fuel : ℕ}
    (hfuel : w.length < fuel) :
    ∃ buf', copyLoop fuel buf dst.length i = some (buf', (w.reverse ++ dst).length, i + w.length + 1, c) ∧
      buf'.length = buf.length ∧ (w.reverse ++ dst).reverse <+: buf' ∧ buf'.drop (i + w.length + 1) = rest := by
  induction w generalizing buf dst i fuel with
  | nil =>
    obtain ⟨fuel, rfl⟩ := Nat.exists_eq_succ_of_ne_zero (Nat.ne_of_gt hfuel)
    refine ⟨buf, ?_, rfl, hwritten, drop_succ h⟩
    rw [copyLoop, read_of_drop h, Option.bind_some, if_neg]
    · rfl
    · rintro ⟨hnul, hslash⟩
      exact hc.elim hnul hslash
  | cons x w ih =>
    obtain ⟨fuel, rfl⟩ := Nat.exists_eq_succ_of_ne_zero (Nat.ne_of_gt (Nat.zero_lt_of_lt hfuel))
    have hlt := lt_of_drop h
    obtain ⟨buf₁, hwrite, hlen, hwritten₁, hrest⟩ := write_next (c := x) hwritten (Nat.lt_of_le_of_lt hle hlt)
    have hdrop : buf₁.drop (i + 1) = w ++ c :: rest := (hrest (i + 1) (Nat.lt_succ_of_le hle)).trans (drop_succ h)
    obtain ⟨buf', hcopy, hlen', hwritten', hrest'⟩ := ih (fun y hy => hw y (List.mem_cons_of_mem x hy)) hwritten₁
      (Nat.succ_le_succ hle) hdrop (Nat.lt_of_succ_lt_succ hfuel)
    have hplace : i + 1 + w.length + 1 = i + (x :: w).length + 1 := by
      rw [List.length_cons]
      omega
    rw [hplace] at hcopy hrest'
    refine ⟨buf', ?_, hlen'.trans hlen, ?_, hrest'⟩
    · rw [copyLoop, read_of_drop h, Option.bind_some, if_pos (hw x List.mem_cons_self), hwrite, Option.bind_some]
      rw [List.reverse_cons, List.append_assoc]
      exact hcopy
    · rw [List.reverse_cons, List.append_assoc]
      exact hwritten'

theorem upLoop_spec (h : dst.reverse <+: buf) : upLoop buf dst.length = some (dst.dropWhile (· != '/')).length := by
  induction dst with
  | nil => rfl
  | cons c dst ih =>
    have hprefix : dst.reverse <+: buf := by
      rw [List.reverse_cons] at h
      exact (List.prefix_append _ _).trans h
    have hread : read buf dst.length = some c := by
      obtain ⟨rest, rfl⟩ := h
      simp [read]
    rw [List.length_cons, upLoop, hread, Option.bind_some]
    by_cases hc : c = '/'
    · rw [if_neg (not_not.mpr hc), List.dropWhile_cons_of_neg (by simpa using hc), List.length_cons]
    · rw [if_pos hc, ih hprefix, List.dropWhile_cons_of_pos (by simpa using hc)]

/-! ### The loop does what the scan does -/

theorem At.lt (h : At buf dst i src) : i + src.length < buf.length := by
  obtain ⟨tail, htail⟩ := h.unread
  have hlen := congrArg List.length htail
  rw [List.length_drop, List.length_append, List.length_cons] at hlen
  omega

theorem dots_copy (h : At buf dst i src) (hnul : nul ∉ src) (hhere : src ≠ ['.']) (hhere' : ∀ s, src ≠ '.' :: '/' :: s)
    (hparent : src ≠ ['.', '.']) (hparent' : ∀ s, src ≠ '.' :: '.' :: '/' :: s) : dots buf i = some (.copy i) := by
  obtain ⟨tail, htail⟩ := h.unread
  cases src with
  | nil =>
    rw [dots, read_of_drop htail]
    rfl
  | cons c src =>
    rw [dots, read_of_drop htail, Option.bind_some]
    by_cases hc : c = '.'
    · rw [if_neg (not_not.mpr hc), read_add, htail]
      subst hc
      cases src with
      | nil => exact absurd rfl hhere
      | cons c src =>
        have hcnul : c ≠ nul := fun he => hnul (he ▸ List.mem_cons_of_mem _ List.mem_cons_self)
        have hcslash : c ≠ '/' := fun he => hhere' src (he ▸ rfl)
        change (if c = nul then _ else if c = '/' then _ else if c = '.' then _ else _) = _
        rw [if_neg hcnul, if_neg hcslash]
        by_cases hc : c = '.'
        · rw [if_pos hc, read_add, htail]
          subst hc
          cases src with
          | nil => exact absurd rfl hparent
          | cons c src =>
            have hcnul : c ≠ nul :=
              fun he => hnul (he ▸ List.mem_cons_of_mem _ (List.mem_cons_of_mem _ List.mem_cons_self))
            have hcslash : c ≠ '/' := fun he => hparent' src (he ▸ rfl)
            change (if c = nul then _ else if c = '/' then _ else _) = _
            rw [if_neg hcnul, if_neg hcslash]
        · rw [if_neg hc]
    · rw [if_pos hc]

/-- What the loop leaves when the scan gives `r`. -/
def Leaves (buf : List Char) (r : Option Path) (result : Option (Option (List Char × ℕ))) : Prop :=
  match r with
  | none => result = some none
  | some d => ∃ buf', result = some (some (buf', d.length)) ∧ buf'.length = buf.length ∧ d.reverse <+: buf' ∧
      d.length < buf'.length

theorem upOneAt_spec (h : At buf dst i src) {r : Path → Option Path} {go : ℕ → Option (Option (List Char × ℕ))}
    (hgo : ∀ d, At buf d i src → Leaves buf (r d) (go d.length)) :
    Leaves buf ((upOne dst).bind r) (upOneAt buf go dst.length) := by
  cases dst with
  | nil => rfl
  | cons c dst =>
    have hprefix : dst.reverse <+: buf := by
      have hall := h.written
      rw [List.reverse_cons] at hall
      exact (List.prefix_append _ _).trans hall
    have hsuffix := List.dropWhile_suffix (l := dst) (· != '/')
    have hle := hsuffix.length_le
    have hlen := h.le
    rw [List.length_cons] at hlen
    rw [List.length_cons, upOneAt, upLoop_spec hprefix]
    exact hgo _ ⟨(List.reverse_prefix.mpr hsuffix).trans hprefix, h.unread, by omega⟩

theorem Leaves.congr {buf buf' : List Char} {r : Option Path} {result : Option (Option (List Char × ℕ))}
    (h : Leaves buf' r result) (hlen : buf'.length = buf.length) : Leaves buf r result := by
  cases r with
  | none => exact h
  | some d =>
    obtain ⟨buf₁, hresult, hlen₁, hwritten, hlt⟩ := h
    exact ⟨buf₁, hresult, hlen₁.trans hlen, hwritten, hlt⟩

theorem plain {w : Path} (hnul : nul ∉ w) (hslash : '/' ∉ w) : ∀ x ∈ w, x ≠ nul ∧ x ≠ '/' :=
  fun _ hx => ⟨fun he => hnul (he ▸ hx), fun he => hslash (he ▸ hx)⟩

theorem loop_end {fuel j : ℕ} (hdots : dots buf i = some (.copy j)) (h : At buf dst j src) (hnul : nul ∉ src)
    (hslash : '/' ∉ src) : Leaves buf (some (src.reverse ++ dst)) (loop (fuel + 1) buf dst.length i) := by
  obtain ⟨tail, htail⟩ := h.unread
  have hlt := h.lt
  have hle := h.le
  obtain ⟨buf', hcopy, hlen, hwritten, -⟩ := copyLoop_spec (plain hnul hslash) (Or.inl rfl) h.written h.le htail
    (show src.length < buf.length + 1 by omega)
  refine ⟨buf', ?_, hlen, hwritten, ?_⟩
  · rw [loop, hdots, Option.bind_some]
    simp only [hcopy, Option.bind_some]
    rfl
  · rw [hlen, List.length_append, List.length_reverse]
    omega

theorem split_word {head : Char} {rest : Path} (hdrop : src.dropWhile (· != '/') = head :: rest) :
    ∃ w, '/' ∉ w ∧ src.takeWhile (· != '/') = w ∧ src = w ++ '/' :: rest := by
  have hhead : head = '/' := by
    have hnot := List.head?_dropWhile_not (· != '/') src
    rw [hdrop] at hnot
    simpa using hnot
  have hall := List.takeWhile_append_dropWhile (p := (· != '/')) (l := src)
  rw [hdrop, hhead] at hall
  exact ⟨_, fun hmem => absurd (List.mem_takeWhile_imp hmem) (by decide), rfl, hall.symm⟩

theorem loop_spec (src dst : Path) : ∀ {buf : List Char} {i fuel : ℕ}, At buf dst i src → nul ∉ src → src.length < fuel →
    Leaves buf (scan src dst) (loop fuel buf dst.length i) := by
  induction src, dst using scan.induct with
  | case1 dst ih =>
    intro buf i fuel h hnul hfuel
    obtain ⟨fuel, rfl⟩ := Nat.exists_eq_succ_of_ne_zero (Nat.ne_of_gt (Nat.zero_lt_of_lt hfuel))
    obtain ⟨tail, htail⟩ := h.unread
    have hdots : dots buf i = some (.copy (i + 1)) := by
      rw [dots, read_of_drop htail, Option.bind_some, if_neg (not_not.mpr rfl), read_of_drop (drop_succ htail)]
      rfl
    rw [scan, scan_nil]
    exact loop_end hdots ⟨h.written, ⟨tail, drop_succ htail⟩, Nat.le_succ_of_le h.le⟩ List.not_mem_nil List.not_mem_nil
  | case2 src dst ih =>
    intro buf i fuel h hnul hfuel
    obtain ⟨fuel, rfl⟩ := Nat.exists_eq_succ_of_ne_zero (Nat.ne_of_gt (Nat.zero_lt_of_lt hfuel))
    obtain ⟨tail, htail⟩ := h.unread
    have hlt := h.lt
    simp only [List.length_cons] at hlt hfuel
    obtain ⟨j, hskip, hle, hdrop⟩ := skipLoop_spec (drop_succ (drop_succ htail)) (show src.length < buf.length + 1 by omega)
    have hdots : dots buf i = some (.here j) := by
      rw [dots, read_of_drop htail, Option.bind_some, if_neg (not_not.mpr rfl), read_of_drop (drop_succ htail),
        Option.bind_some, if_neg (by decide), if_pos rfl, hskip]
      rfl
    have hsrc := skipSlashes_length_le src
    have hrest : nul ∉ skipSlashes src := fun hmem =>
      hnul (List.mem_cons_of_mem _ (List.mem_cons_of_mem _ ((List.dropWhile_suffix _).subset hmem)))
    rw [scan, loop, hdots]
    have hdst := h.le
    exact ih ⟨h.written, ⟨tail, hdrop⟩, by omega⟩ hrest (by omega)
  | case3 dst ih =>
    intro buf i fuel h hnul hfuel
    obtain ⟨fuel, rfl⟩ := Nat.exists_eq_succ_of_ne_zero (Nat.ne_of_gt (Nat.zero_lt_of_lt hfuel))
    obtain ⟨tail, htail⟩ := h.unread
    have hdots : dots buf i = some (.upOne (i + 2)) := by
      rw [dots, read_of_drop htail, Option.bind_some, if_neg (not_not.mpr rfl), read_of_drop (drop_succ htail),
        Option.bind_some, if_neg (by decide), if_neg (by decide), if_pos rfl, read_of_drop (drop_succ (drop_succ htail))]
      rfl
    have hend : At buf dst (i + 2) [] := ⟨h.written, ⟨tail, drop_succ (drop_succ htail)⟩, Nat.le_add_right_of_le h.le⟩
    rw [scan, loop, hdots]
    exact upOneAt_spec hend fun d hd => ih d hd List.not_mem_nil (by simp only [List.length_cons, List.length_nil] at hfuel ⊢; omega)
  | case4 src dst ih =>
    intro buf i fuel h hnul hfuel
    obtain ⟨fuel, rfl⟩ := Nat.exists_eq_succ_of_ne_zero (Nat.ne_of_gt (Nat.zero_lt_of_lt hfuel))
    obtain ⟨tail, htail⟩ := h.unread
    have hlt := h.lt
    simp only [List.length_cons] at hlt hfuel
    obtain ⟨j, hskip, hle, hdrop⟩ := skipLoop_spec (drop_succ (drop_succ (drop_succ htail)))
      (show src.length < buf.length + 1 by omega)
    have hdots : dots buf i = some (.upOne j) := by
      rw [dots, read_of_drop htail, Option.bind_some, if_neg (not_not.mpr rfl), read_of_drop (drop_succ htail),
        Option.bind_some, if_neg (by decide), if_neg (by decide), if_pos rfl, read_of_drop (drop_succ (drop_succ htail)),
        Option.bind_some, if_neg (by decide), if_pos rfl, hskip]
      rfl
    have hsrc := skipSlashes_length_le src
    have hrest : nul ∉ skipSlashes src := fun hmem => hnul (List.mem_cons_of_mem _ (List.mem_cons_of_mem _
      (List.mem_cons_of_mem _ ((List.dropWhile_suffix _).subset hmem))))
    have hdst := h.le
    rw [scan, loop, hdots]
    exact upOneAt_spec ⟨h.written, ⟨tail, hdrop⟩, by omega⟩ fun d hd => ih d hd hrest (by omega)
  | case5 src dst hhere hhere' hparent hparent' hdrop =>
    intro buf i fuel h hnul hfuel
    obtain ⟨fuel, rfl⟩ := Nat.exists_eq_succ_of_ne_zero (Nat.ne_of_gt (Nat.zero_lt_of_lt hfuel))
    have hslash : '/' ∉ src := fun hmem => absurd (List.dropWhile_eq_nil_iff.mp hdrop '/' hmem) (by decide)
    rw [scan_word hslash hhere hparent]
    exact loop_end (dots_copy h hnul hhere hhere' hparent hparent') h hnul hslash
  | case6 src dst hhere hhere' hparent hparent' head rest hdrop ih =>
    intro buf i fuel h hnul hfuel
    obtain ⟨fuel, rfl⟩ := Nat.exists_eq_succ_of_ne_zero (Nat.ne_of_gt (Nat.zero_lt_of_lt hfuel))
    have hdots := dots_copy h hnul hhere hhere' hparent hparent'
    obtain ⟨w, hword, htake, hsplit⟩ := split_word hdrop
    rw [htake] at ih
    subst hsplit
    obtain ⟨tail, htail⟩ := h.unread
    have hlt := h.lt
    have hle := h.le
    rw [List.length_append, List.length_cons] at hlt hfuel
    have hwnul : nul ∉ w := fun hmem => hnul (List.mem_append_left _ hmem)
    rw [List.append_assoc] at htail
    obtain ⟨buf₁, hcopy, hlen₁, hwritten₁, hdrop₁⟩ := copyLoop_spec (plain hwnul hword) (Or.inr rfl) h.written h.le htail
      (show w.length < buf.length + 1 by omega)
    have hplace : (w.reverse ++ dst).length < i + w.length + 1 := by
      rw [List.length_append, List.length_reverse]
      omega
    obtain ⟨buf₂, hwrite, hlen₂, hwritten₂, hdrop₂⟩ := write_next (c := '/') hwritten₁ (by omega)
    have hunread : buf₂.drop (i + w.length + 1) = rest ++ nul :: tail := (hdrop₂ _ hplace).trans hdrop₁
    obtain ⟨j, hskip, hj, hdropj⟩ := skipLoop_spec hunread (show rest.length < buf₂.length + 1 by omega)
    have hsrc := skipSlashes_length_le rest
    have hrest : nul ∉ skipSlashes rest := fun hmem =>
      hnul (List.mem_append_right _ (List.mem_cons_of_mem _ ((List.dropWhile_suffix _).subset hmem)))
    have hgo := @ih buf₂ j fuel ⟨hwritten₂, ⟨tail, hdropj⟩, by
      rw [List.length_cons]
      omega⟩ hrest (by omega)
    rw [scan_word_append hword (fun he => hhere' rest (by rw [he]; rfl)) (fun he => hparent' rest (by rw [he]; rfl)), loop,
      hdots, Option.bind_some]
    simp only [hcopy, Option.bind_some, if_true, hwrite, hskip]
    exact hgo.congr (hlen₂.trans hlen₁)

/-! ### The end of the function -/

theorem nul_scan (src dst : Path) (hsrc : nul ∉ src) (hdst : nul ∉ dst) {d : Path} (h : scan src dst = some d) : nul ∉ d := by
  have hup : ∀ dst d : Path, nul ∉ dst → upOne dst = some d → nul ∉ d := by
    intro dst d hdst hd
    cases dst with
    | nil => cases hd
    | cons c dst =>
      obtain rfl := Option.some.inj hd
      exact fun hmem => hdst (List.mem_cons_of_mem c ((List.dropWhile_suffix _).subset hmem))
  have hskip : ∀ src : Path, nul ∉ src → nul ∉ skipSlashes src :=
    fun src hsrc hmem => hsrc ((List.dropWhile_suffix _).subset hmem)
  induction src, dst using scan.induct with
  | case1 dst ih =>
    rw [scan] at h
    exact ih List.not_mem_nil hdst h
  | case2 src dst ih =>
    rw [scan] at h
    exact ih (hskip src fun hmem => hsrc (List.mem_cons_of_mem _ (List.mem_cons_of_mem _ hmem))) hdst h
  | case3 dst ih =>
    rw [scan] at h
    obtain ⟨dst', hdst', hscan⟩ := Option.bind_eq_some_iff.mp h
    exact ih dst' List.not_mem_nil (hup dst dst' hdst hdst') hscan
  | case4 src dst ih =>
    rw [scan] at h
    obtain ⟨dst', hdst', hscan⟩ := Option.bind_eq_some_iff.mp h
    exact ih dst' (hskip src fun hmem => hsrc (List.mem_cons_of_mem _ (List.mem_cons_of_mem _ (List.mem_cons_of_mem _ hmem))))
      (hup dst dst' hdst hdst') hscan
  | case5 src dst hhere hhere' hparent hparent' hdrop =>
    have hslash : '/' ∉ src := fun hmem => absurd (List.dropWhile_eq_nil_iff.mp hdrop '/' hmem) (by decide)
    rw [scan_word hslash hhere hparent] at h
    obtain rfl := Option.some.inj h
    simp only [List.mem_append, List.mem_reverse, not_or]
    exact ⟨hsrc, hdst⟩
  | case6 src dst hhere hhere' hparent hparent' head rest hdrop ih =>
    obtain ⟨w, hword, htake, hsplit⟩ := split_word hdrop
    rw [htake] at ih
    subst hsplit
    rw [scan_word_append hword (fun he => hhere' rest (by rw [he]; rfl)) (fun he => hparent' rest (by rw [he]; rfl))] at h
    refine ih (hskip rest fun hmem => hsrc (List.mem_append_right _ (List.mem_cons_of_mem _ hmem))) ?_ h
    simp only [List.mem_cons, List.mem_append, List.mem_reverse, not_or]
    exact ⟨by decide, fun hmem => hsrc (List.mem_append_left _ hmem), hdst⟩

theorem write_at (t rest : List Char) (x c : Char) : write (t ++ x :: rest) t.length c = some (t ++ c :: rest) := by
  rw [write, if_pos (by simp), List.set_append_right _ _ le_rfl, Nat.sub_self]
  rfl

theorem takeWhile_text {t : Path} (h : nul ∉ t) (rest : List Char) : (t ++ nul :: rest).takeWhile (· ≠ nul) = t := by
  have hall : ∀ c ∈ t, decide (c ≠ nul) = true := fun c hc => decide_eq_true fun he => h (he ▸ hc)
  rw [List.takeWhile_append_of_pos hall, List.takeWhile_cons_of_neg (by simp), List.append_nil]

theorem read_head {t : Path} (hne : t ≠ []) (h : nul ∉ t) : ∃ c, (∀ rest, read (t ++ rest) 0 = some c) ∧ c ≠ nul := by
  obtain ⟨c, t, rfl⟩ := List.exists_cons_of_ne_nil hne
  exact ⟨c, fun _ => rfl, fun he => h (he ▸ List.mem_cons_self)⟩

theorem finish_slash (e : Char) (d : Path) : finish ('/' :: e :: d) = (e :: d).reverse :=
  if_neg (List.reverse_ne_nil_iff.mpr (List.cons_ne_nil e d))

theorem finish_plain {d : Path} (hne : d ≠ []) (hplain : ∀ e t, d ≠ '/' :: e :: t) : finish d = d.reverse := by
  rw [finish]
  · exact if_neg (List.reverse_ne_nil_iff.mpr hne)
  · exact hplain

theorem finishAt_spec {d : Path} (hne : d ≠ []) (hnul : nul ∉ d) (hwritten : d.reverse <+: buf) (hlt : d.length < buf.length) :
    (finishAt buf d.length).map (fun buf => buf.takeWhile (· ≠ nul)) = some (finish d) := by
  obtain ⟨rest, rfl⟩ := hwritten
  cases rest with
  | nil => simp at hlt
  | cons x rest =>
    have hrev : nul ∉ d.reverse := fun hmem => hnul (List.mem_reverse.mp hmem)
    have hwrite := write_at d.reverse rest x nul
    rw [List.length_reverse] at hwrite
    rw [finishAt, hwrite, Option.bind_some]
    obtain ⟨c, d, rfl⟩ := List.exists_cons_of_ne_nil hne
    cases d with
    | nil =>
      have hc : c ≠ nul := fun he => hnul (he ▸ List.mem_cons_self)
      have hread : read ([c].reverse ++ nul :: rest) 0 = some c := rfl
      simp only [List.length_singleton, if_true, Option.bind_some, hread, if_neg hc, Option.map_some, takeWhile_text hrev]
      rw [finish_plain hne fun e t he => List.cons_ne_nil e t (List.cons.inj he).2.symm]
    | cons e d =>
      have htext : (c :: e :: d).reverse ++ nul :: rest = (e :: d).reverse ++ c :: nul :: rest := by
        rw [List.reverse_cons, List.append_assoc]
        rfl
      have hread : read ((e :: d).reverse ++ c :: nul :: rest) (e :: d).length = some c := by
        simp [read]
      have hshort : nul ∉ (e :: d).reverse := fun hmem => hnul (List.mem_cons_of_mem c (List.mem_reverse.mp hmem))
      obtain ⟨c₀, hread₀, hc₀⟩ := read_head (List.reverse_ne_nil_iff.mpr (List.cons_ne_nil e d)) hshort
      rw [List.length_cons]
      simp only [if_neg (show (e :: d).length ≠ 0 from Nat.succ_ne_zero _)]
      rw [htext, hread, Option.bind_some]
      by_cases hc : c = '/'
      · have hstrip := write_at (e :: d).reverse (nul :: rest) c nul
        rw [List.length_reverse] at hstrip
        rw [if_pos hc, hstrip, Option.bind_some, hread₀, Option.bind_some, if_neg hc₀, Option.map_some, takeWhile_text hshort, hc,
          finish_slash]
      · rw [if_neg hc, Option.bind_some, hread₀, Option.bind_some, if_neg hc₀, Option.map_some, ← htext, takeWhile_text hrev,
          finish_plain hne fun e t he => hc (List.cons.inj he).1]

theorem finishAt_nil (hlt : 0 < buf.length) : finishAt buf 0 = none := by
  rw [finishAt, write, if_pos hlt]
  rfl

theorem rewriteText_eq {text : Path} (hnul : nul ∉ text) : rewriteText text =
    (scan text []).elim (some none) fun d => if d = [] then none else some (some (finish d)) := by
  have hat : At (text ++ [nul]) [] 0 text := ⟨List.nil_prefix, ⟨[], rfl⟩, le_rfl⟩
  have hloop := loop_spec text [] hat hnul (show text.length < text.length + 2 by omega)
  rw [List.length_nil] at hloop
  rw [rewriteText]
  cases hscan : scan text [] with
  | none =>
    rw [hscan] at hloop
    rw [show loop _ _ _ _ = some none from hloop]
    rfl
  | some d =>
    rw [hscan] at hloop
    obtain ⟨buf, hresult, hlen, hwritten, hlt⟩ := hloop
    rw [hresult, Option.bind_some]
    simp only [Option.elim_some]
    by_cases hd : d = []
    · subst hd
      rw [if_pos rfl, List.length_nil, finishAt_nil hlt]
      rfl
    · have hfinish := finishAt_spec hd (nul_scan text [] hnul List.not_mem_nil hscan) hwritten hlt
      obtain ⟨buf', hbuf', hfin⟩ := Option.map_eq_some_iff.mp hfinish
      rw [hbuf', Option.map_some, hfin]
      exact (if_neg hd).symm

example : ["/a/./b/../c//", "//x", "/..a/.b/", "/../.."].map (fun text => rewriteText text.toList) =
    [some (some "/a/c".toList), some (some "/x".toList), some (some "/..a/.b".toList), some none] := by decide

end RtThread.Dfs.NormalizeInPlace
