import Mathlib
import RtThread.Shell.Strings

/-!
# The shell: splitting a command line (`msh.c:92-160`)

`FINSH_ARG_MAX` is a parameter. `ptr` is `cmd + position` throughout, so the pointers in `argv` are positions.
-/

namespace RtThread.Shell

def IsBlank (b : Byte) : Prop := b = 0x20 ∨ b = 0x09

instance (b : Byte) : Decidable (IsBlank b) := inferInstanceAs (Decidable (_ ∨ _))

def quote : Byte := 0x22

def backslash : Byte := 0x5c

/-- `cmd` with a line of the given length in it, and what is in the buffer behind the line. -/
structure CommandBuffer where
  line : List Byte
  noNul : ∀ b ∈ line, b ≠ 0
  tail : List Byte

def CommandBuffer.cmd (b : CommandBuffer) : List Byte := b.line ++ 0 :: b.tail

def write (cmd : List Byte) (position : ℕ) (b : Byte) : Option (List Byte) :=
  if position < cmd.length then some (cmd.set position b) else none

/-! ### `msh_split` -/

section

variable (length : ℕ)

/-- strip bank and tab -/
def stripBlanks : ℕ → List Byte → ℕ → Option (List Byte × ℕ)
  | 0, _, _ => none
  | fuel + 1, cmd, position => do
    let b ← cmd[position]?
    if IsBlank b ∧ position < length then stripBlanks fuel (← write cmd position 0) (position + 1)
    else some (cmd, position)

/-- skip this string -/
def skipString (cmd : List Byte) : ℕ → ℕ → Option ℕ
  | 0, _ => none
  | fuel + 1, position => do
    let b ← cmd[position]?
    if b ≠ quote ∧ position < length then
      if b = backslash then
        let next ← cmd[position + 1]?
        skipString cmd fuel (if next = quote then position + 2 else position + 1)
      else skipString cmd fuel (position + 1)
    else some position

def skipWord (cmd : List Byte) : ℕ → ℕ → Option ℕ
  | 0, _ => none
  | fuel + 1, position => do
    let b ← cmd[position]?
    if ¬IsBlank b ∧ position < length then skipWord cmd fuel (position + 1) else some position

/-- The loop of `msh_split`, where `argc` is the length of `argv`. -/
def splitLoop (max : ℕ) : ℕ → List Byte → ℕ → List ℕ → Option (List Byte × List ℕ)
  | 0, _, _, _ => none
  | fuel + 1, cmd, position, argv =>
    if position < length then do
      let (cmd, position) ← stripBlanks length (length + 1) cmd position
      if max ≤ argv.length then some (cmd, argv)
      else if length ≤ position then some (cmd, argv)
      else
        let b ← cmd[position]?
        if b = quote then
          let last ← skipString length cmd (length + 1) (position + 1)
          if length ≤ last then some (cmd, argv ++ [position + 1])
          else splitLoop max fuel (← write cmd last 0) (last + 1) (argv ++ [position + 1])
        else
          let last ← skipWord length cmd (length + 1) position
          if length ≤ last then some (cmd, argv ++ [position])
          else splitLoop max fuel cmd last (argv ++ [position])
    else some (cmd, argv)

def mshSplit (max : ℕ) (cmd : List Byte) : Option (List Byte × List ℕ) := splitLoop length max (length + 1) cmd 0 []

end

/-! ### The reference tokenizer -/

/-- The number of characters before a quote that no backslash precedes directly; `prev` is the character before. -/
def untilQuote : Byte → List Byte → ℕ
  | _, [] => 0
  | prev, b :: rest => if b = quote ∧ prev ≠ backslash then 0 else untilQuote b rest + 1

def words (line : List Byte) : List (List Byte) :=
  match h : line.dropWhile (fun b => decide (IsBlank b)) with
  | [] => []
  | b :: rest =>
    if b = quote then rest.take (untilQuote quote rest) :: words (rest.drop (untilQuote quote rest + 1))
    else (b :: rest).takeWhile (fun b => decide (¬IsBlank b)) ::
      words (rest.dropWhile fun b => decide (¬IsBlank b))
termination_by line.length
decreasing_by
  all_goals
    have hlength := (line.dropWhile_sublist fun b => decide (IsBlank b)).length_le
    rw [h, List.length_cons] at hlength
  · rw [List.length_drop]
    omega
  · have hdrop := (rest.dropWhile_sublist fun b => decide (¬IsBlank b)).length_le
    omega

/-- The string at a position, if a NUL ends it. -/
def cString (cmd : List Byte) (i : ℕ) : Option (List Byte) :=
  if 0 ∈ cmd.drop i then some ((cmd.drop i).takeWhile (· ≠ 0)) else none

/-- The word of the line at a position, ended by a NUL. -/
def Held (cmd line : List Byte) (i : ℕ) (word : List Byte) : Prop :=
  cString cmd i = some word ∧ word <+: line.drop i

/-! ### The loops on a part of the line -/

theorem getElem?_length (pre : List Byte) (b : Byte) (s : List Byte) : (pre ++ b :: s)[pre.length]? = some b := by
  rw [List.getElem?_append_right le_rfl, Nat.sub_self]
  rfl

theorem write_length (pre : List Byte) (b v : Byte) (s : List Byte) :
    write (pre ++ b :: s) pre.length v = some (pre ++ v :: s) := by
  have hlt : pre.length < (pre ++ b :: s).length := by
    rw [List.length_append, List.length_cons]
    omega
  rw [write, if_pos hlt, List.set_append_right _ _ le_rfl, Nat.sub_self]
  rfl

theorem exists_cons (rest tail : List Byte) : ∃ b s, rest ++ 0 :: tail = b :: s ∧ (rest = [] ∨ rest.head? = some b) := by
  cases rest with
  | nil => exact ⟨0, tail, rfl, Or.inl rfl⟩
  | cons b rest => exact ⟨b, rest ++ 0 :: tail, rfl, Or.inr rfl⟩

variable {length fuel : ℕ} {pre blanks word rest tail : List Byte}

theorem stripBlanks_spec (hblanks : ∀ b ∈ blanks, IsBlank b) (hrest : ∀ b ∈ rest.head?, ¬IsBlank b)
    (hlength : length = pre.length + blanks.length + rest.length) (hfuel : blanks.length < fuel) :
    stripBlanks length fuel (pre ++ (blanks ++ (rest ++ 0 :: tail))) pre.length =
      some (pre ++ (zeros blanks.length ++ (rest ++ 0 :: tail)), pre.length + blanks.length) := by
  induction blanks generalizing pre fuel with
  | nil =>
    obtain ⟨fuel, rfl⟩ := Nat.exists_eq_succ_of_ne_zero (Nat.ne_of_gt hfuel)
    obtain ⟨b, s, hs, hb⟩ := exists_cons rest tail
    have hstop : ¬(IsBlank b ∧ pre.length < length) := by
      intro h
      rcases hb with rfl | hb
      · rw [hlength] at h
        exact absurd h.2 (by simp)
      · exact hrest b hb h.1
    rw [List.nil_append, hs, stripBlanks, getElem?_length, Option.bind_eq_bind, Option.bind_some, if_neg hstop]
    rfl
  | cons b blanks ih =>
    obtain ⟨fuel, rfl⟩ := Nat.exists_eq_succ_of_ne_zero (Nat.ne_zero_of_lt hfuel)
    rw [List.length_cons] at hlength hfuel
    have hgo : IsBlank b ∧ pre.length < length := ⟨hblanks b List.mem_cons_self, by omega⟩
    have hnext := @ih fuel (pre ++ [0]) (fun c hc => hblanks c (List.mem_cons_of_mem b hc))
      (by rw [List.length_append, List.length_singleton]; omega) (by omega)
    rw [List.append_assoc, List.append_assoc, List.length_append, List.length_singleton, List.singleton_append] at hnext
    rw [List.cons_append, stripBlanks, getElem?_length, Option.bind_eq_bind, Option.bind_some, if_pos hgo,
      write_length, Option.bind_eq_bind, Option.bind_some, hnext, List.length_cons, zeros_succ, Nat.add_assoc,
      Nat.add_comm 1]
    rfl

theorem skipWord_spec (hword : ∀ b ∈ word, ¬IsBlank b) (hrest : ∀ b ∈ rest.head?, IsBlank b)
    (hlength : length = pre.length + word.length + rest.length) (hfuel : word.length < fuel) :
    skipWord length (pre ++ (word ++ (rest ++ 0 :: tail))) fuel pre.length = some (pre.length + word.length) := by
  induction word generalizing pre fuel with
  | nil =>
    obtain ⟨fuel, rfl⟩ := Nat.exists_eq_succ_of_ne_zero (Nat.ne_of_gt hfuel)
    obtain ⟨b, s, hs, hb⟩ := exists_cons rest tail
    have hstop : ¬(¬IsBlank b ∧ pre.length < length) := by
      intro h
      rcases hb with rfl | hb
      · rw [hlength] at h
        exact absurd h.2 (by simp)
      · exact h.1 (hrest b hb)
    rw [List.nil_append, hs, skipWord, getElem?_length, Option.bind_eq_bind, Option.bind_some, if_neg hstop]
    rfl
  | cons b word ih =>
    obtain ⟨fuel, rfl⟩ := Nat.exists_eq_succ_of_ne_zero (Nat.ne_zero_of_lt hfuel)
    rw [List.length_cons] at hlength hfuel
    have hgo : ¬IsBlank b ∧ pre.length < length := ⟨hword b List.mem_cons_self, by omega⟩
    have hnext := @ih fuel (pre ++ [b]) (fun c hc => hword c (List.mem_cons_of_mem b hc))
      (by rw [List.length_append, List.length_singleton]; omega) (by omega)
    rw [List.append_assoc, List.length_append, List.length_singleton, List.singleton_append] at hnext
    rw [List.cons_append, skipWord, getElem?_length, Option.bind_eq_bind, Option.bind_some, if_pos hgo, hnext,
      List.length_cons, Nat.add_assoc, Nat.add_comm 1]

theorem skipString_spec (prev : Byte) (hprev : prev = backslash → rest.head? ≠ some quote)
    (hlength : length = pre.length + rest.length) (hfuel : rest.length < fuel) :
    skipString length (pre ++ (rest ++ 0 :: tail)) fuel pre.length = some (pre.length + untilQuote prev rest) := by
  induction hn : rest.length using Nat.strong_induction_on generalizing pre fuel prev rest with
  | h n ih =>
    obtain ⟨fuel, rfl⟩ := Nat.exists_eq_succ_of_ne_zero (Nat.ne_zero_of_lt hfuel)
    cases rest with
    | nil =>
      have hstop : ¬((0 : Byte) ≠ quote ∧ pre.length < length) := by
        rw [hlength]
        exact fun h => absurd h.2 (by simp)
      rw [List.nil_append, skipString, getElem?_length, Option.bind_eq_bind, Option.bind_some, if_neg hstop]
      rfl
    | cons b rest =>
      rw [List.length_cons] at hlength hfuel hn
      by_cases hquote : b = quote
      · have hclose : b = quote ∧ prev ≠ backslash := by
          refine ⟨hquote, fun h => hprev h ?_⟩
          rw [hquote]
          rfl
        rw [List.cons_append, skipString, getElem?_length, Option.bind_eq_bind, Option.bind_some,
          if_neg fun h => h.1 hquote, untilQuote, if_pos hclose]
        rfl
      · have hgo : b ≠ quote ∧ pre.length < length := ⟨hquote, by omega⟩
        have hone : (b = backslash → rest.head? ≠ some quote) →
            skipString length (pre ++ b :: (rest ++ 0 :: tail)) fuel (pre.length + 1) =
              some (pre.length + (untilQuote b rest + 1)) := by
          intro hb
          have hnext := @ih rest.length (by omega) fuel (pre ++ [b]) rest b hb
            (by rw [List.length_append, List.length_singleton]; omega) (by omega) rfl
          rw [List.append_assoc, List.length_append, List.length_singleton, List.singleton_append] at hnext
          rw [hnext, Nat.add_assoc, Nat.add_comm 1]
        have huntil : untilQuote prev (b :: rest) = untilQuote b rest + 1 := if_neg fun h => hquote h.1
        rw [huntil, List.cons_append, skipString, getElem?_length, Option.bind_eq_bind, Option.bind_some, if_pos hgo]
        by_cases hback : b = backslash
        · obtain ⟨c, s, hs, hc⟩ := exists_cons rest tail
          have hread : (pre ++ b :: (rest ++ 0 :: tail))[pre.length + 1]? = some c := by
            have h := getElem?_length (pre ++ [b]) c s
            rw [List.append_assoc, List.length_append, List.length_singleton, List.singleton_append, ← hs] at h
            exact h
          rw [if_pos hback, hread, Option.bind_some]
          by_cases hescape : c = quote
          · rw [if_pos hescape]
            cases rest with
            | nil =>
              obtain ⟨rfl, -⟩ := List.cons.inj hs
              exact absurd hescape (by decide)
            | cons d rest =>
              obtain ⟨rfl, -⟩ := List.cons.inj hs
              rw [List.length_cons] at hlength hfuel hn
              have hnext := @ih rest.length (by omega) fuel (pre ++ [b, d]) rest d
                (fun h => absurd (hescape.symm.trans h) (by decide))
                (by rw [List.length_append]; exact hlength.trans (by simp; omega)) (by omega) rfl
              rw [List.append_assoc, List.length_append] at hnext
              have hopen : untilQuote b (d :: rest) = untilQuote d rest + 1 := if_neg fun h => h.2 hback
              rw [hopen]
              refine hnext.trans (congrArg some ?_)
              simp only [List.length_cons, List.length_nil]
              omega
          · rw [if_neg hescape]
            refine hone fun _ hhead => ?_
            rcases hc with rfl | hc
            · cases hhead
            · exact hescape (Option.some.inj (hc.symm.trans hhead))
        · rw [if_neg hback]
          exact hone fun h => absurd h hback

/-! ### One word -/

theorem words_of_blank (h : ∀ b ∈ blanks, IsBlank b) : words blanks = [] := by
  have hdrop : blanks.dropWhile (fun b => decide (IsBlank b)) = [] :=
    List.dropWhile_eq_nil_iff.mpr fun b hb => decide_eq_true (h b hb)
  rw [words]
  split
  · rfl
  · rename_i heq
    rw [hdrop] at heq
    cases heq

theorem dropWhile_blanks (h : ∀ b ∈ blanks, IsBlank b) {b : Byte} (hb : ¬IsBlank b) (s : List Byte) :
    (blanks ++ b :: s).dropWhile (fun b => decide (IsBlank b)) = b :: s := by
  rw [List.dropWhile_append_of_pos fun c hc => decide_eq_true (h c hc), List.dropWhile_cons_of_neg]
  rwa [decide_eq_true_eq]

theorem words_quote (h : ∀ b ∈ blanks, IsBlank b) :
    words (blanks ++ quote :: rest) =
      rest.take (untilQuote quote rest) :: words (rest.drop (untilQuote quote rest + 1)) := by
  have hdrop := dropWhile_blanks (b := quote) h (by decide) rest
  rw [words]
  split
  · rename_i heq
    rw [hdrop] at heq
    cases heq
  · rename_i heq
    rw [hdrop] at heq
    obtain ⟨rfl, rfl⟩ := List.cons.inj heq
    rw [if_pos rfl]

theorem words_plain (h : ∀ b ∈ blanks, IsBlank b) (hword : ∀ b ∈ word, ¬IsBlank b) (hrest : ∀ b ∈ rest.head?, IsBlank b)
    {b : Byte} (hb : ¬IsBlank b) (hquote : b ≠ quote) :
    words (blanks ++ b :: (word ++ rest)) = (b :: word) :: words rest := by
  have hdrop := dropWhile_blanks h hb (word ++ rest)
  have hstop : rest.takeWhile (fun b => decide (¬IsBlank b)) = [] ∧ rest.dropWhile (fun b => decide (¬IsBlank b)) = rest := by
    cases rest with
    | nil => exact ⟨rfl, rfl⟩
    | cons c rest =>
      have hc : ¬decide (¬IsBlank c) = true := by
        rw [decide_eq_true_eq, not_not]
        exact hrest c rfl
      exact ⟨List.takeWhile_cons_of_neg hc, List.dropWhile_cons_of_neg hc⟩
  have hall : ∀ c ∈ word, decide (¬IsBlank c) = true := fun c hc => decide_eq_true (hword c hc)
  rw [words]
  split
  · rename_i heq
    rw [hdrop] at heq
    cases heq
  · rename_i heq
    rw [hdrop] at heq
    obtain ⟨rfl, rfl⟩ := List.cons.inj heq
    have hcons : (b :: (word ++ rest)).takeWhile (fun b => decide (¬IsBlank b)) = b :: word := by
      rw [List.takeWhile_cons_of_pos (p := fun b => decide (¬IsBlank b)) (decide_eq_true hb),
        List.takeWhile_append_of_pos hall, hstop.1, List.append_nil]
    rw [if_neg hquote, hcons, List.dropWhile_append_of_pos hall, hstop.2]

theorem Held.shift {cmd line p q : List Byte} {i : ℕ} (h : Held cmd line i word) (hlength : p.length = q.length) :
    Held (p ++ cmd) (q ++ line) (p.length + i) word := by
  constructor
  · rw [cString, List.drop_length_add_append]
    exact h.1
  · rw [hlength, List.drop_length_add_append]
    exact h.2

theorem held_word (hword : ∀ b ∈ word, b ≠ 0) (s t : List Byte) : Held (word ++ 0 :: t) (word ++ s) 0 word := by
  have htake : (word ++ 0 :: t).takeWhile (· ≠ 0) = word := by
    rw [List.takeWhile_append_of_pos fun b hb => decide_eq_true (hword b hb)]
    exact List.append_nil word
  rw [Held, cString, List.drop_zero, List.drop_zero, htake, if_pos (List.mem_append_right word List.mem_cons_self)]
  exact ⟨rfl, List.prefix_append word s⟩

/-- What is left of a line when its first words have been split off; it begins with a NUL if the line begins with a
blank. -/
structure Splits (line out tail : List Byte) (offs : List ℕ) (n : ℕ) : Prop where
  length : out.length = line.length
  ended : ∀ b ∈ line.head?, IsBlank b → out.head? = some 0
  held : List.Forall₂ (Held (out ++ 0 :: tail) line) offs ((words line).take n)

theorem splits_nil (tail : List Byte) (n : ℕ) : Splits [] [] tail [] n := by
  have hnil : words [] = [] := words_of_blank fun b hb => absurd hb List.not_mem_nil
  refine ⟨rfl, fun b hb => absurd hb (Option.not_mem_none b), ?_⟩
  rw [hnil, List.take_nil]
  exact List.Forall₂.nil

theorem Splits.prepend {p q word e z out : List Byte} {offs : List ℕ} {n : ℕ} (h : Splits rest out tail offs n)
    (hlength : p.length = q.length) (hends : z.length = e.length) (hword : ∀ b ∈ word, b ≠ 0)
    (hnul : (z ++ (out ++ 0 :: tail)).head? = some 0) (hwords : words (q ++ (word ++ (e ++ rest))) = word :: words rest)
    (hended : ∀ b ∈ (q ++ (word ++ (e ++ rest))).head?, IsBlank b → (p ++ (word ++ (z ++ out))).head? = some 0) :
    Splits (q ++ (word ++ (e ++ rest))) (p ++ (word ++ (z ++ out))) tail
      (p.length :: offs.map (p.length + (word.length + z.length) + ·)) (n + 1) := by
  refine ⟨?_, hended, ?_⟩
  · simp only [List.length_append, hlength, hends, h.length]
  · rw [hwords, List.take_succ_cons, List.append_assoc, List.append_assoc, List.append_assoc]
    refine List.Forall₂.cons ?_ ?_
    · obtain ⟨t, ht⟩ : ∃ t, z ++ (out ++ 0 :: tail) = 0 :: t := by
        cases hz : z ++ (out ++ 0 :: tail) with
        | nil =>
          rw [hz] at hnul
          cases hnul
        | cons c t =>
          rw [hz] at hnul
          exact ⟨t, congrArg (· :: t) (Option.some.inj hnul)⟩
      rw [ht]
      exact (held_word hword (e ++ rest) t).shift hlength
    · rw [List.forall₂_map_left_iff]
      refine h.held.imp fun i w hi => ?_
      have hpre : (p ++ (word ++ z)).length = (q ++ (word ++ e)).length := by
        simp only [List.length_append, hlength, hends]
      have hshift := hi.shift hpre
      simp only [List.length_append, List.append_assoc] at hshift
      exact hshift

/-! ### The whole line -/

theorem zeros_ended (hrest : ∀ b ∈ rest.head?, ¬IsBlank b) (s : List Byte) :
    ∀ b ∈ (blanks ++ rest).head?, IsBlank b → (zeros blanks.length ++ s).head? = some 0 := by
  intro b hb hblank
  cases blanks with
  | nil => exact absurd hblank (hrest b hb)
  | cons c blanks => rfl

theorem untilQuote_le (prev : Byte) (rest : List Byte) : untilQuote prev rest ≤ rest.length := by
  induction rest generalizing prev with
  | nil => exact le_rfl
  | cons b rest ih =>
    rw [untilQuote]
    split
    · exact Nat.zero_le _
    · exact Nat.succ_le_succ (ih b)

/-- The line up to `pre` has been split; the loop splits the rest. -/
def LoopSplits (max length fuel : ℕ) (pre rest tail : List Byte) (argv : List ℕ) : Prop :=
  ∃ out offs, splitLoop length max fuel (pre ++ (rest ++ 0 :: tail)) pre.length argv =
      some (pre ++ (out ++ 0 :: tail), argv ++ offs.map (pre.length + ·)) ∧
    Splits rest out tail offs (max - argv.length)

variable {max : ℕ} {argv : List ℕ}

theorem loopSplits_nil (hlength : length = pre.length) : LoopSplits max length (fuel + 1) pre [] tail argv := by
  refine ⟨[], [], ?_, splits_nil tail _⟩
  rw [splitLoop, if_neg (by rw [hlength]; exact lt_irrefl _), List.map_nil, List.append_nil]

section

variable (hblanks : ∀ b ∈ blanks, IsBlank b) (hlength : length = pre.length + (blanks ++ rest).length)

include hblanks hlength in
theorem splitLoop_strip (hne : blanks ++ rest ≠ []) (hrest : ∀ b ∈ rest.head?, ¬IsBlank b) :
    splitLoop length max (fuel + 1) (pre ++ (blanks ++ rest ++ 0 :: tail)) pre.length argv =
      if max ≤ argv.length then some (pre ++ (zeros blanks.length ++ (rest ++ 0 :: tail)), argv)
      else if length ≤ pre.length + blanks.length then
        some (pre ++ (zeros blanks.length ++ (rest ++ 0 :: tail)), argv)
      else (do
        let cmd := pre ++ (zeros blanks.length ++ (rest ++ 0 :: tail))
        let position := pre.length + blanks.length
        let b ← cmd[position]?
        if b = quote then
          let last ← skipString length cmd (length + 1) (position + 1)
          if length ≤ last then some (cmd, argv ++ [position + 1])
          else splitLoop length max fuel (← write cmd last 0) (last + 1) (argv ++ [position + 1])
        else
          let last ← skipWord length cmd (length + 1) position
          if length ≤ last then some (cmd, argv ++ [position])
          else splitLoop length max fuel cmd last (argv ++ [position])) := by
  have hpos := List.length_pos_of_ne_nil hne
  have hstrip : stripBlanks length (length + 1) (pre ++ (blanks ++ (rest ++ 0 :: tail))) pre.length = _ :=
    stripBlanks_spec hblanks hrest (by rw [hlength, List.length_append, Nat.add_assoc])
      (by rw [hlength, List.length_append]; omega)
  rw [splitLoop, if_pos (by omega), List.append_assoc, hstrip]
  rfl

end

theorem loopSplits_stop (hblanks : ∀ b ∈ blanks, IsBlank b) (hrest : ∀ b ∈ rest.head?, ¬IsBlank b)
    (hlength : length = pre.length + (blanks ++ rest).length) (hne : blanks ++ rest ≠ [])
    (hstop : max ≤ argv.length ∨ rest = []) : LoopSplits max length (fuel + 1) pre (blanks ++ rest) tail argv := by
  refine ⟨zeros blanks.length ++ rest, [], ?_, ?_, zeros_ended hrest rest, ?_⟩
  · rw [splitLoop_strip hblanks hlength hne hrest, List.map_nil, List.append_nil, List.append_assoc]
    rcases hstop with hfull | rfl
    · rw [if_pos hfull]
    · rw [List.append_nil] at hlength
      rw [if_pos hlength.le, ite_self]
  · rw [List.length_append, List.length_append, zeros, List.length_replicate]
  · rcases hstop with hfull | rfl
    · rw [Nat.sub_eq_zero_of_le hfull]
      exact List.Forall₂.nil
    · have hwords : words (blanks ++ []) = [] := by
        rw [List.append_nil]
        exact words_of_blank hblanks
      rw [hwords, List.take_nil]
      exact List.Forall₂.nil

theorem zeros_length (n : ℕ) : (zeros n).length = n := List.length_replicate

theorem LoopSplits.prepend {p q e z : List Byte} (h : LoopSplits max length fuel (pre ++ (p ++ (word ++ z))) rest tail
      (argv ++ [pre.length + p.length]))
    (hroom : ¬max ≤ argv.length) (hlength : p.length = q.length) (hends : z.length = e.length)
    (hword : ∀ b ∈ word, b ≠ 0)
    (hnul : z.head? = some 0 ∨ z = [] ∧ ∀ b ∈ rest.head?, IsBlank b)
    (hwords : words (q ++ (word ++ (e ++ rest))) = word :: words rest)
    (hended : ∀ b ∈ (q ++ (word ++ (e ++ rest))).head?, IsBlank b → ∀ out, (p ++ (word ++ (z ++ out))).head? = some 0)
    (hloop : splitLoop length max (fuel + 1) (pre ++ (q ++ (word ++ (e ++ rest)) ++ 0 :: tail)) pre.length argv =
      splitLoop length max fuel (pre ++ (p ++ (word ++ z)) ++ (rest ++ 0 :: tail)) (pre ++ (p ++ (word ++ z))).length
        (argv ++ [pre.length + p.length])) :
    LoopSplits max length (fuel + 1) pre (q ++ (word ++ (e ++ rest))) tail argv := by
  obtain ⟨out, offs, hrun, hsplits⟩ := h
  have hhead : (z ++ (out ++ 0 :: tail)).head? = some 0 := by
    rcases hnul with hz | ⟨rfl, hrest⟩
    · cases z with
      | nil => cases hz
      | cons c z => exact hz
    · have hended := hsplits.ended
      have hout := hsplits.length
      cases rest with
      | nil =>
        rw [List.eq_nil_of_length_eq_zero hout]
        rfl
      | cons c rest =>
        have hzero := hended c rfl (hrest c rfl)
        cases out with
        | nil => cases hzero
        | cons d out => exact hzero
  have hcount : max - argv.length = max - (argv ++ [pre.length + p.length]).length + 1 := by
    rw [List.length_append, List.length_singleton]
    omega
  refine ⟨p ++ (word ++ (z ++ out)), p.length :: offs.map (p.length + (word.length + z.length) + ·), ?_, ?_⟩
  · rw [hloop, hrun, List.map_cons, List.map_map]
    simp only [List.append_assoc, List.length_append, List.singleton_append]
    refine congrArg some (Prod.ext rfl ?_)
    refine congrArg (fun l => argv ++ (pre.length + p.length) :: l) (List.map_congr_left fun i _ => ?_)
    exact Nat.add_assoc pre.length _ i
  · rw [hcount]
    exact hsplits.prepend hlength hends hword hhead hwords fun b hb hblank => hended b hb hblank out

theorem splitLoop_end (hlength : length = pre.length) (argv : List ℕ) :
    splitLoop length max (fuel + 1) (pre ++ 0 :: tail) pre.length argv = some (pre ++ 0 :: tail, argv) := by
  rw [splitLoop, if_neg (by rw [hlength]; exact lt_irrefl _)]

theorem loopSplits_plain {b : Byte} (hblanks : ∀ b ∈ blanks, IsBlank b) (hb : ¬IsBlank b) (hquote : b ≠ quote)
    (hword : ∀ b ∈ word, ¬IsBlank b) (hrest : ∀ b ∈ rest.head?, IsBlank b) (hnul : ∀ c ∈ b :: word, c ≠ 0)
    (hlength : length = pre.length + (blanks ++ b :: (word ++ rest)).length) (hroom : ¬max ≤ argv.length)
    (h : LoopSplits max length (fuel + 1) (pre ++ (zeros blanks.length ++ b :: word)) rest tail
      (argv ++ [pre.length + blanks.length])) :
    LoopSplits max length (fuel + 2) pre (blanks ++ b :: (word ++ rest)) tail argv := by
  have hstart : (pre ++ zeros blanks.length).length = pre.length + blanks.length := by
    rw [List.length_append, zeros_length]
  have hread := getElem?_length (pre ++ zeros blanks.length) b (word ++ (rest ++ 0 :: tail))
  have hskip : skipWord length (pre ++ zeros blanks.length ++ (b :: word ++ (rest ++ 0 :: tail))) (length + 1)
      (pre ++ zeros blanks.length).length = some ((pre ++ zeros blanks.length).length + (b :: word).length) := by
    refine skipWord_spec (fun c hc => ?_) hrest ?_ ?_
    · rcases List.mem_cons.mp hc with rfl | hc
      · exact hb
      · exact hword c hc
    · rw [hstart, hlength, List.length_append, List.length_cons, List.length_cons, List.length_append]
      omega
    · rw [hlength, List.length_append, List.length_cons, List.length_cons, List.length_append]
      omega
  rw [hstart, List.append_assoc] at hread hskip
  rw [List.cons_append] at hskip
  have hne : blanks ++ b :: (word ++ rest) ≠ [] := List.append_ne_nil_of_right_ne_nil blanks (List.cons_ne_nil b _)
  have hhead : ∀ c ∈ (b :: (word ++ rest)).head?, ¬IsBlank c := by
    intro c hc
    rw [← Option.some.inj hc]
    exact hb
  have hpos : ¬length ≤ pre.length + blanks.length := by
    rw [hlength, List.length_append, List.length_cons]
    omega
  have hend : (pre ++ (zeros blanks.length ++ b :: word)).length = pre.length + blanks.length + (b :: word).length := by
    rw [← List.append_assoc, List.length_append, hstart]
  refine LoopSplits.prepend (e := []) (z := []) ?_ hroom (zeros_length _) rfl hnul (Or.inr ⟨rfl, hrest⟩)
    (words_plain hblanks hword hrest hb hquote) (fun c hc hblank out => zeros_ended hhead _ c hc hblank) ?_
  · rw [List.append_nil, zeros_length]
    exact h
  · rw [zeros_length, List.append_nil, hend]
    refine (splitLoop_strip hblanks hlength hne hhead).trans ?_
    rw [if_neg hroom, if_neg hpos]
    simp only [List.cons_append, List.append_assoc, hread, Option.bind_eq_bind, Option.bind_some, if_neg hquote]
    rw [hskip, Option.bind_some]
    split
    · rename_i hlast
      have hnil : rest = [] := by
        rw [hlength, List.length_append, List.length_cons, List.length_cons, List.length_append] at hlast
        exact List.eq_nil_of_length_eq_zero (by omega)
      have hfinal : length = (pre ++ (zeros blanks.length ++ b :: word)).length := by
        rw [hlength, hend, hnil, List.append_nil, List.length_append, Nat.add_assoc]
      have hstop : splitLoop length max (fuel + 1) (pre ++ (zeros blanks.length ++ b :: word) ++ 0 :: tail) _
          (argv ++ [pre.length + blanks.length]) = _ := splitLoop_end hfinal _
      rw [hend] at hstop
      simp only [List.append_assoc, List.cons_append] at hstop
      rw [hnil]
      exact hstop.symm
    · rfl

theorem loopSplits_quote {close : List Byte} (hblanks : ∀ b ∈ blanks, IsBlank b) (hnul : ∀ c ∈ word, c ≠ 0)
    (hword : word.length = untilQuote quote (word ++ (close ++ rest)))
    (hclose : close = [] ∧ rest = [] ∨ ∃ b, close = [b])
    (hlength : length = pre.length + (blanks ++ quote :: (word ++ (close ++ rest))).length) (hroom : ¬max ≤ argv.length)
    (h : LoopSplits max length (fuel + 1) (pre ++ (zeros blanks.length ++ quote :: (word ++ zeros close.length))) rest
      tail (argv ++ [pre.length + blanks.length + 1])) :
    LoopSplits max length (fuel + 2) pre (blanks ++ quote :: (word ++ (close ++ rest))) tail argv := by
  have hstart : (pre ++ zeros blanks.length).length = pre.length + blanks.length := by
    rw [List.length_append, zeros_length]
  have hstart' : (pre ++ zeros blanks.length ++ [quote]).length = pre.length + blanks.length + 1 := by
    rw [List.length_append, hstart]
    rfl
  have hread := getElem?_length (pre ++ zeros blanks.length) quote (word ++ (close ++ rest) ++ 0 :: tail)
  have hskip : skipString length (pre ++ zeros blanks.length ++ [quote] ++ (word ++ (close ++ rest) ++ 0 :: tail))
      (length + 1) (pre ++ zeros blanks.length ++ [quote]).length =
        some ((pre ++ zeros blanks.length ++ [quote]).length + word.length) := by
    rw [hword]
    refine skipString_spec quote (fun hback => absurd hback (by decide)) ?_ ?_
    · rw [hstart', hlength, List.length_append, List.length_cons]
      omega
    · rw [hlength]
      simp only [List.length_append, List.length_cons]
      omega
  rw [hstart'] at hskip
  rw [hstart] at hread
  simp only [List.append_assoc, List.singleton_append] at hread hskip
  have hne : blanks ++ quote :: (word ++ (close ++ rest)) ≠ [] :=
    List.append_ne_nil_of_right_ne_nil blanks (List.cons_ne_nil quote _)
  have hhead : ∀ c ∈ (quote :: (word ++ (close ++ rest))).head?, ¬IsBlank c := by
    intro c hc
    rw [← Option.some.inj hc]
    decide
  have hpos : ¬length ≤ pre.length + blanks.length := by
    rw [hlength, List.length_append, List.length_cons]
    omega
  have hp : (zeros blanks.length ++ [quote]).length = blanks.length + 1 := by
    rw [List.length_append, zeros_length]
    rfl
  have hq : (blanks ++ [quote]).length = blanks.length + 1 := List.length_append
  have hwords : words (blanks ++ quote :: (word ++ (close ++ rest))) = word :: words rest := by
    rw [words_quote hblanks, ← hword, List.take_left]
    refine congrArg (fun l => word :: words l) ?_
    rcases hclose with ⟨rfl, rfl⟩ | ⟨b, rfl⟩
    · exact List.drop_eq_nil_of_le (by rw [List.append_nil, List.append_nil]; omega)
    · rw [List.drop_length_add_append]
      rfl
  have hline : blanks ++ quote :: (word ++ (close ++ rest)) = blanks ++ [quote] ++ (word ++ (close ++ rest)) := by
    rw [List.append_assoc, List.singleton_append]
  have hnext : pre ++ (zeros blanks.length ++ [quote] ++ (word ++ zeros close.length)) =
      pre ++ (zeros blanks.length ++ quote :: (word ++ zeros close.length)) := by
    rw [List.append_assoc, List.singleton_append]
  have hlast : (pre ++ (zeros blanks.length ++ quote :: word)).length = pre.length + blanks.length + 1 + word.length := by
    rw [← List.append_assoc, List.length_append, hstart, List.length_cons]
    omega
  have hloop := @splitLoop_strip length (fuel + 1) pre blanks _ tail max argv hblanks hlength hne hhead
  rw [if_neg hroom, if_neg hpos] at hloop
  simp only [List.cons_append, List.append_assoc, hread, Option.bind_eq_bind, Option.bind_some, if_true] at hloop
  rw [hskip, Option.bind_some] at hloop
  rw [hline] at hwords ⊢
  refine LoopSplits.prepend (z := zeros close.length) ?_ hroom (hp.trans hq.symm) (zeros_length _) hnul ?_ hwords
    (fun c hc hblank out => ?_) ?_
  · rw [hnext, hp]
    exact h
  · rcases hclose with ⟨rfl, rfl⟩ | ⟨b, rfl⟩
    · exact Or.inr ⟨rfl, fun b hb => absurd hb (Option.not_mem_none b)⟩
    · exact Or.inl rfl
  · rw [← hline] at hc
    rw [List.append_assoc]
    exact zeros_ended hhead _ c hc hblank
  · rw [← hline, hnext, hp]
    simp only [List.cons_append, List.append_assoc]
    rw [hloop]
    rcases hclose with ⟨rfl, rfl⟩ | ⟨b, rfl⟩
    · have hfinal : length = (pre ++ (zeros blanks.length ++ quote :: word)).length := by
        rw [hlast, hlength, List.append_nil, List.append_nil, List.length_append, List.length_cons]
        omega
      have hstop : splitLoop length max (fuel + 1) (pre ++ (zeros blanks.length ++ quote :: word) ++ 0 :: tail) _
          (argv ++ [pre.length + blanks.length + 1]) = _ := splitLoop_end hfinal _
      rw [if_pos (hfinal.trans hlast).le]
      have hz : zeros ([] : List Byte).length = [] := rfl
      simp only [List.append_assoc, List.cons_append] at hstop
      simp only [hz, List.nil_append, List.append_nil, ← Nat.add_assoc]
      exact hstop.symm
    · have hmore : ¬length ≤ pre.length + blanks.length + 1 + word.length := by
        rw [hlength, List.length_append, List.length_cons, List.length_append, List.length_append, List.length_singleton]
        omega
      have hwrite := write_length (pre ++ (zeros blanks.length ++ quote :: word)) b 0 (rest ++ 0 :: tail)
      rw [hlast] at hwrite
      simp only [List.append_assoc, List.cons_append] at hwrite
      have hz : zeros [b].length = [0] := rfl
      have hbehind : (pre ++ (zeros blanks.length ++ quote :: (word ++ [0]))).length =
          pre.length + blanks.length + 1 + word.length + 1 := by
        rw [← hlast]
        simp only [List.length_append, List.length_cons, List.length_nil]
        omega
      simp only [if_neg hmore, hz, hbehind, List.cons_append, List.nil_append, ← Nat.add_assoc]
      rw [hwrite, Option.bind_some]

theorem not_blank_dropWhile (line : List Byte) : ∀ b ∈ (line.dropWhile fun b => decide (IsBlank b)).head?, ¬IsBlank b := by
  intro b hb
  induction line with
  | nil => cases hb
  | cons c line ih =>
    rw [List.dropWhile_cons] at hb
    split at hb
    · exact ih hb
    · rename_i hc
      rw [← Option.some.inj hb]
      exact fun hblank => hc (decide_eq_true hblank)

theorem blank_dropWhile (line : List Byte) : ∀ b ∈ (line.dropWhile fun b => decide (¬IsBlank b)).head?, IsBlank b := by
  intro b hb
  induction line with
  | nil => cases hb
  | cons c line ih =>
    rw [List.dropWhile_cons] at hb
    split at hb
    · exact ih hb
    · rename_i hc
      rw [← Option.some.inj hb]
      by_contra hblank
      exact hc (decide_eq_true hblank)

theorem mem_takeWhile {p : Byte → Prop} [DecidablePred p] (line : List Byte) :
    ∀ b ∈ line.takeWhile fun b => decide (p b), p b :=
  fun _ hb => of_decide_eq_true (List.mem_takeWhile_imp (p := fun b => decide (p b)) hb)

theorem loopSplits (hnul : ∀ b ∈ rest, b ≠ 0) (hlength : length = pre.length + rest.length) (hfuel : rest.length < fuel) :
    LoopSplits max length fuel pre rest tail argv := by
  induction fuel generalizing pre rest argv with
  | zero => exact absurd hfuel (Nat.not_lt_zero _)
  | succ fuel ih =>
    by_cases hne : rest = []
    · rw [hne] at hlength ⊢
      exact loopSplits_nil hlength
    · obtain ⟨blanks, hb⟩ : ∃ blanks, blanks = rest.takeWhile fun b => decide (IsBlank b) := ⟨_, rfl⟩
      obtain ⟨r, hr⟩ : ∃ r, r = rest.dropWhile fun b => decide (IsBlank b) := ⟨_, rfl⟩
      have hrest : rest = blanks ++ r := by
        rw [hb, hr]
        exact (List.takeWhile_append_dropWhile).symm
      have hblanks : ∀ b ∈ blanks, IsBlank b := by
        rw [hb]
        exact mem_takeWhile rest
      have hhead : ∀ b ∈ r.head?, ¬IsBlank b := by
        rw [hr]
        exact not_blank_dropWhile rest
      obtain ⟨fuel, rfl⟩ : ∃ n, fuel = n + 1 :=
        Nat.exists_eq_succ_of_ne_zero (by have := List.length_pos_of_ne_nil hne; omega)
      clear hb hr
      subst hrest
      by_cases hstop : max ≤ argv.length ∨ r = []
      · exact loopSplits_stop hblanks hhead hlength hne hstop
      · obtain ⟨hroom, hr⟩ := not_or.mp hstop
        obtain ⟨b, q, rfl⟩ := List.exists_cons_of_ne_nil hr
        have hb : ¬IsBlank b := hhead b rfl
        have hnulq : ∀ c ∈ b :: q, c ≠ 0 := fun c hc => hnul c (List.mem_append_right blanks hc)
        rw [List.length_append, List.length_cons] at hlength hfuel
        by_cases hquote : b = quote
        · subst hquote
          obtain ⟨n, hn⟩ : ∃ n, n = untilQuote quote q := ⟨_, rfl⟩
          have hle : n ≤ q.length := hn ▸ untilQuote_le quote q
          have hq : q = q.take n ++ ((q.drop n).take 1 ++ q.drop (n + 1)) := by
            rw [← List.drop_drop, List.take_append_drop, List.take_append_drop]
          have hclose : (q.drop n).take 1 = [] ∧ q.drop (n + 1) = [] ∨ ∃ c, (q.drop n).take 1 = [c] := by
            rw [← List.drop_drop]
            cases q.drop n with
            | nil => exact Or.inl ⟨rfl, rfl⟩
            | cons c s => exact Or.inr ⟨c, rfl⟩
          have hsum : q.length = n + (((q.drop n).take 1).length + (q.drop (n + 1)).length) := by
            rw [List.length_take, List.length_drop, List.length_drop]
            omega
          have hmem : ∀ c ∈ q.drop (n + 1), c ≠ 0 := fun c hc => hnulq c (List.mem_cons_of_mem _ (List.mem_of_mem_drop hc))
          rw [hq]
          refine loopSplits_quote hblanks (fun c hc => hnulq c (List.mem_cons_of_mem _ (List.mem_of_mem_take hc))) ?_ hclose
            ?_ hroom (ih hmem ?_ ?_)
          · rw [← hq, List.length_take, Nat.min_eq_left hle, hn]
          · rw [← hq, List.length_append, List.length_cons]
            exact hlength
          · simp only [List.length_append, List.length_cons, zeros_length, List.length_take, Nat.min_eq_left hle] at hsum ⊢
            omega
          · rw [List.length_drop]
            omega
        · have hq : q = (q.takeWhile fun c => decide (¬IsBlank c)) ++ q.dropWhile fun c => decide (¬IsBlank c) :=
            List.takeWhile_append_dropWhile.symm
          have hsum := congrArg List.length hq
          rw [List.length_append] at hsum
          rw [hq]
          refine loopSplits_plain hblanks hb hquote (mem_takeWhile q) (blank_dropWhile q) (fun c hc => ?_) ?_ hroom
            (ih (fun c hc => ?_) ?_ ?_)
          · rcases List.mem_cons.mp hc with rfl | hc
            · exact hnulq c List.mem_cons_self
            · exact hnulq c (List.mem_cons_of_mem b ((List.takeWhile_sublist _).subset hc))
          · rw [← hq, List.length_append, List.length_cons]
            exact hlength
          · exact hnulq c (List.mem_cons_of_mem b ((List.dropWhile_sublist _).subset hc))
          · rw [List.length_append, List.length_append, List.length_cons, zeros_length]
            omega
          · omega

/-- The pointers are those of the first words, each ended by a NUL that is written into the line. -/
theorem mshSplit_words (max : ℕ) (b : CommandBuffer) : ∃ line argv,
    mshSplit b.line.length max b.cmd = some (line ++ 0 :: b.tail, argv) ∧ line.length = b.line.length ∧
      argv.length ≤ max ∧ List.Forall₂ (Held (line ++ 0 :: b.tail) b.line) argv ((words b.line).take max) := by
  obtain ⟨out, offs, hrun, hsplits⟩ : LoopSplits max b.line.length (b.line.length + 1) [] b.line b.tail [] :=
    loopSplits b.noNul (Nat.zero_add _).symm (Nat.lt_succ_self _)
  have hmap : offs.map (0 + ·) = offs := by
    rw [List.map_congr_left fun i _ => Nat.zero_add i, List.map_id']
  refine ⟨out, offs, ?_, hsplits.length, ?_, hsplits.held⟩
  · rw [mshSplit, CommandBuffer.cmd]
    refine hrun.trans ?_
    rw [List.length_nil, hmap]
    rfl
  · rw [hsplits.held.length_eq]
    exact List.length_take_le max _

end RtThread.Shell
