import Mathlib
import RtThread.Finsh.Token

/-!
# FinSH: what the scanners read (`finsh_token.c:75-186`)

A line ends at its newline or at its NUL.
-/

namespace RtThread.Finsh

def textOf (line : List Byte) : List Byte := line.takeWhile fun b => decide (b ≠ newline)

/-- The characters from the position to the end of the line are still to be read. -/
structure Token.At (s : Token) (rest : List Byte) : Prop where
  eof : s.eof = false
  within : s.position ≤ (textOf s.line).length
  rest : (textOf s.line).drop s.position = rest

def Token.advance (s : Token) (n : ℕ) : Token := { s with position := s.position + n }

def Token.finish (s : Token) : Token := { s with eof := true, position := 0 }

/-- One character is looked at. -/
def Token.stop (s : Token) : Token := tokenPrevChar (tokenNextChar s).2

variable {s : Token} {c : Byte} {w blanks rest : List Byte}

theorem getElem?_length_takeWhile (p : Byte → Bool) (l : List Byte) : ∀ b ∈ l[(l.takeWhile p).length]?, p b = false := by
  intro b hb
  induction l with
  | nil => cases hb
  | cons a l ih =>
    by_cases ha : p a = true
    · rw [List.takeWhile_cons_of_pos ha, List.length_cons, List.getElem?_cons_succ] at hb
      exact ih hb
    · rw [List.takeWhile_cons_of_neg ha] at hb
      cases hb
      exact Bool.eq_false_iff.mpr ha

theorem Token.At.length (h : s.At rest) : s.position + rest.length = (textOf s.line).length := by
  rw [← h.rest, List.length_drop, Nat.add_sub_cancel' h.within]

theorem Token.At.length_lt_fuel (h : s.At (w ++ rest)) : w.length < s.fuel := by
  have htext := h.length
  have hle : (textOf s.line).length ≤ s.line.length := (List.takeWhile_sublist _).length_le
  rw [List.length_append] at htext
  rw [Token.fuel]
  omega

theorem Token.At.advance (h : s.At (w ++ rest)) : (s.advance w.length).At rest := by
  refine ⟨h.eof, ?_, ?_⟩
  · have htext := h.length
    rw [List.length_append] at htext
    change s.position + w.length ≤ (textOf s.line).length
    omega
  · change (textOf s.line).drop (s.position + w.length) = rest
    rw [← List.drop_drop, h.rest, List.drop_left]

theorem advance_advance (s : Token) (m n : ℕ) : (s.advance m).advance n = s.advance (m + n) := by
  rw [Token.advance, Token.advance, Token.advance, Nat.add_assoc]

theorem tokenNextChar_cons (h : s.At (c :: rest)) : tokenNextChar s = (c, s.advance 1) := by
  have hread : (textOf s.line)[s.position]? = some c := by
    rw [← List.head?_drop, h.rest]
    rfl
  have hline : s.line[s.position]? = some c := by
    obtain ⟨hlt, -⟩ := List.getElem?_eq_some_iff.mp hread
    have hsplit : textOf s.line ++ s.line.dropWhile (fun b => decide (b ≠ newline)) = s.line :=
      List.takeWhile_append_dropWhile
    rw [← hsplit, List.getElem?_append_left hlt, hread]
  have hne : c ≠ newline :=
    of_decide_eq_true (List.mem_takeWhile_imp (p := fun b => decide (b ≠ newline)) (List.mem_of_getElem? hread))
  rw [tokenNextChar, if_neg (by rw [h.eof]; exact Bool.false_ne_true), hline]
  exact if_neg hne

theorem tokenNextChar_nil (h : s.At []) : tokenNextChar s = (0, s.finish) := by
  have hposition : s.position = (textOf s.line).length := h.length
  have hline := getElem?_length_takeWhile (fun b => decide (b ≠ newline)) s.line
  rw [← textOf, ← hposition] at hline
  rw [tokenNextChar, if_neg (by rw [h.eof]; exact Bool.false_ne_true)]
  cases hread : s.line[s.position]? with
  | none => rfl
  | some b =>
    have hb : b = newline := not_not.mp (of_decide_eq_false (hline b hread))
    exact if_pos hb

theorem tokenNextChar_ended (h : s.eof = true) : tokenNextChar s = (0, s) := if_pos h

theorem stop_cons (h : s.At (c :: rest)) : s.stop = s := by
  rw [Token.stop, tokenNextChar_cons h, tokenPrevChar, if_neg (by rw [Token.advance, h.eof]; exact Bool.false_ne_true)]
  exact if_neg (Nat.succ_ne_zero s.position)

theorem stop_nil (h : s.At []) : s.stop = s.finish := by
  rw [Token.stop, tokenNextChar_nil h]
  rfl

theorem scan_spec {p : Byte → Token → Bool} {q : Byte → Bool} (hpq : ∀ ch s, s.eof = false → p ch s = q ch)
    (hend : ∀ s, p 0 s = false) (h : s.At (w ++ rest)) (hw : ∀ c ∈ w, q c = true) (hrest : ∀ c ∈ rest.head?, q c = false)
    {fuel : ℕ} (hfuel : w.length < fuel) :
    scan p fuel (tokenNextChar s).1 (tokenNextChar s).2 = some (w, tokenNextChar (s.advance w.length)) := by
  induction w generalizing s fuel with
  | nil =>
    obtain ⟨fuel, rfl⟩ := Nat.exists_eq_succ_of_ne_zero (Nat.ne_of_gt hfuel)
    have hstop : p (tokenNextChar s).1 (tokenNextChar s).2 = false := by
      cases rest with
      | nil =>
        rw [tokenNextChar_nil h]
        exact hend _
      | cons c rest =>
        rw [tokenNextChar_cons h]
        exact (hpq c (s.advance 1) h.eof).trans (hrest c rfl)
    rw [scan, if_neg (by rw [hstop]; exact Bool.false_ne_true)]
    rfl
  | cons c w ih =>
    obtain ⟨fuel, rfl⟩ := Nat.exists_eq_succ_of_ne_zero (Nat.ne_zero_of_lt hfuel)
    have hnext : (s.advance 1).At (w ++ rest) := Token.At.advance (w := [c]) h
    have hgo : p (tokenNextChar s).1 (tokenNextChar s).2 = true := by
      rw [tokenNextChar_cons h]
      exact (hpq c (s.advance 1) h.eof).trans (hw c List.mem_cons_self)
    have hrun := ih hnext (fun b hb => hw b (List.mem_cons_of_mem c hb)) (Nat.lt_of_succ_lt_succ hfuel)
    rw [scan, if_pos hgo, tokenNextChar_cons h, hrun, Option.map_some, advance_advance, Nat.add_comm 1]
    rfl

theorem scan_chars {p : Byte → Bool} (hend : p 0 = false) (h : s.At (w ++ rest)) (hw : ∀ c ∈ w, p c = true)
    (hrest : ∀ c ∈ rest.head?, p c = false) :
    scan (fun ch _ => p ch) s.fuel (tokenNextChar s).1 (tokenNextChar s).2 = some (w, tokenNextChar (s.advance w.length)) :=
  scan_spec (q := p) (fun _ _ _ => rfl) (fun _ => hend) h hw hrest h.length_lt_fuel

theorem fuel_next (s : Token) : (tokenNextChar s).2.fuel = s.fuel := by
  rw [tokenNextChar]
  split
  · rfl
  · split
    · rfl
    · split
      · rfl
      · rfl

/-! ### Blanks and names -/

theorem tokenTrimSpace_spec (h : s.At (blanks ++ rest)) (hblanks : ∀ c ∈ blanks, isBlank c = true)
    (hrest : ∀ c ∈ rest.head?, isBlank c = false) : tokenTrimSpace s = some (s.advance blanks.length).stop := by
  rw [tokenTrimSpace, scan_chars rfl h hblanks hrest]
  rfl

/-- A part of a name. -/
def isName (ch : Byte) : Bool := !isSeparator ch

theorem isName_ne_zero (h : isName c = true) : c ≠ 0 := by
  intro hzero
  rw [hzero] at h
  exact absurd h (by decide)

/-- After a name at the end of the line, the position is at its beginning. -/
def Token.afterName (s : Token) (w rest : List Byte) : Token :=
  { s with position := if rest = [] then 0 else s.position + w.length }.clear.store w

theorem Token.At.clear (h : s.At rest) : s.clear.At rest := ⟨h.eof, h.within, h.rest⟩

theorem getName_spec (h : s.At (w ++ rest)) (hw : ∀ c ∈ w, isName c = true) (hrest : ∀ c ∈ rest.head?, isName c = false) :
    getName (tokenNextChar s).1 (tokenNextChar s).2 = if w.length < finshStringMax then
      some ({ s with position := if rest = [] then 0 else s.position + w.length }.store w) else none := by
  have hscan : scan (fun ch s => !isSeparator ch && !s.eof) s.fuel _ _ = _ :=
    scan_spec (q := isName) (fun ch s heof => by rw [heof]; exact Bool.and_true _) (fun _ => rfl) h hw hrest
      h.length_lt_fuel
  have hstop : tokenPrevChar { (tokenNextChar (s.advance w.length)).2 with eof := false } =
      { s with position := if rest = [] then 0 else s.position + w.length } := by
    have hnext := h.advance
    have heof := h.eof
    cases rest with
    | nil =>
      rw [tokenNextChar_nil hnext, if_pos rfl]
      obtain ⟨line, position, eof, replay, token, value, string, errno⟩ := s
      obtain rfl : eof = false := heof
      rfl
    | cons c rest =>
      rw [tokenNextChar_cons hnext, if_neg (List.cons_ne_nil c rest)]
      obtain ⟨line, position, eof, replay, token, value, string, errno⟩ := s
      obtain rfl : eof = false := heof
      rfl
  rw [getName, fuel_next, hscan, Option.bind_eq_bind, Option.bind_some, hstop]

theorem tokenGetString_digit (h : s.At (c :: rest)) (hc : isDigit c = true) : tokenGetString s = some s.clear := by
  have hstop := stop_cons h.clear
  rw [Token.stop, tokenNextChar_cons h.clear] at hstop
  rw [tokenGetString, tokenNextChar_cons h]
  simp only [Token.advance, h.eof, hc, if_true, Bool.false_eq_true, if_false]
  rw [← h.eof]
  exact congrArg some hstop

theorem tokenGetString_name (h : s.At (c :: w ++ rest)) (hw : ∀ b ∈ c :: w, isName b = true) (hc : isDigit c = false)
    (hrest : ∀ c ∈ rest.head?, isName c = false) :
    tokenGetString s = if (c :: w).length < finshStringMax then some (s.afterName (c :: w) rest) else none := by
  have hspec := getName_spec h.clear hw hrest
  rw [tokenNextChar_cons h.clear] at hspec
  rw [tokenGetString, tokenNextChar_cons h]
  simp only [Token.advance, h.eof, hc, Bool.false_eq_true, if_false]
  rw [← h.eof]
  exact hspec

theorem tokenGetString_separator (h : s.At (c :: rest)) (hc : isName c = false) (hdigit : isDigit c = false) :
    tokenGetString s = some (s.clear.store []) := by
  have hspec := getName_spec (w := []) h.clear (fun b hb => absurd hb List.not_mem_nil) fun b hb => by
    cases hb
    exact hc
  rw [tokenNextChar_cons h.clear, if_neg (List.cons_ne_nil c rest)] at hspec
  rw [tokenGetString, tokenNextChar_cons h]
  simp only [Token.advance, h.eof, hdigit, Bool.false_eq_true, if_false]
  rw [← h.eof]
  exact hspec

/-! ### A token -/

theorem head_clear (s : Token) : s.clear.string.headD 0 = 0 := by
  rw [Token.clear]
  cases s.string with
  | nil => rfl
  | cons b string => rfl

theorem tokenRun_trim (h : s.At (blanks ++ rest)) (hblanks : ∀ c ∈ blanks, isBlank c = true)
    (hrest : ∀ c ∈ rest.head?, isBlank c = false) :
    tokenRun s = (tokenGetString (s.advance blanks.length).stop).bind fun s =>
      if s.eof then some { s with currentToken := .eof }
      else if s.string.headD 0 ≠ 0 then some { s with currentToken := (tokenMatchName s.string).getD .identifier }
      else tokenOperator s := by
  rw [tokenRun, tokenTrimSpace_spec h hblanks hrest]
  rfl

theorem tokenRun_ended (h : s.eof = true) : tokenRun s = some { s with currentToken := .eof } := by
  have htrim : tokenTrimSpace s = some s := by
    have hstop : isBlank 0 = false := rfl
    have hprev : tokenPrevChar s = s := if_pos h
    rw [tokenTrimSpace, tokenNextChar_ended h, Token.fuel, scan, if_neg (by rw [hstop]; exact Bool.false_ne_true)]
    exact congrArg some hprev
  have hname : tokenGetString s = some s := by
    rw [tokenGetString, tokenNextChar_ended h]
    exact if_pos h
  rw [tokenRun, htrim, Option.bind_eq_bind, Option.bind_some, hname, Option.bind_some, if_pos h]

theorem tokenRun_end (h : s.At blanks) (hblanks : ∀ c ∈ blanks, isBlank c = true) :
    tokenRun s = some { (s.advance blanks.length).finish with currentToken := .eof } := by
  rw [← List.append_nil blanks] at h
  have hname : tokenGetString (s.advance blanks.length).finish = some (s.advance blanks.length).finish := rfl
  rw [tokenRun_trim h hblanks fun c hc => absurd hc (Option.not_mem_none c), stop_nil h.advance, hname]
  rfl

theorem tokenRun_name (h : s.At (blanks ++ (c :: w ++ rest))) (hblanks : ∀ b ∈ blanks, isBlank b = true)
    (hc : isDigit c = false) (hw : ∀ b ∈ c :: w, isName b = true) (hrest : ∀ b ∈ rest.head?, isName b = false) :
    tokenRun s = if (c :: w).length < finshStringMax then
      some { (s.advance blanks.length).afterName (c :: w) rest with
        currentToken := (tokenMatchName ((s.advance blanks.length).afterName (c :: w) rest).string).getD .identifier }
      else none := by
  have hnonblank : isBlank c = false := by
    by_contra hblank
    rw [Bool.not_eq_false] at hblank
    have hsep : isName c = false := by
      rcases of_decide_eq_true hblank with rfl | rfl | rfl <;> rfl
    exact absurd ((hw c List.mem_cons_self).symm.trans hsep) (by decide)
  have hat : (s.advance blanks.length).At (c :: w ++ rest) := h.advance
  rw [tokenRun_trim h hblanks fun b hb => by cases hb; exact hnonblank, stop_cons hat, tokenGetString_name hat hw hc hrest]
  split
  · have hhead : ((s.advance blanks.length).afterName (c :: w) rest).string.headD 0 ≠ 0 :=
      isName_ne_zero (hw c List.mem_cons_self)
    have heof : ((s.advance blanks.length).afterName (c :: w) rest).eof = false := h.eof
    rw [Option.bind_some, if_neg (by rw [heof]; exact Bool.false_ne_true), if_pos hhead]
  · rfl

theorem tokenRun_operator (h : s.At (blanks ++ c :: rest)) (hblanks : ∀ b ∈ blanks, isBlank b = true)
    (hblank : isBlank c = false) (hc : isName c = false ∨ isDigit c = true) :
    ∃ string, tokenRun s = tokenOperator { s.advance blanks.length with string := string } ∧
      { s.advance blanks.length with string := string }.At (c :: rest) := by
  have hat : (s.advance blanks.length).At (c :: rest) := h.advance
  have hrun := tokenRun_trim h hblanks fun b hb => by cases hb; exact hblank
  have heof : (s.advance blanks.length).eof = false := h.eof
  rw [stop_cons hat] at hrun
  by_cases hdigit : isDigit c = true
  · rw [tokenGetString_digit hat hdigit, Option.bind_some, if_neg (by exact fun he => absurd (he.symm.trans heof) (by decide)),
      if_neg (by exact fun hne => hne (head_clear _))] at hrun
    exact ⟨_, hrun, hat.clear⟩
  · rw [Bool.not_eq_true] at hdigit
    have hname : isName c = false := hc.resolve_right (by rw [hdigit]; exact Bool.false_ne_true)
    rw [tokenGetString_separator hat hname hdigit, Option.bind_some,
      if_neg (by exact fun he => absurd (he.symm.trans heof) (by decide)), if_neg (by exact fun hne => hne rfl)] at hrun
    exact ⟨_, hrun, ⟨hat.eof, hat.within, hat.rest⟩⟩

end RtThread.Finsh
