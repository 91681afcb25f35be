import Mathlib
import RtThread.Finsh.Literals

/-!
# FinSH: reading a line to its end (`finsh_token.c:64-294`)
-/

namespace RtThread.Finsh

/-! ### The words of a line -/

/-- Behind the closing quote, if it is there. -/
def closeQuote : List Byte → List Byte
  | [] => []
  | c :: rest => if c = quote then rest else c :: rest

/-- Behind a character in quotes; too many digits overrun the buffer for them. -/
def lexChar : List Byte → Option (List Byte)
  | [] => some []
  | c :: rest =>
    if c = backslash then
      if ∃ e ∈ rest.head?, (charEscape e).isSome = true then some (closeQuote rest.tail)
      else if (rest.takeWhile isDigit).length < 4 then some (closeQuote (rest.dropWhile isDigit))
      else none
    else some (closeQuote rest)

/-- Behind an escape in a string. -/
def lexEscape : List Byte → List Byte
  | [] => []
  | e :: rest =>
    if (stringEscape e).isSome = true then rest
    else if e = 0x78 ∨ e = 0x58 then rest.dropWhile isXdigit
    else if isOctal e then (e :: rest).dropWhile isOctal
    else rest

/-- Behind a string, or where the room for it ends. -/
def lexString : ℕ → List Byte → List Byte
  | 0, text => text
  | _ + 1, [] => []
  | room + 1, c :: rest =>
    if c = backslash then lexString room (lexEscape rest)
    else if c = doubleQuote then rest
    else lexString room rest

/-- Behind the suffix of a number. -/
def lexSuffix : List Byte → List Byte
  | [] => []
  | c :: rest => if c = 0x6c ∨ c = 0x4c then rest else c :: rest

/-- Behind the digits of a number that are stored in a buffer. -/
def lexSpec (p : Byte → Bool) (text : List Byte) : Option (List Byte) :=
  if (text.takeWhile p).length < 128 then some (lexSuffix (text.dropWhile p)) else none

/-- Behind a number. -/
def lexNumber : List Byte → Option (List Byte)
  | [] => some []
  | c :: rest =>
    if c = 0x30 then
      match rest with
      | [] => some []
      | x :: digits =>
        if x = 0x78 ∨ x = 0x58 then lexSpec (fun c => isDigit c || isAlpha c) digits
        else if x = 0x62 ∨ x = 0x42 then lexSpec isBinary digits
        else if isOctal x then lexSpec isOctal (x :: digits)
        else some (x :: digits)
    else some (lexSuffix ((c :: rest).dropWhile isDigit))

inductive Lexed where
  | stop
  | token (rest : List Byte)
  | restart
  | overrun
  deriving DecidableEq

def Lexed.ofOption : Option (List Byte) → Lexed
  | none => .overrun
  | some rest => .token rest

/-- What begins with an operator, a quote or a digit. -/
def lexOperator (c : Byte) (rest : List Byte) : Lexed :=
  if (tokenOfChar c).isSome = true then .token rest
  else
    match tokenOfPair c with
    | some (twice, once) =>
      if rest.head? = some c then if twice = .eof then .stop else .token rest.tail
      else if once = .bad then .stop
      else .token rest
    | none =>
      if c = quote then .ofOption (lexChar rest)
      else if c = doubleQuote then .token (lexString finshStringMax rest)
      else if isDigit c then .ofOption (lexNumber (c :: rest))
      else .stop

/-- The first token of a text: the end of it, a comment or a bad token, a token with what is left behind it, a name that
the text ends with, or something that is too long for its buffer. -/
def lex (text : List Byte) : Lexed :=
  match text.dropWhile isBlank with
  | [] => .stop
  | c :: rest =>
    if isName c = true ∧ isDigit c = false then
      if ((c :: rest).takeWhile isName).length < finshStringMax then
        if (c :: rest).dropWhile isName = [] then .restart else .token ((c :: rest).dropWhile isName)
      else .overrun
    else lexOperator c rest

/-- What is left behind tokens of a text. -/
def Reached : List Byte → List Byte → Prop := Relation.ReflTransGen fun text rest => lex text = .token rest

/-! ### Reading tokens -/

/-- The number of characters that are read. -/
def Token.consumed (s : Token) : ℕ := if s.eof then (textOf s.line).length else s.position

/-- The token is the end of the line or a bad one. -/
def Token.Stops (s : Token) : Prop := s.currentToken = .eof ∨ s.currentToken = .bad

/-- The end or a bad token is among the next tokens, and no token begins before the end of the one before it. -/
def ReachesEnd : ℕ → Token → Prop
  | 0, _ => False
  | n + 1, s => ∃ s', finshTokenToken s = some s' ∧ s.consumed ≤ s'.consumed ∧ (s'.Stops ∨ ReachesEnd n s')

/-- The line has no more tokens than characters before its end. -/
def LineEnds (line : List Byte) : Prop := ReachesEnd (line.length + 1) (finshTokenInit line)

/-- The text is still to be read, or has been read to its end. -/
def Token.Left (s' s : Token) (rest : List Byte) : Prop :=
  s'.line = s.line ∧ s'.replay = s.replay ∧ (s'.At rest ∨ rest = [] ∧ s'.eof = true)

variable {s s' : Token} {c : Byte} {w text rest : List Byte}

theorem Token.At.left (h : s.At rest) : s.Left s rest := ⟨rfl, rfl, Or.inl h⟩

theorem Token.At.left_advance (h : s.At (w ++ rest)) : (s.advance w.length).Left s rest := ⟨rfl, rfl, Or.inl h.advance⟩

theorem Token.At.left_stop (h : s.At rest) : s.stop.Left s rest := by
  cases rest with
  | nil =>
    rw [stop_nil h]
    exact ⟨rfl, rfl, Or.inr ⟨rfl, rfl⟩⟩
  | cons c rest =>
    rw [stop_cons h]
    exact h.left

theorem Token.Left.trans {s'' : Token} (h : s'.Left s text) (h' : s''.Left s' rest) : s''.Left s rest :=
  ⟨h'.1.trans h.1, h'.2.1.trans h.2.1, h'.2.2⟩

theorem Token.Left.update (h : s'.Left s rest) {u : Token} (hl : u.line = s'.line) (hr : u.replay = s'.replay)
    (he : u.eof = s'.eof) (hp : u.position = s'.position) : u.Left s rest := by
  refine ⟨hl.trans h.1, hr.trans h.2.1, ?_⟩
  rcases h.2.2 with hat | ⟨hnil, heof⟩
  · exact Or.inl ⟨he.trans hat.eof, by rw [hp, hl]; exact hat.within, by rw [hp, hl]; exact hat.rest⟩
  · exact Or.inr ⟨hnil, he.trans heof⟩

theorem Token.Left.consumed (h : s'.Left s rest) : s'.consumed + rest.length = (textOf s.line).length := by
  obtain ⟨hline, -, hat | ⟨rfl, heof⟩⟩ := h
  · have hconsumed : s'.consumed = s'.position := if_neg (by rw [hat.eof]; exact Bool.false_ne_true)
    rw [hconsumed, ← hline, hat.length]
  · have hconsumed : s'.consumed = (textOf s'.line).length := if_pos heof
    rw [hconsumed, hline, List.length_nil, Nat.add_zero]

theorem consumed_le (h : s.Left s text) (h' : s'.Left s rest) (hle : rest.length ≤ text.length) : s.consumed ≤ s'.consumed := by
  have hs := h.consumed
  have hs' := h'.consumed
  omega

/-- What `token_run` does for a text. -/
def Lexed.Gives (result : Option Token) (s : Token) : Lexed → Prop
  | .stop => ∃ s', result = some s' ∧ s.consumed ≤ s'.consumed ∧ s'.Stops
  | .token rest => ∃ s', result = some s' ∧ s'.Left s rest ∧ ¬s'.Stops
  | .restart => ∃ s', result = some s' ∧ (s'.line = s.line ∧ s'.replay = s.replay ∧ s'.eof = false ∧ s'.position = 0) ∧
      ¬s'.Stops
  | .overrun => result = none

theorem not_stops {t : TokenType} (h : s.currentToken = t) (heof : t ≠ .eof) (hbad : t ≠ .bad) : ¬s.Stops := by
  intro hstops
  rcases hstops with he | hb
  · exact heof (h.symm.trans he)
  · exact hbad (h.symm.trans hb)

theorem Token.At.split (p : Byte → Bool) (h : s.At text) :
    s.At (text.takeWhile p ++ text.dropWhile p) ∧ (∀ c ∈ text.takeWhile p, p c = true) ∧
      ∀ c ∈ (text.dropWhile p).head?, p c = false := by
  refine ⟨by rwa [List.takeWhile_append_dropWhile], fun c hc => List.mem_takeWhile_imp hc, fun c hc => ?_⟩
  have hnot := List.head?_dropWhile_not p text
  rw [Option.mem_def.mp hc] at hnot
  exact hnot

/-! ### Numbers -/

theorem number_left (h : s.At text) (value : Word) : (s.number value).Left s (lexSuffix text) := by
  have heof := h.eof
  cases text with
  | nil =>
    rw [Token.number, tokenNextChar_nil h]
    exact ⟨rfl, rfl, Or.inr ⟨rfl, rfl⟩⟩
  | cons c rest =>
    rw [Token.number, tokenNextChar_cons h, lexSuffix, procSuffix]
    split
    · exact (Token.At.left_advance (w := [c]) h).update rfl rfl rfl rfl
    · obtain ⟨line, position, eof, replay, token, v, string, errno⟩ := s
      obtain rfl : eof = false := heof
      exact h.left.update rfl rfl rfl rfl

theorem number_not_stops (s : Token) (value : Word) : ¬(s.number value).Stops := by
  rcases number_token s value with h | h
  · exact not_stops h (by decide) (by decide)
  · exact not_stops h (by decide) (by decide)

theorem number_gives {k : ℕ} (h : (s.advance k).At text) (value : Word) :
    (Lexed.token (lexSuffix text)).Gives (some ((s.advance k).number value)) s :=
  ⟨_, rfl, number_left h value, number_not_stops _ value⟩

theorem spec_gives {p : Byte → Bool} {k : ℕ} (h : (s.advance k).At text) {result : Option Token} {value : Word}
    (hrun : result = if (text.takeWhile p).length < 128 then
      some ((s.advance (k + (text.takeWhile p).length)).number value) else none) :
    (Lexed.ofOption (lexSpec p text)).Gives result s := by
  rw [hrun, lexSpec]
  split
  · have hbehind := (h.split p).1.advance
    rw [advance_advance] at hbehind
    exact number_gives hbehind value
  · rfl

theorem tokenProcNumber_gives (h : s.At (c :: rest)) (hc : isDigit c = true) :
    (Lexed.ofOption (lexNumber (c :: rest))).Gives (tokenProcNumber s) s := by
  by_cases hzero : c = 0x30
  · subst hzero
    cases rest with
    | nil =>
      have hrun := procNumber_zero h fun b hb => absurd hb (Option.not_mem_none b)
      rw [hrun]
      have hleft := (Token.At.left_advance (w := [0x30]) h).trans (Token.At.advance (w := [0x30]) h).left_stop
      exact ⟨_, rfl, hleft.update rfl rfl rfl rfl, not_stops (t := .valueInt) rfl (by decide) (by decide)⟩
    | cons x digits =>
      have h1 : (s.advance 1).At (x :: digits) := Token.At.advance (w := [0x30]) h
      have h2 : (s.advance 2).At digits := Token.At.advance (w := [0x30, x]) h
      have hsplit : ∀ p : Byte → Bool, s.At (0x30 :: x :: (digits.takeWhile p ++ digits.dropWhile p)) := by
        intro p
        rw [List.takeWhile_append_dropWhile]
        exact h
      rw [lexNumber, if_pos rfl]
      by_cases hhex : x = 0x78 ∨ x = 0x58
      · obtain ⟨-, hw, hstop⟩ := h2.split fun c => isDigit c || isAlpha c
        rw [if_pos hhex]
        exact spec_gives h2 (procNumber_hex hhex (hsplit _) hw hstop)
      · rw [if_neg hhex]
        by_cases hbinary : x = 0x62 ∨ x = 0x42
        · obtain ⟨-, hw, hstop⟩ := h2.split isBinary
          rw [if_pos hbinary]
          exact spec_gives h2 (procNumber_binary hbinary (hsplit _) hw hstop)
        · rw [if_neg hbinary]
          by_cases hoctal : isOctal x = true
          · obtain ⟨-, hw, hstop⟩ := h1.split isOctal
            have htake : (x :: digits).takeWhile isOctal = x :: digits.takeWhile isOctal := List.takeWhile_cons_of_pos hoctal
            have hdrop : (x :: digits).dropWhile isOctal = digits.dropWhile isOctal := List.dropWhile_cons_of_pos hoctal
            rw [if_pos hoctal]
            rw [htake] at hw
            rw [hdrop] at hstop
            have hrun := procNumber_octal (hsplit isOctal) hw hstop
            rw [← htake] at hrun
            exact spec_gives h1 hrun
          · rw [if_neg hoctal]
            rw [Bool.not_eq_true] at hoctal
            have hrun := procNumber_zero h fun b hb => by
              obtain rfl : x = b := Option.some.inj hb
              exact ⟨hhex, hbinary, hoctal⟩
            have hleft := (Token.At.left_advance (w := [0x30]) h).trans h1.left_stop
            rw [hrun]
            exact ⟨_, rfl, hleft.update rfl rfl rfl rfl, not_stops (t := .valueInt) rfl (by decide) (by decide)⟩
  · obtain ⟨hat, hw, hstop⟩ := h.split isDigit
    have htake : (c :: rest).takeWhile isDigit = c :: rest.takeWhile isDigit := List.takeWhile_cons_of_pos hc
    have hbehind := hat.advance
    rw [htake] at hat hw hbehind
    have hrun := procNumber_decimal hat hzero hw hstop
    have hlex : lexNumber (c :: rest) = some (lexSuffix ((c :: rest).dropWhile isDigit)) := if_neg hzero
    rw [hlex, hrun]
    exact number_gives hbehind _

/-! ### Characters and strings -/

theorem Token.Left.at_cons {u : Token} (h : s.Left u (c :: rest)) : s.At (c :: rest) := by
  rcases h.2.2 with hat | ⟨hnil, -⟩
  · exact hat
  · cases hnil

theorem Token.Left.next_cons {u : Token} (h : s.Left u (c :: rest)) : (s.advance 1).Left u rest :=
  h.trans (Token.At.left_advance (w := [c]) h.at_cons)

theorem Token.Left.next_nil {u : Token} (h : s.Left u []) :
    (tokenNextChar s).1 = 0 ∧ (tokenNextChar s).2.eof = true ∧ (tokenNextChar s).2.Left u [] := by
  obtain ⟨hline, hreplay, hat | ⟨-, heof⟩⟩ := h
  · rw [tokenNextChar_nil hat]
    exact ⟨rfl, rfl, hline, hreplay, Or.inr ⟨rfl, rfl⟩⟩
  · rw [tokenNextChar_ended heof]
    exact ⟨rfl, heof, hline, hreplay, Or.inr ⟨rfl, heof⟩⟩

theorem Token.Left.stop {u : Token} (h : s.Left u text) : s.stop.Left u text := by
  cases text with
  | nil =>
    obtain ⟨-, heof, hnext⟩ := h.next_nil
    have hprev : tokenPrevChar (tokenNextChar s).2 = (tokenNextChar s).2 := if_pos heof
    rw [Token.stop, hprev]
    exact hnext
  | cons c rest =>
    rw [stop_cons h.at_cons]
    exact h

theorem expectQuote_left {u : Token} (h : s.Left u text) : (expectQuote s).Left u (closeQuote text) := by
  have hstop := h.stop
  rw [Token.stop] at hstop
  cases text with
  | nil =>
    obtain ⟨hzero, -, -⟩ := h.next_nil
    have hne : (tokenNextChar s).1 ≠ quote := by
      rw [hzero]
      decide
    have hrun : expectQuote s = { tokenPrevChar (tokenNextChar s).2 with errno := some .expectChar } := if_pos hne
    rw [hrun]
    exact hstop.update rfl rfl rfl rfl
  | cons c rest =>
    rw [tokenNextChar_cons h.at_cons] at hstop
    rw [expectQuote, tokenNextChar_cons h.at_cons, closeQuote]
    by_cases hc : c = quote
    · rw [if_pos hc]
      simp only [hc, ne_eq, not_true_eq_false, if_false]
      exact h.next_cons
    · rw [if_neg hc]
      simp only [hc, ne_eq, not_false_eq_true, if_true]
      exact hstop.update rfl rfl rfl rfl

theorem charEscape_left {u : Token} (h : s.At text) (hleft : s.Left u text) :
    match if ∃ e ∈ text.head?, (charEscape e).isSome = true then some text.tail
      else if (text.takeWhile isDigit).length < 4 then some (text.dropWhile isDigit) else none with
    | some rest => ∃ ch s', charEscapeOrDigits s = some (ch, s') ∧ s'.Left u rest
    | none => charEscapeOrDigits s = none := by
  by_cases hescape : ∃ e ∈ text.head?, (charEscape e).isSome = true
  · obtain ⟨e, he, hsome⟩ := hescape
    obtain ⟨ch, hch⟩ := Option.isSome_iff_exists.mp hsome
    rw [if_pos ⟨e, he, hsome⟩]
    cases text with
    | nil => cases he
    | cons c rest =>
      obtain rfl : c = e := Option.some.inj he
      refine ⟨ch, s.advance 1, ?_, hleft.next_cons⟩
      rw [charEscapeOrDigits, tokenNextChar_cons h]
      simp only [hch]
  · have hnone : charEscape (tokenNextChar s).1 = none := by
      cases text with
      | nil =>
        rw [tokenNextChar_nil h]
        rfl
      | cons c rest =>
        rw [tokenNextChar_cons h]
        exact Option.not_isSome_iff_eq_none.mp fun hsome => hescape ⟨c, rfl, hsome⟩
    obtain ⟨hat, hw, hrest⟩ := h.split isDigit
    rw [if_neg hescape, charEscapeOrDigits_digits hat hnone hw hrest]
    split_ifs
    · exact ⟨_, _, rfl, hleft.trans (hat.left_advance.trans hat.advance.left_stop)⟩
    · rfl

theorem tokenProcChar_left (h : s.At text) : match lexChar text with
    | some rest => ∃ ch s', tokenProcChar s = some (ch, s') ∧ s'.Left s rest
    | none => tokenProcChar s = none := by
  cases text with
  | nil =>
    have hfinish : s.finish.Left s [] := ⟨rfl, rfl, Or.inr ⟨rfl, rfl⟩⟩
    refine ⟨0, _, ?_, expectQuote_left hfinish⟩
    rw [tokenProcChar, tokenNextChar_nil h]
    rfl
  | cons c rest =>
    have hat : (s.advance 1).At rest := Token.At.advance (w := [c]) h
    have hnext : (s.advance 1).Left s rest := Token.At.left_advance (w := [c]) h
    rw [lexChar, tokenProcChar, tokenNextChar_cons h]
    by_cases hc : c = backslash
    · have hescape := charEscape_left hat hnext
      simp only [if_pos hc]
      split_ifs at hescape ⊢
      · obtain ⟨ch, s1, hs1, hleft⟩ := hescape
        exact ⟨ch, _, by rw [hs1]; rfl, expectQuote_left hleft⟩
      · obtain ⟨ch, s1, hs1, hleft⟩ := hescape
        exact ⟨ch, _, by rw [hs1]; rfl, expectQuote_left hleft⟩
      · exact congrArg (Option.bind · _) hescape
    · simp only [if_neg hc]
      exact ⟨c, _, rfl, expectQuote_left hnext⟩

theorem scan_left {u : Token} {p : Byte → Bool} (hend : p 0 = false) (h : s.At text) (hleft : s.Left u text) :
    ∃ w r, scan (fun ch _ => p ch) s.fuel (tokenNextChar s).1 (tokenNextChar s).2 = some (w, r) ∧
      (tokenPrevChar r.2).Left u (text.dropWhile p) := by
  obtain ⟨hat, hw, hrest⟩ := h.split p
  exact ⟨_, _, scan_chars hend hat hw hrest, hleft.trans (hat.left_advance.trans hat.advance.left_stop)⟩

theorem tokenProcEscape_left {u : Token} (h : s.Left u text) :
    ∃ ch s', tokenProcEscape s = some (ch, s') ∧ s'.Left u (lexEscape text) := by
  cases text with
  | nil =>
    obtain ⟨hzero, heof, hleft⟩ := h.next_nil
    refine ⟨0, (tokenNextChar s).2, ?_, hleft⟩
    rw [tokenProcEscape]
    simp only [hzero]
    rfl
  | cons e rest =>
    have hread := tokenNextChar_cons h.at_cons
    have hnext : (s.advance 1).At rest := Token.At.advance (w := [e]) h.at_cons
    rw [lexEscape, tokenProcEscape, hread]
    cases hescape : stringEscape e with
    | some ch =>
      simp only [hescape]
      exact ⟨ch, _, rfl, h.next_cons⟩
    | none =>
      simp only [hescape, Option.isSome_none, Bool.false_eq_true, if_false]
      by_cases hx : e = 0x78 ∨ e = 0x58
      · obtain ⟨w, r, hscan, hleft⟩ := scan_left (p := isXdigit) rfl hnext h.next_cons
        rw [if_pos hx, if_pos hx, hscan]
        exact ⟨_, _, rfl, hleft⟩
      · rw [if_neg hx, if_neg hx]
        by_cases ho : isOctal e = true
        · obtain ⟨w, r, hscan, hleft⟩ := scan_left (p := isOctal) rfl h.at_cons h
          rw [hread] at hscan
          have hscan' : scan (fun ch _ => isOctal ch) (s.advance 1).fuel e (s.advance 1) = some (w, r) := hscan
          rw [if_pos ho, if_pos ho, hscan']
          exact ⟨_, _, rfl, hleft⟩
        · rw [if_neg ho, if_neg ho]
          exact ⟨0, _, rfl, h.next_cons⟩

theorem procStringLoop_left {u : Token} {room : ℕ} (p : ℕ) (h : s.Left u text) :
    ∃ s', procStringLoop room p s = some s' ∧ s'.Left u (lexString room text) := by
  induction room generalizing p s text with
  | zero => exact ⟨s, rfl, h⟩
  | succ room ih =>
    cases text with
    | nil =>
      obtain ⟨-, heof, hleft⟩ := h.next_nil
      exact ⟨_, if_pos heof, hleft.update rfl rfl rfl rfl⟩
    | cons c rest =>
      have heof : (s.advance 1).eof = false := h.at_cons.eof
      rw [procStringLoop, tokenNextChar_cons h.at_cons, lexString]
      simp only [heof, Bool.false_eq_true, if_false]
      by_cases hback : c = backslash
      · obtain ⟨ch, s1, hs1, hleft⟩ := tokenProcEscape_left h.next_cons
        rw [if_pos hback, if_pos hback, hs1]
        exact ih (p + 1) (hleft.update rfl rfl rfl rfl)
      · rw [if_neg hback, if_neg hback]
        by_cases hquote : c = doubleQuote
        · rw [if_pos hquote, if_pos hquote]
          exact ⟨_, rfl, h.next_cons.update rfl rfl heof.symm rfl⟩
        · rw [if_neg hquote, if_neg hquote]
          exact ih (p + 1) (h.next_cons.update rfl rfl heof.symm rfl)

/-! ### Tokens -/

theorem single_left {token : TokenType} (h : s.At (c :: rest)) (hc : tokenOfChar c = some token) :
    (Lexed.token rest).Gives (tokenOperator s) s := by
  have htypes : ∀ c : Byte, ∀ t ∈ tokenOfChar c, t ≠ .eof ∧ t ≠ .bad := by decide
  obtain ⟨heof, hbad⟩ := htypes c token hc
  have hleft : (s.advance 1).Left s rest := Token.At.left_advance (w := [c]) h
  refine ⟨{ s.advance 1 with currentToken := token }, ?_, hleft.update rfl rfl rfl rfl, not_stops rfl heof hbad⟩
  rw [tokenOperator, tokenNextChar_cons h]
  simp only [hc]

theorem pair_gives {twice once : TokenType} (h : s.At (c :: rest)) (hone : tokenOfChar c = none)
    (hpair : tokenOfPair c = some (twice, once)) :
    (if rest.head? = some c then if twice = .eof then Lexed.stop else .token rest.tail
      else if once = .bad then .stop else .token rest).Gives (tokenOperator s) s := by
  have htypes : ∀ c : Byte, c ≠ 0 ∨ tokenOfPair c = none := by decide
  have htwice : ∀ c : Byte, ∀ t ∈ tokenOfPair c, t.1 ≠ .bad ∧ t.2 ≠ .eof := by decide
  have hzero : c ≠ 0 := by
    rcases htypes c with hne | hnone
    · exact hne
    · rw [hnone] at hpair
      cases hpair
  obtain ⟨hbad, heof⟩ := htwice c (twice, once) hpair
  have hnext : (s.advance 1).At rest := Token.At.advance (w := [c]) h
  have hrun : tokenOperator s = if (tokenNextChar (s.advance 1)).1 = c then
      some { (tokenNextChar (s.advance 1)).2 with currentToken := twice }
      else some { (s.advance 1).stop with currentToken := once } := by
    rw [tokenOperator, tokenNextChar_cons h]
    simp only [hone, hpair]
    rfl
  by_cases hhead : rest.head? = some c
  · rw [if_pos hhead]
    obtain ⟨rest', rfl⟩ : ∃ rest', rest = c :: rest' := by
      cases rest with
      | nil => cases hhead
      | cons b rest' =>
        obtain rfl : b = c := Option.some.inj hhead
        exact ⟨rest', rfl⟩
    rw [tokenNextChar_cons hnext, if_pos rfl] at hrun
    have hleft : (s.advance 2).Left s rest' := Token.At.left_advance (w := [c, c]) h
    rw [hrun]
    by_cases hstop : twice = .eof
    · rw [if_pos hstop]
      have hle : rest'.length ≤ (c :: c :: rest').length := by
        rw [List.length_cons, List.length_cons]
        omega
      exact ⟨_, rfl, consumed_le h.left (hleft.update rfl rfl rfl rfl) hle, Or.inl hstop⟩
    · rw [if_neg hstop]
      exact ⟨_, rfl, hleft.update rfl rfl rfl rfl, not_stops rfl hstop hbad⟩
  · have hne : (tokenNextChar (s.advance 1)).1 ≠ c := by
      cases rest with
      | nil =>
        rw [tokenNextChar_nil hnext]
        exact hzero.symm
      | cons b rest =>
        rw [tokenNextChar_cons hnext]
        exact fun heq => hhead (congrArg some heq)
    have hleft : (s.advance 1).stop.Left s rest := (Token.At.left_advance (w := [c]) h).stop
    rw [if_neg hhead, hrun, if_neg hne]
    by_cases hstop : once = .bad
    · rw [if_pos hstop]
      exact ⟨_, rfl, consumed_le h.left (hleft.update rfl rfl rfl rfl) (Nat.le_succ rest.length), Or.inr hstop⟩
    · rw [if_neg hstop]
      exact ⟨_, rfl, hleft.update rfl rfl rfl rfl, not_stops rfl heof hstop⟩

theorem quote_gives (h : s.At (quote :: rest)) : (Lexed.ofOption (lexChar rest)).Gives (tokenOperator s) s := by
  have hnext : (s.advance 1).At rest := Token.At.advance (w := [quote]) h
  have hleft : (s.advance 1).Left s rest := Token.At.left_advance (w := [quote]) h
  have hchar := tokenProcChar_left hnext
  rw [tokenOperator_quote h]
  cases hlex : lexChar rest with
  | none =>
    rw [hlex] at hchar
    exact congrArg (Option.map _) hchar
  | some behind =>
    rw [hlex] at hchar
    obtain ⟨ch, s1, hs1, hleft1⟩ := hchar
    rw [hs1]
    exact ⟨_, rfl, (hleft.trans hleft1).update rfl rfl rfl rfl,
      not_stops (t := .valueChar) rfl (by decide) (by decide)⟩

theorem doubleQuote_gives (h : s.At (doubleQuote :: rest)) :
    (Lexed.token (lexString finshStringMax rest)).Gives (tokenOperator s) s := by
  have hleft : (s.advance 1).Left s rest := Token.At.left_advance (w := [doubleQuote]) h
  obtain ⟨s1, hs1, hleft1⟩ : ∃ s', procStringLoop finshStringMax 0 (s.advance 1) = some s' ∧
      s'.Left _ (lexString finshStringMax rest) :=
    procStringLoop_left 0 hleft
  have hrun : tokenOperator s = (tokenProcString (s.advance 1)).map fun s => { s with currentToken := .valueString } := by
    rw [tokenOperator, tokenNextChar_cons h]
    rfl
  rw [hrun, tokenProcString, hs1]
  exact ⟨_, rfl, hleft1.update rfl rfl rfl rfl, not_stops (t := .valueString) rfl (by decide) (by decide)⟩

theorem tokenOperator_gives (h : s.At (c :: rest)) : (lexOperator c rest).Gives (tokenOperator s) s := by
  rw [lexOperator]
  cases hone : tokenOfChar c with
  | some token => exact single_left h hone
  | none =>
    simp only [Option.isSome_none, Bool.false_eq_true, if_false]
    cases hpair : tokenOfPair c with
    | some types => exact pair_gives h hone hpair
    | none =>
      simp only
      by_cases hquote : c = quote
      · rw [if_pos hquote]
        subst hquote
        exact quote_gives h
      · rw [if_neg hquote]
        by_cases hdouble : c = doubleQuote
        · rw [if_pos hdouble]
          subst hdouble
          exact doubleQuote_gives h
        · rw [if_neg hdouble]
          by_cases hdigit : isDigit c = true
          · rw [if_pos hdigit, tokenOperator_digit h hdigit]
            exact tokenProcNumber_gives h hdigit
          · rw [if_neg hdigit, tokenOperator, tokenNextChar_cons h]
            simp only [hone, hpair, if_neg hquote, if_neg hdouble, if_neg hdigit]
            have hleft : (s.advance 1).Left s rest := Token.At.left_advance (w := [c]) h
            exact ⟨_, rfl, consumed_le h.left (hleft.update rfl rfl rfl rfl) (Nat.le_succ rest.length), Or.inr rfl⟩

theorem Lexed.Gives.congr {u : Token} {result : Option Token} {l : Lexed} (h : l.Gives result u) (hline : u.line = s.line)
    (hreplay : u.replay = s.replay) (hle : s.consumed ≤ u.consumed) : l.Gives result s := by
  cases l with
  | stop =>
    obtain ⟨s', hs', hle', hstop⟩ := h
    exact ⟨s', hs', hle.trans hle', hstop⟩
  | overrun => exact h
  | token rest =>
    obtain ⟨s', hs', ⟨hl, hr, hleft⟩, hstop⟩ := h
    exact ⟨s', hs', ⟨hl.trans hline, hr.trans hreplay, hleft⟩, hstop⟩
  | restart =>
    obtain ⟨s', hs', ⟨hl, hr, hleft⟩, hstop⟩ := h
    exact ⟨s', hs', ⟨hl.trans hline, hr.trans hreplay, hleft⟩, hstop⟩

theorem matchName_not_stops (name : List Byte) :
    (tokenMatchName name).getD .identifier ≠ .eof ∧ (tokenMatchName name).getD .identifier ≠ .bad := by
  have htable : ∀ entry ∈ finshNameTable, entry.2 ≠ .eof ∧ entry.2 ≠ .bad := by decide
  rw [tokenMatchName]
  cases hfind : finshNameTable.find? fun entry => entry.1 = name.takeWhile (· ≠ 0) with
  | none => exact ⟨by decide, by decide⟩
  | some entry => exact htable entry (List.mem_of_find?_eq_some hfind)

theorem name_gives (h : s.At (c :: rest)) {token : TokenType}
    (heof : token ≠ .eof) (hbad : token ≠ .bad) :
    (if (c :: rest).dropWhile isName = [] then Lexed.restart else .token ((c :: rest).dropWhile isName)).Gives
      (some { s.afterName ((c :: rest).takeWhile isName) ((c :: rest).dropWhile isName) with currentToken := token }) s := by
  obtain ⟨hat, -, -⟩ := h.split isName
  have hbehind := hat.advance
  rw [Token.afterName]
  by_cases hend : (c :: rest).dropWhile isName = []
  · rw [if_pos hend, if_pos hend]
    exact ⟨_, rfl, ⟨rfl, rfl, h.eof, rfl⟩, not_stops rfl heof hbad⟩
  · rw [if_neg hend, if_neg hend]
    have hleft : (s.advance ((c :: rest).takeWhile isName).length).Left s ((c :: rest).dropWhile isName) :=
      hat.left_advance
    exact ⟨_, rfl, hleft.update rfl rfl rfl rfl, not_stops rfl heof hbad⟩

theorem tokenRun_lex (h : s.At text) : (lex text).Gives (tokenRun s) s := by
  obtain ⟨hat, hblanks, hrest⟩ := h.split isBlank
  have hbehind := hat.advance
  rw [lex]
  generalize text.takeWhile isBlank = blanks at hat hblanks hbehind
  cases hdrop : text.dropWhile isBlank with
  | nil =>
    rw [hdrop, List.append_nil] at hat
    have hleft : (s.advance blanks.length).finish.Left s [] := ⟨rfl, rfl, Or.inr ⟨rfl, rfl⟩⟩
    exact ⟨_, tokenRun_end hat hblanks, consumed_le hat.left (hleft.update rfl rfl rfl rfl) (Nat.zero_le _), Or.inl rfl⟩
  | cons c rest =>
    rw [hdrop] at hat hrest hbehind
    have hskip : s.consumed ≤ (s.advance blanks.length).consumed :=
      consumed_le hat.left hat.left_advance (List.sublist_append_right blanks (c :: rest)).length_le
    by_cases hname : isName c = true ∧ isDigit c = false
    · obtain ⟨hc, hdigit⟩ := hname
      obtain ⟨hsplit, hw, hstop⟩ := hbehind.split isName
      have htake : (c :: rest).takeWhile isName = c :: rest.takeWhile isName := List.takeWhile_cons_of_pos hc
      rw [htake] at hsplit hw
      have hat' : s.At (blanks ++ (c :: rest.takeWhile isName ++ (c :: rest).dropWhile isName)) := by
        rw [← htake, List.takeWhile_append_dropWhile]
        exact hat
      have hrun := tokenRun_name hat' hblanks hdigit hw hstop
      simp only [if_pos (And.intro hc hdigit)]
      rw [hrun, htake]
      split
      · obtain ⟨heof, hbad⟩ := matchName_not_stops
          ((s.advance blanks.length).afterName (c :: rest.takeWhile isName) ((c :: rest).dropWhile isName)).string
        have hgives := name_gives hbehind heof hbad
        rw [htake] at hgives
        exact hgives.congr rfl rfl hskip
      · rfl
    · simp only [if_neg hname]
      have hother : isName c = false ∨ isDigit c = true := by
        by_cases hdigit : isDigit c = true
        · exact Or.inr hdigit
        · exact Or.inl (Bool.eq_false_iff.mpr fun hc => hname ⟨hc, Bool.eq_false_iff.mpr hdigit⟩)
      obtain ⟨string, hrun, hat'⟩ := tokenRun_operator hat hblanks (hrest c rfl) hother
      rw [hrun]
      exact (tokenOperator_gives hat').congr rfl rfl hskip

/-! ### A token shortens the text -/

theorem length_closeQuote_le (text : List Byte) : (closeQuote text).length ≤ text.length := by
  cases text with
  | nil => exact Nat.le_refl 0
  | cons c rest =>
    rw [closeQuote]
    split
    · exact Nat.le_succ rest.length
    · exact Nat.le_refl _

theorem length_dropWhile_le (p : Byte → Bool) (text : List Byte) : (text.dropWhile p).length ≤ text.length :=
  (List.dropWhile_sublist p).length_le

theorem length_lexChar_le (h : lexChar text = some rest) : rest.length ≤ text.length := by
  cases text with
  | nil =>
    cases h
    exact Nat.le_refl 0
  | cons c t =>
    rw [lexChar] at h
    split_ifs at h
    · cases h
      have htail : t.tail.length ≤ t.length := (List.tail_sublist t).length_le
      exact (length_closeQuote_le t.tail).trans (htail.trans (Nat.le_succ t.length))
    · cases h
      exact (length_closeQuote_le _).trans ((length_dropWhile_le isDigit t).trans (Nat.le_succ t.length))
    · cases h
      exact (length_closeQuote_le t).trans (Nat.le_succ t.length)

theorem length_lexEscape_le (text : List Byte) : (lexEscape text).length ≤ text.length := by
  cases text with
  | nil => exact Nat.le_refl 0
  | cons e rest =>
    rw [lexEscape]
    split_ifs
    · exact Nat.le_succ rest.length
    · exact (length_dropWhile_le isXdigit rest).trans (Nat.le_succ rest.length)
    · exact length_dropWhile_le isOctal (e :: rest)
    · exact Nat.le_succ rest.length

theorem length_lexString_le (room : ℕ) (text : List Byte) : (lexString room text).length ≤ text.length := by
  induction room generalizing text with
  | zero => exact Nat.le_refl text.length
  | succ room ih =>
    cases text with
    | nil => exact Nat.le_refl 0
    | cons c rest =>
      rw [lexString]
      split_ifs
      · exact (ih (lexEscape rest)).trans ((length_lexEscape_le rest).trans (Nat.le_succ rest.length))
      · exact Nat.le_succ rest.length
      · exact (ih rest).trans (Nat.le_succ rest.length)

theorem length_lexSuffix_le (text : List Byte) : (lexSuffix text).length ≤ text.length := by
  cases text with
  | nil => exact Nat.le_refl 0
  | cons c rest =>
    rw [lexSuffix]
    split
    · exact Nat.le_succ rest.length
    · exact Nat.le_refl _

theorem length_lexSpec_le {p : Byte → Bool} (h : lexSpec p text = some rest) : rest.length ≤ text.length := by
  rw [lexSpec] at h
  split at h
  · cases h
    exact (length_lexSuffix_le _).trans (length_dropWhile_le p text)
  · cases h

theorem length_lexNumber_le (hc : isDigit c = true) (h : lexNumber (c :: text) = some rest) : rest.length ≤ text.length := by
  have hdecimal : (lexSuffix ((c :: text).dropWhile isDigit)).length ≤ text.length := by
    rw [List.dropWhile_cons_of_pos hc]
    exact (length_lexSuffix_le _).trans (length_dropWhile_le isDigit text)
  cases text with
  | nil =>
    rw [lexNumber] at h
    split at h
    · cases h
      exact Nat.le_refl 0
    · cases h
      exact hdecimal
  | cons x digits =>
    rw [lexNumber] at h
    split_ifs at h
    · exact (length_lexSpec_le h).trans (Nat.le_succ digits.length)
    · exact (length_lexSpec_le h).trans (Nat.le_succ digits.length)
    · exact length_lexSpec_le h
    · cases h
      exact Nat.le_refl _
    · cases h
      exact hdecimal

theorem ofOption_token {o : Option (List Byte)} (h : Lexed.ofOption o = .token rest) : o = some rest := by
  cases o with
  | none => cases h
  | some r =>
    cases h
    rfl

theorem length_lexOperator_le (h : lexOperator c text = .token rest) : rest.length ≤ text.length := by
  rw [lexOperator] at h
  split at h
  · cases h
    exact Nat.le_refl _
  · cases hpair : tokenOfPair c with
    | some types =>
      simp only [hpair] at h
      split_ifs at h
      · cases h
        exact (List.tail_sublist text).length_le
      · cases h
        exact Nat.le_refl _
    | none =>
      simp only [hpair] at h
      split_ifs at h with hquote hdouble hdigit
      · exact length_lexChar_le (ofOption_token h)
      · cases h
        exact length_lexString_le finshStringMax text
      · exact length_lexNumber_le hdigit (ofOption_token h)

theorem length_lt_of_lex (h : lex text = .token rest) : rest.length < text.length := by
  have hblanks := length_dropWhile_le isBlank text
  rw [lex] at h
  cases hdrop : text.dropWhile isBlank with
  | nil =>
    rw [hdrop] at h
    cases h
  | cons c t =>
    rw [hdrop] at h hblanks
    simp only at h
    have hle : rest.length ≤ t.length := by
      split_ifs at h with hname hlong hend
      · cases h
        rw [List.dropWhile_cons_of_pos hname.1]
        exact length_dropWhile_le isName t
      · exact length_lexOperator_le h
    exact Nat.lt_of_le_of_lt hle hblanks

/-! ### The end of a line -/

theorem finshTokenToken_run (h : s.replay = false) : finshTokenToken s = tokenRun s :=
  if_neg (by rw [h]; exact Bool.false_ne_true)

theorem reachesEnd_succ {n : ℕ} (h : tokenRun s = some s') (hreplay : s.replay = false) :
    ReachesEnd (n + 1) s ↔ s.consumed ≤ s'.consumed ∧ (s'.Stops ∨ ReachesEnd n s') := by
  rw [ReachesEnd, finshTokenToken_run hreplay]
  constructor
  · intro hend
    obtain ⟨t, ht, hend⟩ := hend
    obtain rfl : t = s' := Option.some.inj (ht.symm.trans h)
    exact hend
  · intro hend
    exact ⟨s', h, hend⟩

theorem restart_never (h : s.At text) (hreplay : s.replay = false) (hlex : lex text = .restart) (n : ℕ) : ¬ReachesEnd n s := by
  induction n generalizing s with
  | zero => exact fun hend => hend
  | succ n ih =>
    have hgives := tokenRun_lex h
    rw [hlex] at hgives
    obtain ⟨s', hs', ⟨hline, hreplay', heof, hposition⟩, hstops⟩ := hgives
    rw [reachesEnd_succ hs' hreplay]
    intro hend
    obtain ⟨hle, hstop | hrest⟩ := hend
    · exact hstops hstop
    · have hconsumed : s'.consumed = 0 := (if_neg (by rw [heof]; exact Bool.false_ne_true)).trans hposition
      have hs : s.consumed = s.position := if_neg (by rw [h.eof]; exact Bool.false_ne_true)
      have hstart : s.position = 0 := by omega
      have htext : text = textOf s.line := by
        rw [← h.rest, hstart, List.drop_zero]
      have hat : s'.At text := by
        refine ⟨heof, by rw [hposition]; exact Nat.zero_le _, ?_⟩
        rw [hposition, hline, htext, List.drop_zero]
      exact ih hat (hreplay'.trans hreplay) hrest

theorem reached_iff (hlex : lex text = .token rest) (P : List Byte → Prop) (h : P text) :
    (∀ t, Reached text t → P t) ↔ ∀ t, Reached rest t → P t := by
  constructor
  · intro hall t ht
    exact hall t (Relation.ReflTransGen.head hlex ht)
  · intro hall t ht
    rcases Relation.ReflTransGen.cases_head ht with rfl | ⟨u, hu, hrest⟩
    · exact h
    · obtain rfl : rest = u := Lexed.token.inj (hlex.symm.trans hu)
      exact hall t hrest

/-- A token of a text that can be followed to its end. -/
def Lexed.Goes (l : Lexed) : Prop := l ≠ .restart ∧ l ≠ .overrun

theorem reachesEnd_iff {n : ℕ} (h : s.Left s text) (hreplay : s.replay = false) (hn : text.length < n) :
    ReachesEnd n s ↔ ∀ t, Reached text t → (lex t).Goes := by
  induction n generalizing s text with
  | zero => exact absurd hn (Nat.not_lt_zero _)
  | succ n ih =>
    rcases h.2.2 with hat | ⟨rfl, heof⟩
    · have hgives := tokenRun_lex hat
      cases hlex : lex text with
      | stop =>
        rw [hlex] at hgives
        obtain ⟨s', hs', hle, hstop⟩ := hgives
        refine iff_of_true ((reachesEnd_succ hs' hreplay).mpr ⟨hle, Or.inl hstop⟩) ?_
        intro t ht
        rcases Relation.ReflTransGen.cases_head ht with rfl | ⟨u, hu, -⟩
        · rw [hlex]
          exact ⟨by decide, by decide⟩
        · rw [hlex] at hu
          cases hu
      | token rest =>
        rw [hlex] at hgives
        obtain ⟨s', hs', hleft, hstops⟩ := hgives
        have hlt := length_lt_of_lex hlex
        have hle : s.consumed ≤ s'.consumed := consumed_le h hleft hlt.le
        have hself : s'.Left s' rest := ⟨rfl, rfl, hleft.2.2⟩
        have hgoes : (lex text).Goes := by
          rw [hlex]
          exact ⟨Lexed.noConfusion, Lexed.noConfusion⟩
        rw [reached_iff hlex (fun t => (lex t).Goes) hgoes, reachesEnd_succ hs' hreplay,
          ← ih hself (hleft.2.1.trans hreplay) (by omega)]
        exact ⟨fun hend => hend.2.resolve_left hstops, fun hend => ⟨hle, Or.inr hend⟩⟩
      | restart =>
        refine iff_of_false (restart_never hat hreplay hlex (n + 1)) ?_
        intro hall
        exact (hall text Relation.ReflTransGen.refl).1 hlex
      | overrun =>
        rw [hlex] at hgives
        have hnone : tokenRun s = none := hgives
        refine iff_of_false ?_ fun hall => (hall text Relation.ReflTransGen.refl).2 hlex
        intro hend
        obtain ⟨s', hs', -⟩ := hend
        rw [finshTokenToken_run hreplay, hnone] at hs'
        cases hs'
    · refine iff_of_true ((reachesEnd_succ (tokenRun_ended heof) hreplay).mpr ?_) ?_
      · exact ⟨Nat.le_refl _, Or.inl (Or.inl rfl)⟩
      · intro t ht
        have hnil : lex [] = .stop := rfl
        rcases Relation.ReflTransGen.cases_head ht with rfl | ⟨u, hu, -⟩
        · rw [hnil]
          exact ⟨by decide, by decide⟩
        · rw [hnil] at hu
          cases hu

theorem init_left (line : List Byte) : (finshTokenInit line).Left (finshTokenInit line) (textOf line) :=
  Token.At.left ⟨rfl, Nat.zero_le _, rfl⟩

/-- A line is read to its end unless a name ends it, or something in it is too long for its buffer. -/
theorem line_ends_iff (line : List Byte) :
    LineEnds line ↔ ∀ text, Reached (textOf line) text → (lex text).Goes := by
  have hlength : (textOf line).length < line.length + 1 := Nat.lt_succ_of_le (List.takeWhile_sublist _).length_le
  exact reachesEnd_iff (init_left line) rfl hlength

/-- The line `a` is read over and over. -/
theorem letter_never_ends : ¬LineEnds [0x61] := by
  have hat : (finshTokenInit [0x61]).At [0x61] := ⟨rfl, by decide, rfl⟩
  exact restart_never hat rfl (by decide) 2

end RtThread.Finsh
