import Mathlib
import RtThread.Finsh.Node
import RtThread.Finsh.Vm

/-!
# FinSH: the characters of a line (`finsh_token.c`)

`char` is unsigned. A write outside of a buffer has no result. The line is what stands before its NUL.
-/

namespace RtThread.Finsh

def finshStringMax : ℕ := 128

/-- `struct finsh_token`, with the error that was set last. -/
structure Token where
  line : List Byte
  position : ℕ
  eof : Bool
  replay : Bool
  currentToken : TokenType
  value : Word
  string : List Byte
  errno : Option Errno

/-- `finsh_token_init`; no token type is zero, which `current_token` is. -/
def finshTokenInit (line : List Byte) : Token :=
  ⟨line, 0, false, false, .eof, 0, List.replicate finshStringMax 0, none⟩

/-! ### Characters -/

def isAlpha (ch : Byte) : Bool := (ch ||| 0x20).setWidth 32 - 0x61#32 < 26#32

def isDigit (ch : Byte) : Bool := 0x30#8 ≤ ch ∧ ch ≤ 0x39#8

def isXdigit (ch : Byte) : Bool := isDigit ch ∨ (ch ||| 0x20).setWidth 32 - 0x61#32 < 6#32

def isOctal (ch : Byte) : Bool := 0x30#8 ≤ ch ∧ ch ≤ 0x37#8

def isBinary (ch : Byte) : Bool := ch = 0x30#8 ∨ ch = 0x31#8

def isSeparator (ch : Byte) : Bool :=
  ¬(0x61#8 ≤ ch ∧ ch ≤ 0x7a#8 ∨ 0x41#8 ≤ ch ∧ ch ≤ 0x5a#8 ∨ 0x30#8 ≤ ch ∧ ch ≤ 0x39#8 ∨ ch = 0x5f#8)

def isBlank (ch : Byte) : Bool := ch = 0x20#8 ∨ ch = 0x09#8 ∨ ch = 0x0d#8

def newline : Byte := 0x0a
def backslash : Byte := 0x5c
def quote : Byte := 0x27
def doubleQuote : Byte := 0x22

/-- `token_next_char`, with the character. -/
def tokenNextChar (s : Token) : Byte × Token :=
  if s.eof then (0, s)
  else
    match s.line[s.position]? with
    | none => (0, { s with eof := true, position := 0 })
    | some ch =>
      if ch = newline then (0, { s with eof := true, position := 0 })
      else (ch, { s with position := s.position + 1 })

def tokenPrevChar (s : Token) : Token :=
  if s.eof then s else if s.position = 0 then s else { s with position := s.position - 1 }

/-- `while (p(ch)) { *p++ = ch; ch = token_next_char(self); }` with the characters it stores and the one it stops at. -/
def scan (p : Byte → Token → Bool) : ℕ → Byte → Token → Option (List Byte × Byte × Token)
  | 0, _, _ => none
  | fuel + 1, ch, s =>
    if p ch s then
      (scan p fuel (tokenNextChar s).1 (tokenNextChar s).2).map fun r => (ch :: r.1, r.2)
    else some ([], ch, s)

/-- No loop reads more characters than this. -/
def Token.fuel (s : Token) : ℕ := s.line.length + 2

/-! ### Names -/

def tokenTrimSpace (s : Token) : Option Token :=
  (scan (fun ch _ => isBlank ch) s.fuel (tokenNextChar s).1 (tokenNextChar s).2).map fun r => tokenPrevChar r.2.2

/-- `str[0] = '\0'` for `self->string`. -/
def Token.clear (s : Token) : Token := { s with string := s.string.set 0 0 }

/-- `*p = '\0'` behind a name. -/
def Token.store (s : Token) (name : List Byte) : Token := { s with string := name ++ 0 :: s.string.drop (name.length + 1) }

/-- The loop of `token_get_string`, and what follows it. -/
def getName (ch : Byte) (s : Token) : Option Token := do
  let r ← scan (fun ch s => !isSeparator ch && !s.eof) s.fuel ch s
  if r.1.length < finshStringMax then some ((tokenPrevChar { r.2.2 with eof := false }).store r.1) else none

/-- `token_get_string` for `self->string`. -/
def tokenGetString (s : Token) : Option Token :=
  let (ch, s) := tokenNextChar s
  if s.eof then some s
  else if isDigit ch then some (tokenPrevChar s.clear)
  else getName ch s.clear

/-- `finsh_name_table`. -/
def finshNameTable : List (List Byte × TokenType) :=
  [([0x76, 0x6f, 0x69, 0x64], .void), ([0x63, 0x68, 0x61, 0x72], .char), ([0x73, 0x68, 0x6f, 0x72, 0x74], .short),
    ([0x69, 0x6e, 0x74], .int), ([0x6c, 0x6f, 0x6e, 0x67], .long),
    ([0x75, 0x6e, 0x73, 0x69, 0x67, 0x6e, 0x65, 0x64], .unsigned),
    ([0x4e, 0x55, 0x4c, 0x4c], .valueNull), ([0x6e, 0x75, 0x6c, 0x6c], .valueNull)]

def tokenMatchName (str : List Byte) : Option TokenType :=
  (finshNameTable.find? fun entry => entry.1 = str.takeWhile (· ≠ 0)).map Prod.snd

/-! ### Characters and strings in quotes -/

/-- `while (is_digit(ch)) { ch = token_next_char(self); *p++ = ch; }` with what it has stored. -/
def escapeDigits : ℕ → Byte → Token → List Byte → Option (List Byte × Token)
  | 0, _, _, _ => none
  | fuel + 1, ch, s, buf =>
    if isDigit ch then escapeDigits fuel (tokenNextChar s).1 (tokenNextChar s).2 (buf ++ [(tokenNextChar s).1])
    else some (buf, s)

/-- `atoi`. -/
def atoi (str : List Byte) : Word :=
  let str := str.dropWhile fun b => b = 0x20#8 ∨ 0x09#8 ≤ b ∧ b ≤ 0x0d#8
  let digits := if str.head? = some 0x2d#8 ∨ str.head? = some 0x2b#8 then str.tail else str
  let value := (digits.takeWhile isDigit).foldl (fun v b => v * 10 + (b.setWidth 32 - 0x30)) (0 : Word)
  if str.head? = some 0x2d#8 then -value else value

/-- The escapes that `token_proc_char` knows. -/
def charEscape (ch : Byte) : Option Byte :=
  if ch = 0x6e then some 0x0a
  else if ch = 0x74 then some 0x09
  else if ch = 0x76 then some 0x0b
  else if ch = 0x62 then some 0x08
  else if ch = 0x72 then some 0x0d
  else if ch = backslash then some backslash
  else if ch = quote then some quote
  else none

/-- The escape behind a backslash; `p` is behind the digits in `buf` when `atoi` reads there. -/
def charEscapeOrDigits (s : Token) : Option (Byte × Token) :=
  let (ch, s) := tokenNextChar s
  match charEscape ch with
  | some c => some (c, s)
  | none => do
    let (buf, s) ← escapeDigits s.fuel ch s []
    if buf.length < 4 then some ((atoi ((buf ++ [0]).drop buf.length)).setWidth 8, tokenPrevChar s) else none

/-- The quote behind a character. -/
def expectQuote (s : Token) : Token :=
  let (close, s) := tokenNextChar s
  if close ≠ quote then { tokenPrevChar s with errno := some .expectChar } else s

/-- `token_proc_char`. -/
def tokenProcChar (s : Token) : Option (Byte × Token) := do
  let (ch, s) := tokenNextChar s
  let (ch, s) ← if ch = backslash then charEscapeOrDigits s else some (ch, s)
  some (ch, expectQuote s)

/-- The escapes that `token_proc_escape` knows without a number. -/
def stringEscape (ch : Byte) : Option Byte :=
  if ch = 0x6e then some 0x0a
  else if ch = 0x74 then some 0x09
  else if ch = 0x76 then some 0x0b
  else if ch = 0x62 then some 0x08
  else if ch = 0x72 then some 0x0d
  else if ch = 0x66 then some 0x0c
  else if ch = 0x61 then some 0x07
  else if ch = doubleQuote then some doubleQuote
  else none

def xdigitValue (ch : Byte) : Word :=
  if ch < 0x41 then ch.setWidth 32 - 0x30 else (ch ||| 0x20).setWidth 32 - 0x61 + 10

/-- `token_proc_escape`. -/
def tokenProcEscape (s : Token) : Option (Byte × Token) :=
  let (ch, s) := tokenNextChar s
  match stringEscape ch with
  | some c => some (c, s)
  | none =>
    if ch = 0x78 ∨ ch = 0x58 then
      (scan (fun ch _ => isXdigit ch) s.fuel (tokenNextChar s).1 (tokenNextChar s).2).map fun r =>
        ((r.1.foldl (fun v b => v * 16 + xdigitValue b) (0 : Word)).setWidth 8, tokenPrevChar r.2.2)
    else if isOctal ch then
      (scan (fun ch _ => isOctal ch) s.fuel ch s).map fun r =>
        ((r.1.foldl (fun v b => v * 8 + b.setWidth 32 - 0x30) (0 : Word)).setWidth 8, tokenPrevChar r.2.2)
    else some (0, s)

/-- The loop of `token_proc_string`, with the room that is left behind `p`. -/
def procStringLoop : ℕ → ℕ → Token → Option Token
  | 0, _, s => some s
  | room + 1, p, s =>
    let (ch, s) := tokenNextChar s
    if s.eof then some { s with errno := some .unexpectEnd }
    else if ch = backslash then do
      let (ch, s) ← tokenProcEscape s
      procStringLoop room (p + 1) { s with string := s.string.set p ch }
    else if ch = doubleQuote then some { s with string := s.string.set p 0 }
    else procStringLoop room (p + 1) { s with string := s.string.set p ch }

def tokenProcString (s : Token) : Option Token := procStringLoop finshStringMax 0 s

/-! ### Numbers -/

/-- The value of a character in `token_spec_number`. -/
def specDigit (ch : Byte) : Word :=
  if 0x61#8 ≤ ch ∧ ch ≤ 0x66#8 then ch.setWidth 32 - 0x61 + 10
  else if 0x41#8 ≤ ch ∧ ch ≤ 0x46#8 then ch.setWidth 32 - 0x41 + 10
  else ch.setWidth 32 - 0x30

/-- One character shifted into the two words of `bn`. -/
def specStep (shift : ℕ) (bn : Word × Word) (ch : Byte) : Word × Word :=
  (bn.1 <<< shift ||| specDigit ch, bn.2 <<< shift ||| bn.1 >>> (32 - shift))

/-- `token_spec_number`, with the shift of the base. -/
def tokenSpecNumber (string : List Byte) (shift : ℕ) : Word := (string.foldl (specStep shift) (0, 0)).1

/-- The suffix behind the digits, when `ch` is the character there. -/
def procSuffix (ch : Byte) (s : Token) : Token :=
  if ch = 0x6c ∨ ch = 0x4c then { s with currentToken := .valueLong } else tokenPrevChar s

/-- The digits that are stored in `buf` before `token_spec_number` reads them. -/
def procSpec (shift : ℕ) (p : Byte → Bool) (ch : Byte) (s : Token) : Option Token := do
  let (buf, ch, s) ← scan (fun ch _ => p ch) s.fuel ch s
  if buf.length < 128 then
    some (procSuffix ch { s with value := tokenSpecNumber buf shift, currentToken := .valueInt })
  else none

/-- `token_proc_number`. -/
def tokenProcNumber (s : Token) : Option Token :=
  let (ch, s) := tokenNextChar s
  if ch = 0x30 then
    let (ch, s) := tokenNextChar s
    if ch = 0x78 ∨ ch = 0x58 then procSpec 4 (fun ch => isDigit ch || isAlpha ch) (tokenNextChar s).1 (tokenNextChar s).2
    else if ch = 0x62 ∨ ch = 0x42 then procSpec 1 isBinary (tokenNextChar s).1 (tokenNextChar s).2
    else if isOctal ch then procSpec 3 isOctal ch s
    else some { tokenPrevChar s with value := 0, currentToken := .valueInt }
  else do
    let (digits, ch, s) ← scan (fun ch _ => isDigit ch) s.fuel ch s
    let value := digits.foldl (fun v b => v * 10 + (b.setWidth 32 - 0x30)) (0 : Word)
    some (procSuffix ch { s with value := value, currentToken := .valueInt })

/-! ### Tokens -/

/-- The operators of one character. -/
def tokenOfChar (ch : Byte) : Option TokenType :=
  if ch = 0x28 then some .leftParen
  else if ch = 0x29 then some .rightParen
  else if ch = 0x2c then some .comma
  else if ch = 0x3b then some .semicolon
  else if ch = 0x26 then some .and
  else if ch = 0x2a then some .mul
  else if ch = 0x7c then some .or
  else if ch = 0x25 then some .mod
  else if ch = 0x7e then some .bitwise
  else if ch = 0x5e then some .xor
  else if ch = 0x3d then some .assign
  else none

/-- The token of a character that is there twice, and of one that is there once; `//` is a comment to the end. -/
def tokenOfPair (ch : Byte) : Option (TokenType × TokenType) :=
  if ch = 0x2b then some (.inc, .add)
  else if ch = 0x2d then some (.dec, .sub)
  else if ch = 0x2f then some (.eof, .div)
  else if ch = 0x3c then some (.shl, .bad)
  else if ch = 0x3e then some (.shr, .bad)
  else none

/-- The token that begins with an operator, a quote or a digit. -/
def tokenOperator (s : Token) : Option Token :=
  let (ch, s) := tokenNextChar s
  match tokenOfChar ch with
  | some token => some { s with currentToken := token }
  | none =>
    match tokenOfPair ch with
    | some (twice, once) =>
      let (next, s) := tokenNextChar s
      if next = ch then some { s with currentToken := twice } else some { tokenPrevChar s with currentToken := once }
    | none =>
      if ch = quote then
        (tokenProcChar s).map fun r =>
          { r.2 with value := r.2.value &&& 0xffffff00 ||| r.1.setWidth 32, currentToken := .valueChar }
      else if ch = doubleQuote then (tokenProcString s).map fun s => { s with currentToken := .valueString }
      else if isDigit ch then tokenProcNumber (tokenPrevChar s)
      else some { s with errno := some .unknownToken, currentToken := .bad }

/-- `token_run`. -/
def tokenRun (s : Token) : Option Token := do
  let s ← tokenTrimSpace s
  let s ← tokenGetString s
  if s.eof then some { s with currentToken := .eof }
  else if s.string.headD 0 ≠ 0 then
    some { s with currentToken := (tokenMatchName s.string).getD .identifier }
  else tokenOperator s

/-- `finsh_token_token`. -/
def finshTokenToken (s : Token) : Option Token :=
  if s.replay then some { s with replay := false } else tokenRun s

end RtThread.Finsh
