import Mathlib
import RtThread.Finsh.TokenScan

/-!
# FinSH: the values of literals (`finsh_token.c:322-364`, `453-598`)
-/

namespace RtThread.Finsh

/-! ### Literals -/

/-- The forms of an integer literal. -/
inductive NumberForm where
  | decimal
  | octal
  | hex (x : Byte) (h : x = 0x78 ∨ x = 0x58)
  | binary (b : Byte) (h : b = 0x62 ∨ b = 0x42)

def NumberForm.prefixed : NumberForm → List Byte
  | .decimal => []
  | .octal => [0x30]
  | .hex x _ => [0x30, x]
  | .binary b _ => [0x30, b]

def NumberForm.base : NumberForm → ℕ
  | .decimal => 10
  | .octal => 8
  | .hex _ _ => 16
  | .binary _ _ => 2

def NumberForm.isDigit : NumberForm → Byte → Bool
  | .decimal => Finsh.isDigit
  | .octal => isOctal
  | .hex _ _ => isXdigit
  | .binary _ _ => isBinary

def digitValue (d : Byte) : ℕ :=
  if d ≤ 0x39 then d.toNat - 0x30 else if 0x61 ≤ d then d.toNat - 0x61 + 10 else d.toNat - 0x41 + 10

def digitsValue (base : ℕ) (digits : List Byte) : ℕ := digits.foldl (fun v d => v * base + digitValue d) 0

/-- An integer literal. A decimal one does not begin with a zero, unless it is zero. -/
structure Number where
  form : NumberForm
  digits : List Byte
  suffix : Option Byte
  nonempty : digits ≠ []
  valid : ∀ d ∈ digits, form.isDigit d = true
  decimal : form = .decimal → digits.head? = some 0x30 → digits = [0x30]
  suffixed : ∀ l ∈ suffix, l = 0x6c ∨ l = 0x4c

def Number.text (n : Number) : List Byte := n.form.prefixed ++ (n.digits ++ n.suffix.toList)

/-- The number that is written. -/
def Number.value (n : Number) : ℕ := digitsValue n.form.base n.digits

/-- The escapes of C that are not a number. -/
def escapeTable : List (Byte × Byte) :=
  [(0x6e, 0x0a), (0x74, 0x09), (0x76, 0x0b), (0x62, 0x08), (0x72, 0x0d), (0x66, 0x0c), (0x61, 0x07),
    (backslash, backslash), (quote, quote), (doubleQuote, doubleQuote)]

/-- What is between the quotes of a character literal. -/
inductive CharBody where
  | plain (c : Byte) (h : c ≠ backslash ∧ c ≠ quote)
  | escape (e c : Byte) (h : (e, c) ∈ escapeTable)
  | decimal (digits : List Byte) (h : (∀ d ∈ digits, isDigit d = true) ∧ 1 ≤ digits.length ∧ digits.length ≤ 3)

def CharBody.text : CharBody → List Byte
  | .plain c _ => [c]
  | .escape e _ _ => [backslash, e]
  | .decimal digits _ => backslash :: digits

/-- The character that is denoted. -/
def CharBody.value : CharBody → Byte
  | .plain c _ => c
  | .escape _ c _ => c
  | .decimal digits _ => BitVec.ofNat 8 (digitsValue 10 digits)

inductive Literal where
  | number (n : Number)
  | char (b : CharBody)

def Literal.text : Literal → List Byte
  | .number n => n.text
  | .char b => quote :: (b.text ++ [quote])

/-- A number ends where no letter, digit or underscore follows. -/
def Literal.EndsBefore (rest : List Byte) : Literal → Prop
  | .number _ => ∀ c ∈ rest.head?, isName c = false
  | .char _ => True

/-- The token has the value of the literal. -/
def Literal.HasValue (s : Token) : Literal → Prop
  | .number n => (s.currentToken = .valueInt ∨ s.currentToken = .valueLong) ∧ s.value = BitVec.ofNat 32 n.value
  | .char b => s.currentToken = .valueChar ∧ s.value.setWidth 8 = b.value

/-- Reading the literal gives its value, and no buffer is overrun. -/
def Literal.Denoted (l : Literal) (s : Token) : Prop := ∃ s', tokenRun s = some s' ∧ l.HasValue s'

/-- The digits fit into `buf`; the suffix of a hexadecimal number is taken for a digit, with which two numbers come out
unchanged. -/
def Number.ReadWell (n : Number) : Prop :=
  match n.form with
  | .decimal => True
  | .octal | .binary _ _ => n.digits.length < 128
  | .hex _ _ =>
    match n.suffix with
    | none => n.digits.length < 128
    | some l => n.digits.length + 1 < 128 ∧ BitVec.ofNat 32 n.value = if l = 0x6c then 0xfffffffc else 0xdddddddc

/-- The escapes that `token_proc_char` knows, and decimal ones of the NUL. -/
def CharBody.ReadWell : CharBody → Prop
  | .plain _ _ => True
  | .escape e _ _ => e ≠ 0x66 ∧ e ≠ 0x61 ∧ e ≠ doubleQuote
  | .decimal digits _ => digitsValue 10 digits % 256 = 0

def Literal.ReadWell : Literal → Prop
  | .number n => n.ReadWell
  | .char b => b.ReadWell

variable {s : Token} {c : Byte} {w blanks rest : List Byte}

/-! ### Numbers -/

/-- The number token whose digits end at a position. -/
def Token.number (s : Token) (value : Word) : Token :=
  procSuffix (tokenNextChar s).1 { (tokenNextChar s).2 with value := value, currentToken := .valueInt }

theorem tokenPrevChar_value (s : Token) : (tokenPrevChar s).value = s.value := by
  rw [tokenPrevChar]
  split
  · rfl
  · split
    · rfl
    · rfl

theorem tokenPrevChar_token (s : Token) : (tokenPrevChar s).currentToken = s.currentToken := by
  rw [tokenPrevChar]
  split
  · rfl
  · split
    · rfl
    · rfl

theorem number_value (s : Token) (value : Word) : (s.number value).value = value := by
  rw [Token.number, procSuffix]
  split
  · rfl
  · exact tokenPrevChar_value _

theorem number_token (s : Token) (value : Word) :
    (s.number value).currentToken = .valueInt ∨ (s.number value).currentToken = .valueLong := by
  rw [Token.number, procSuffix]
  split
  · exact Or.inr rfl
  · exact Or.inl (tokenPrevChar_token _)

theorem procSpec_spec {p : Byte → Bool} (hend : p 0 = false) (shift : ℕ) (h : s.At (w ++ rest))
    (hw : ∀ c ∈ w, p c = true) (hrest : ∀ c ∈ rest.head?, p c = false) :
    procSpec shift p (tokenNextChar s).1 (tokenNextChar s).2 =
      if w.length < 128 then some ((s.advance w.length).number (tokenSpecNumber w shift)) else none := by
  rw [procSpec, fuel_next, scan_chars hend h hw hrest]
  rfl

theorem procNumber_hex {x : Byte} (hx : x = 0x78 ∨ x = 0x58) (h : s.At (0x30 :: x :: (w ++ rest)))
    (hw : ∀ c ∈ w, (isDigit c || isAlpha c) = true) (hrest : ∀ c ∈ rest.head?, (isDigit c || isAlpha c) = false) :
    tokenProcNumber s =
      if w.length < 128 then some ((s.advance (2 + w.length)).number (tokenSpecNumber w 4)) else none := by
  have h1 : (s.advance 1).At (x :: (w ++ rest)) := Token.At.advance (w := [0x30]) h
  have h2 : (s.advance 2).At (w ++ rest) := Token.At.advance (w := [0x30, x]) h
  have hspec := procSpec_spec (p := fun c => isDigit c || isAlpha c) rfl 4 h2 hw hrest
  rw [advance_advance] at hspec
  rw [tokenProcNumber, tokenNextChar_cons h]
  simp only [if_true, tokenNextChar_cons h1, if_pos hx]
  exact hspec

theorem procNumber_binary {x : Byte} (hx : x = 0x62 ∨ x = 0x42) (h : s.At (0x30 :: x :: (w ++ rest)))
    (hw : ∀ c ∈ w, isBinary c = true) (hrest : ∀ c ∈ rest.head?, isBinary c = false) :
    tokenProcNumber s =
      if w.length < 128 then some ((s.advance (2 + w.length)).number (tokenSpecNumber w 1)) else none := by
  have h1 : (s.advance 1).At (x :: (w ++ rest)) := Token.At.advance (w := [0x30]) h
  have h2 : (s.advance 2).At (w ++ rest) := Token.At.advance (w := [0x30, x]) h
  have hspec := procSpec_spec rfl 1 h2 hw hrest
  have hhex : ¬(x = 0x78 ∨ x = 0x58) := by
    rcases hx with rfl | rfl <;> decide
  rw [advance_advance] at hspec
  rw [tokenProcNumber, tokenNextChar_cons h]
  simp only [if_true, tokenNextChar_cons h1, if_neg hhex, if_pos hx]
  exact hspec

theorem procNumber_octal (h : s.At (0x30 :: (c :: w ++ rest))) (hw : ∀ b ∈ c :: w, isOctal b = true)
    (hrest : ∀ b ∈ rest.head?, isOctal b = false) :
    tokenProcNumber s =
      if (c :: w).length < 128 then some ((s.advance (1 + (c :: w).length)).number (tokenSpecNumber (c :: w) 3))
      else none := by
  have h1 : (s.advance 1).At (c :: w ++ rest) := Token.At.advance (w := [0x30]) h
  have hspec := procSpec_spec rfl 3 h1 hw hrest
  have hc : isOctal c = true := hw c List.mem_cons_self
  have hother : ∀ b : Byte, isOctal b = true → ¬(b = 0x78 ∨ b = 0x58) ∧ ¬(b = 0x62 ∨ b = 0x42) := by decide
  obtain ⟨hhex, hbinary⟩ := hother c hc
  rw [tokenNextChar_cons h1, advance_advance s 1 (c :: w).length] at hspec
  rw [tokenProcNumber, tokenNextChar_cons h]
  simp only [if_true, tokenNextChar_cons h1, if_neg hhex, if_neg hbinary, if_pos hc]
  exact hspec

theorem procNumber_zero (h : s.At (0x30 :: rest))
    (hrest : ∀ b ∈ rest.head?, ¬(b = 0x78 ∨ b = 0x58) ∧ ¬(b = 0x62 ∨ b = 0x42) ∧ isOctal b = false) :
    tokenProcNumber s = some { (s.advance 1).stop with value := 0, currentToken := .valueInt } := by
  have h1 : (s.advance 1).At rest := Token.At.advance (w := [0x30]) h
  have hnext : ¬((tokenNextChar (s.advance 1)).1 = 0x78 ∨ (tokenNextChar (s.advance 1)).1 = 0x58) ∧
      ¬((tokenNextChar (s.advance 1)).1 = 0x62 ∨ (tokenNextChar (s.advance 1)).1 = 0x42) ∧
        isOctal (tokenNextChar (s.advance 1)).1 = false := by
    cases rest with
    | nil =>
      rw [tokenNextChar_nil h1]
      exact ⟨(by decide : ¬((0 : Byte) = 0x78 ∨ (0 : Byte) = 0x58)), (by decide : ¬((0 : Byte) = 0x62 ∨ (0 : Byte) = 0x42)),
        rfl⟩
    | cons b rest =>
      rw [tokenNextChar_cons h1]
      exact hrest b rfl
  rw [tokenProcNumber, tokenNextChar_cons h]
  simp only [if_true, if_neg hnext.1, if_neg hnext.2.1, hnext.2.2, Bool.false_eq_true, if_false]
  rfl

theorem procNumber_decimal (h : s.At (c :: w ++ rest)) (hc : c ≠ 0x30) (hw : ∀ b ∈ c :: w, isDigit b = true)
    (hrest : ∀ b ∈ rest.head?, isDigit b = false) :
    tokenProcNumber s = some ((s.advance (c :: w).length).number
      ((c :: w).foldl (fun v b => v * 10 + (b.setWidth 32 - 0x30)) 0)) := by
  have hscan := scan_chars rfl h hw hrest
  rw [tokenNextChar_cons h] at hscan
  rw [tokenProcNumber, tokenNextChar_cons h]
  simp only [if_neg hc]
  change (scan (fun ch _ => isDigit ch) s.fuel c (s.advance 1)).bind _ = _
  rw [hscan]
  rfl

/-! ### The values of the digits -/

theorem digits_of_base (form : NumberForm) : ∀ d : Byte, form.isDigit d = true →
    digitValue d < form.base ∧ isXdigit d = true := by
  cases form with
  | decimal => change ∀ d : Byte, isDigit d = true → digitValue d < 10 ∧ isXdigit d = true; decide
  | octal => change ∀ d : Byte, isOctal d = true → digitValue d < 8 ∧ isXdigit d = true; decide
  | hex x h => change ∀ d : Byte, isXdigit d = true → digitValue d < 16 ∧ isXdigit d = true; decide
  | binary b h => change ∀ d : Byte, isBinary d = true → digitValue d < 2 ∧ isXdigit d = true; decide

theorem specDigit_eq : ∀ d : Byte, isXdigit d = true → specDigit d = BitVec.ofNat 32 (digitValue d) := by decide

theorem decimalDigit_eq : ∀ d : Byte, isDigit d = true → d.setWidth 32 - 0x30#32 = BitVec.ofNat 32 (digitValue d) := by
  decide

theorem ofNat_shift (v : ℕ) {d shift : ℕ} (hd : d < 2 ^ shift) :
    BitVec.ofNat 32 v <<< shift ||| BitVec.ofNat 32 d = BitVec.ofNat 32 (v * 2 ^ shift + d) := by
  have hor : v * 2 ^ shift + d = v <<< shift ||| d := by
    rw [← Nat.shiftLeft_add_eq_or_of_lt hd, Nat.shiftLeft_eq]
  rw [hor, BitVec.ofNat_or]
  congr 1
  apply BitVec.eq_of_toNat_eq
  rw [BitVec.toNat_shiftLeft, BitVec.toNat_ofNat, BitVec.toNat_ofNat, Nat.shiftLeft_eq, Nat.shiftLeft_eq,
    Nat.mod_mul_mod]

theorem digitsValue_snoc (base : ℕ) (w : List Byte) (d : Byte) :
    digitsValue base (w ++ [d]) = digitsValue base w * base + digitValue d := by
  rw [digitsValue, List.foldl_append]
  rfl

theorem specNumber_snoc (w : List Byte) (d : Byte) (shift : ℕ) :
    tokenSpecNumber (w ++ [d]) shift = tokenSpecNumber w shift <<< shift ||| specDigit d := by
  rw [tokenSpecNumber, List.foldl_append]
  rfl

theorem specNumber_eq {shift : ℕ} (hw : ∀ d ∈ w, digitValue d < 2 ^ shift ∧ isXdigit d = true) :
    tokenSpecNumber w shift = BitVec.ofNat 32 (digitsValue (2 ^ shift) w) := by
  induction w using List.reverseRecOn with
  | nil => rfl
  | append_singleton w d ih =>
    obtain ⟨hlt, hx⟩ := hw d (List.mem_append_right w (List.mem_singleton_self d))
    rw [specNumber_snoc, digitsValue_snoc, ih fun c hc => hw c (List.mem_append_left [d] hc), specDigit_eq d hx,
      ofNat_shift _ hlt]

theorem decimalNumber_eq (hw : ∀ d ∈ w, isDigit d = true) :
    w.foldl (fun v b => v * 10 + (b.setWidth 32 - 0x30)) (0 : Word) = BitVec.ofNat 32 (digitsValue 10 w) := by
  induction w using List.reverseRecOn with
  | nil => rfl
  | append_singleton w d ih =>
    have hd := decimalDigit_eq d (hw d (List.mem_append_right w (List.mem_singleton_self d)))
    rw [List.foldl_append, ih fun c hc => hw c (List.mem_append_left [d] hc), digitsValue_snoc, BitVec.ofNat_add,
      BitVec.ofNat_mul, ← hd]
    rfl

theorem shift_iterate (d v : Word) (k : ℕ) :
    (fun x : Word => x <<< 4 ||| d)^[k] v = v <<< (4 * k) ||| (fun x : Word => x <<< 4 ||| d)^[k] 0#32 := by
  induction k with
  | zero => rw [Function.iterate_zero_apply, Function.iterate_zero_apply, Nat.mul_zero, BitVec.shiftLeft_zero,
      BitVec.or_zero]
  | succ k ih =>
    rw [Function.iterate_succ_apply', Function.iterate_succ_apply', ih, BitVec.shiftLeft_or_distrib,
      ← BitVec.shiftLeft_add, BitVec.or_assoc, Nat.mul_succ]

theorem shift_fixed {d v : Word} (h : v <<< 4 ||| d = v) : v = (fun x : Word => x <<< 4 ||| d)^[8] 0#32 := by
  have hfixed : (fun x : Word => x <<< 4 ||| d)^[8] v = v := Function.iterate_fixed h 8
  have hgone : v <<< (4 * 8) = 0#32 := BitVec.shiftLeft_eq_zero (by omega)
  rw [shift_iterate, hgone, BitVec.zero_or] at hfixed
  exact hfixed.symm

theorem shift_l_iff (v : Word) : v <<< 4 ||| 0x3c#32 = v ↔ v = 0xfffffffc#32 := by
  constructor
  · exact shift_fixed
  · intro h
    rw [h]
    decide

theorem shift_L_iff (v : Word) : v <<< 4 ||| 0x1c#32 = v ↔ v = 0xdddddddc#32 := by
  constructor
  · exact shift_fixed
  · intro h
    rw [h]
    decide

/-! ### Numbers as literals -/

theorem exists_ite_some {p : Prop} [Decidable p] {a : Token} {q : Token → Prop} :
    (∃ s', (if p then some a else none) = some s' ∧ q s') ↔ p ∧ q a := by
  constructor
  · intro ⟨s', hs, hq⟩
    split at hs
    · rename_i hp
      cases hs
      exact ⟨hp, hq⟩
    · cases hs
  · intro ⟨hp, hq⟩
    exact ⟨a, if_pos hp, hq⟩

theorem hasValue_number (n : Number) (value : Word) :
    (Literal.number n).HasValue (s.number value) ↔ value = BitVec.ofNat 32 n.value := by
  rw [Literal.HasValue, number_value]
  exact and_iff_right (number_token s value)

theorem suffix_head (n : Number) (hrest : ∀ c ∈ rest.head?, isName c = false) :
    ∀ c ∈ (n.suffix.toList ++ rest).head?, c = 0x6c ∨ c = 0x4c ∨ isName c = false := by
  intro c hc
  cases hsuffix : n.suffix with
  | none =>
    rw [hsuffix] at hc
    exact Or.inr (Or.inr (hrest c hc))
  | some l =>
    rw [hsuffix] at hc
    obtain rfl : l = c := Option.some.inj hc
    rcases n.suffixed l hsuffix with hl | hl
    · exact Or.inl hl
    · exact Or.inr (Or.inl hl)

theorem no_digit : ∀ c : Byte, c = 0x6c ∨ c = 0x4c ∨ isName c = false →
    isDigit c = false ∧ isOctal c = false ∧ isBinary c = false ∧ ¬(c = 0x78 ∨ c = 0x58) ∧ ¬(c = 0x62 ∨ c = 0x42) := by
  decide

theorem alphanumeric_digit : ∀ c : Byte, isXdigit c = true → (isDigit c || isAlpha c) = true := by decide

theorem alphanumeric_name : ∀ c : Byte, isName c = false → (isDigit c || isAlpha c) = false := by decide

theorem Number.read_iff (n : Number) (h : s.At (n.text ++ rest)) (hrest : ∀ c ∈ rest.head?, isName c = false) :
    (∃ s', tokenProcNumber s = some s' ∧ (Literal.number n).HasValue s') ↔ n.ReadWell := by
  have hhead := suffix_head n hrest
  have hdigits : ∀ d ∈ n.digits, digitValue d < n.form.base ∧ isXdigit d = true :=
    fun d hd => digits_of_base n.form d (n.valid d hd)
  have hvalid := n.valid
  have hvalue : n.value = digitsValue n.form.base n.digits := rfl
  obtain ⟨d, ds, hds⟩ := List.exists_cons_of_ne_nil n.nonempty
  rw [Number.text, List.append_assoc, List.append_assoc] at h
  cases hform : n.form with
  | decimal =>
    rw [Number.ReadWell, hform]
    refine iff_of_true ?_ trivial
    rw [hform] at h hvalid hvalue
    have hten : ∀ c ∈ (n.suffix.toList ++ rest).head?, isDigit c = false := fun c hc => (no_digit c (hhead c hc)).1
    by_cases hzero : d = 0x30
    · have hall : n.digits = [0x30] := n.decimal hform (by rw [hds, hzero]; rfl)
      rw [hall] at h hvalue
      refine ⟨_, procNumber_zero h fun b hb => ?_, Or.inl rfl, ?_⟩
      · obtain ⟨-, hoctal, -, hx, hb⟩ := no_digit b (hhead b hb)
        exact ⟨hx, hb, hoctal⟩
      · rw [hvalue]
        rfl
    · rw [hds] at h hvalid hvalue
      refine ⟨_, procNumber_decimal h hzero hvalid hten, (hasValue_number n _).mpr ?_⟩
      rw [hvalue]
      exact decimalNumber_eq hvalid
  | octal =>
    rw [Number.ReadWell, hform]
    rw [hform] at h hvalid hvalue hdigits
    have hrun := procNumber_octal (c := d) (w := ds) (by rw [← hds]; exact h) (by rw [← hds]; exact hvalid)
      fun b hb => (no_digit b (hhead b hb)).2.1
    rw [← hds] at hrun
    rw [hrun, exists_ite_some, hasValue_number, hvalue]
    exact and_iff_left (specNumber_eq hdigits)
  | binary b hb =>
    rw [Number.ReadWell, hform]
    rw [hform] at h hvalid hvalue hdigits
    have hrun := procNumber_binary (w := n.digits) hb h hvalid fun b hb => (no_digit b (hhead b hb)).2.2.1
    rw [hrun, exists_ite_some, hasValue_number, hvalue]
    exact and_iff_left (specNumber_eq hdigits)
  | hex x hx =>
    rw [Number.ReadWell, hform]
    rw [hform] at h hvalue hdigits
    have hvalue' : tokenSpecNumber n.digits 4 = BitVec.ofNat 32 n.value := by
      rw [hvalue]
      exact specNumber_eq hdigits
    have halnum : ∀ c ∈ n.digits, (isDigit c || isAlpha c) = true := fun c hc => alphanumeric_digit c (hdigits c hc).2
    have hstop : ∀ c ∈ rest.head?, (isDigit c || isAlpha c) = false := fun c hc => alphanumeric_name c (hrest c hc)
    cases hsuffix : n.suffix with
    | none =>
      rw [hsuffix] at h
      have hrun := procNumber_hex (w := n.digits) hx h halnum hstop
      rw [hrun, exists_ite_some, hasValue_number]
      exact and_iff_left hvalue'
    | some l =>
      rw [hsuffix] at h
      have hl := n.suffixed l hsuffix
      have hscan : ∀ c ∈ n.digits ++ [l], (isDigit c || isAlpha c) = true := by
        intro c hc
        rcases List.mem_append.mp hc with hc | hc
        · exact halnum c hc
        · rw [List.mem_singleton.mp hc]
          rcases hl with rfl | rfl <;> decide
      have hrun := procNumber_hex (w := n.digits ++ [l]) hx (by rw [List.append_assoc]; exact h) hscan hstop
      rw [hrun, exists_ite_some, hasValue_number, specNumber_snoc, hvalue', List.length_append, List.length_singleton]
      refine and_congr_right fun _ => ?_
      rcases hl with rfl | rfl
      · exact shift_l_iff _
      · exact shift_L_iff _

/-! ### Character literals -/

theorem escapeDigits_spec (h : s.At (w ++ rest)) (hw : ∀ c ∈ w, isDigit c = true)
    (hrest : ∀ c ∈ rest.head?, isDigit c = false) {fuel : ℕ} (hfuel : w.length < fuel) (buf : List Byte) :
    ∃ stored, stored.length = w.length ∧ escapeDigits fuel (tokenNextChar s).1 (tokenNextChar s).2 buf =
      some (buf ++ stored, (tokenNextChar (s.advance w.length)).2) := by
  induction w generalizing s fuel buf with
  | nil =>
    obtain ⟨fuel, rfl⟩ := Nat.exists_eq_succ_of_ne_zero (Nat.ne_of_gt hfuel)
    have hstop : isDigit (tokenNextChar s).1 = false := by
      cases rest with
      | nil =>
        rw [tokenNextChar_nil h]
        rfl
      | cons c rest =>
        rw [tokenNextChar_cons h]
        exact hrest c rfl
    refine ⟨[], rfl, ?_⟩
    rw [escapeDigits, if_neg (by rw [hstop]; exact Bool.false_ne_true), List.append_nil]
    rfl
  | cons c w ih =>
    obtain ⟨fuel, rfl⟩ := Nat.exists_eq_succ_of_ne_zero (Nat.ne_zero_of_lt hfuel)
    have hnext : (s.advance 1).At (w ++ rest) := Token.At.advance (w := [c]) h
    have hc : isDigit (tokenNextChar s).1 = true := by
      rw [tokenNextChar_cons h]
      exact hw c List.mem_cons_self
    obtain ⟨stored, hlength, hrun⟩ := ih hnext (fun b hb => hw b (List.mem_cons_of_mem c hb))
      (Nat.lt_of_succ_lt_succ hfuel) (buf ++ [(tokenNextChar (s.advance 1)).1])
    refine ⟨(tokenNextChar (s.advance 1)).1 :: stored, by rw [List.length_cons, List.length_cons, hlength], ?_⟩
    rw [escapeDigits, if_pos hc, tokenNextChar_cons h, hrun, List.append_assoc, List.singleton_append, advance_advance,
      Nat.add_comm 1]
    rfl

theorem charEscapeOrDigits_digits (h : s.At (w ++ rest)) (hescape : charEscape (tokenNextChar s).1 = none)
    (hw : ∀ c ∈ w, isDigit c = true) (hrest : ∀ c ∈ rest.head?, isDigit c = false) :
    charEscapeOrDigits s = if w.length < 4 then some (0, (s.advance w.length).stop) else none := by
  obtain ⟨stored, hlength, hrun⟩ := escapeDigits_spec h hw hrest h.length_lt_fuel []
  rw [← fuel_next s] at hrun
  rw [charEscapeOrDigits]
  simp only [hescape, hrun, Option.bind_eq_bind, Option.bind_some, List.nil_append, hlength]
  split
  · rw [← hlength, List.drop_left]
    rfl
  · rfl

theorem tokenProcChar_escape (h : s.At (backslash :: c :: rest)) {e : Byte} (hc : charEscape c = some e) : ∃ s', tokenProcChar s = some (e, s') := by
  have h1 : (s.advance 1).At (c :: rest) := Token.At.advance (w := [backslash]) h
  have hescape : charEscapeOrDigits (s.advance 1) = some (e, (s.advance 1).advance 1) := by
    rw [charEscapeOrDigits, tokenNextChar_cons h1]
    simp only [hc]
  rw [tokenProcChar, tokenNextChar_cons h]
  simp only [if_true, hescape, Option.bind_eq_bind, Option.bind_some]
  exact ⟨_, rfl⟩

theorem tokenProcChar_digits (h : s.At (backslash :: (w ++ rest)))
    (hescape : charEscape (tokenNextChar (s.advance 1)).1 = none)
    (hw : ∀ c ∈ w, isDigit c = true) (hrest : ∀ c ∈ rest.head?, isDigit c = false) (hfits : w.length < 4) :
    ∃ s', tokenProcChar s = some (0, s') := by
  have h1 : (s.advance 1).At (w ++ rest) := Token.At.advance (w := [backslash]) h
  have hdigits := charEscapeOrDigits_digits h1 hescape hw hrest
  rw [if_pos hfits] at hdigits
  rw [tokenProcChar, tokenNextChar_cons h]
  simp only [if_true, hdigits, Option.bind_eq_bind, Option.bind_some]
  exact ⟨_, rfl⟩

theorem tokenProcChar_plain (h : s.At (c :: rest)) (hc : c ≠ backslash) : ∃ s', tokenProcChar s = some (c, s') := by
  rw [tokenProcChar, tokenNextChar_cons h]
  simp only [if_neg hc, Option.bind_eq_bind, Option.bind_some]
  exact ⟨_, rfl⟩

/-- The character that the code reads. -/
def CharBody.read : CharBody → Byte
  | .plain c _ => c
  | .escape e _ _ => (charEscape e).getD 0
  | .decimal _ _ => 0

theorem charEscape_digit : ∀ c : Byte, isDigit c = true → charEscape c = none := by decide

theorem charEscape_table {e c : Byte} (h : (e, c) ∈ escapeTable) :
    isDigit e = false ∧ ((charEscape e).getD 0 = c ↔ e ≠ 0x66 ∧ e ≠ 0x61 ∧ e ≠ doubleQuote) := by
  simp only [escapeTable, List.mem_cons, Prod.mk.injEq, List.not_mem_nil, or_false] at h
  rcases h with ⟨rfl, rfl⟩ | ⟨rfl, rfl⟩ | ⟨rfl, rfl⟩ | ⟨rfl, rfl⟩ | ⟨rfl, rfl⟩ | ⟨rfl, rfl⟩ | ⟨rfl, rfl⟩ | ⟨rfl, rfl⟩ |
    ⟨rfl, rfl⟩ | ⟨rfl, rfl⟩ <;> decide

theorem CharBody.read_eq (b : CharBody) (h : s.At (b.text ++ quote :: rest)) :
    ∃ s', tokenProcChar s = some (b.read, s') := by
  cases b with
  | plain c hc => exact tokenProcChar_plain h hc.1
  | escape e c hmem =>
    have h1 : (s.advance 1).At (e :: quote :: rest) := Token.At.advance (w := [backslash]) h
    cases hescape : charEscape e with
    | some c' =>
      have hread := tokenProcChar_escape h hescape
      rwa [CharBody.read, hescape]
    | none =>
      have hread := tokenProcChar_digits (w := []) h (by rw [tokenNextChar_cons h1]; exact hescape)
        (fun c hc => absurd hc List.not_mem_nil) (fun c hc => by cases hc; exact (charEscape_table hmem).1) (by decide)
      rwa [CharBody.read, hescape]
  | decimal digits hd =>
    obtain ⟨d, ds, rfl⟩ := List.exists_cons_of_ne_nil (List.ne_nil_of_length_pos hd.2.1)
    have h1 : (s.advance 1).At (d :: (ds ++ quote :: rest)) := Token.At.advance (w := [backslash]) h
    refine tokenProcChar_digits h (by rw [tokenNextChar_cons h1]; exact charEscape_digit d (hd.1 d List.mem_cons_self)) hd.1
      (fun c hc => ?_) (Nat.lt_succ_of_le hd.2.2)
    cases hc
    rfl

theorem CharBody.read_iff (b : CharBody) : b.read = b.value ↔ b.ReadWell := by
  cases b with
  | plain c hc => exact iff_of_true rfl trivial
  | escape e c hmem => exact (charEscape_table hmem).2
  | decimal digits hd =>
    change (0 : Byte) = BitVec.ofNat 8 (digitsValue 10 digits) ↔ digitsValue 10 digits % 256 = 0
    rw [← BitVec.toNat_inj, BitVec.toNat_ofNat]
    exact eq_comm

theorem setWidth_union (v : Word) (c : Byte) : (v &&& 0xffffff00 ||| c.setWidth 32).setWidth 8 = c := by
  ext i hi
  simp

/-! ### Literals in a line -/

theorem tokenOperator_digit (h : s.At (c :: rest)) (hc : isDigit c = true) : tokenOperator s = tokenProcNumber s := by
  have hother : ∀ c : Byte, isDigit c = true →
      tokenOfChar c = none ∧ tokenOfPair c = none ∧ c ≠ quote ∧ c ≠ doubleQuote := by decide
  obtain ⟨hone, hpair, hquote, hdouble⟩ := hother c hc
  have hstop := stop_cons h
  rw [Token.stop] at hstop
  rw [tokenOperator]
  simp only [tokenNextChar_cons h, hone, hpair, if_neg hquote, if_neg hdouble, if_pos hc]
  rw [tokenNextChar_cons h] at hstop
  rw [hstop]

theorem tokenOperator_quote (h : s.At (quote :: rest)) : tokenOperator s =
    (tokenProcChar (s.advance 1)).map fun r =>
      { r.2 with value := r.2.value &&& 0xffffff00 ||| r.1.setWidth 32, currentToken := .valueChar } := by
  rw [tokenOperator, tokenNextChar_cons h]
  rfl

theorem Number.text_cons (n : Number) : ∃ c t, n.text = c :: t ∧ isDigit c = true := by
  obtain ⟨d, ds, hds⟩ := List.exists_cons_of_ne_nil n.nonempty
  have hd := n.valid d (by rw [hds]; exact List.mem_cons_self)
  rw [Number.text, hds]
  cases hform : n.form with
  | decimal =>
    rw [hform] at hd
    exact ⟨d, _, rfl, hd⟩
  | octal => exact ⟨0x30, _, rfl, rfl⟩
  | hex x hx => exact ⟨0x30, _, rfl, rfl⟩
  | binary b hb => exact ⟨0x30, _, rfl, rfl⟩

/-- A literal at the next token has its value, unless it is one of those that are not read well. -/
theorem literal_denoted_iff (l : Literal) {s : Token} {blanks rest : List Byte} (hblanks : ∀ b ∈ blanks, isBlank b = true)
    (h : s.At (blanks ++ (l.text ++ rest))) (hrest : l.EndsBefore rest) : l.Denoted s ↔ l.ReadWell := by
  rw [Literal.Denoted]
  cases l with
  | number n =>
    obtain ⟨c, t, htext, hc⟩ := n.text_cons
    have hnonblank : ∀ c : Byte, isDigit c = true → isBlank c = false := by decide
    rw [Literal.text, htext] at h
    obtain ⟨string, hrun, hat⟩ := tokenRun_operator h hblanks (hnonblank c hc) (Or.inr hc)
    rw [hrun, tokenOperator_digit hat hc]
    have hat' : Token.At _ (c :: t ++ rest) := hat
    rw [← htext] at hat'
    exact n.read_iff hat' hrest
  | char b =>
    have h' : s.At (blanks ++ quote :: (b.text ++ quote :: rest)) := by
      rw [Literal.text, List.cons_append, List.append_assoc] at h
      exact h
    obtain ⟨string, hrun, hat⟩ := tokenRun_operator h' hblanks rfl (Or.inl rfl)
    obtain ⟨s', hread⟩ := b.read_eq (Token.At.advance (w := [quote]) hat)
    rw [hrun, tokenOperator_quote hat]
    change (∃ s', (tokenProcChar (Token.advance _ [quote].length)).map _ = some s' ∧ _) ↔ b.ReadWell
    rw [hread, ← b.read_iff]
    constructor
    · intro ⟨_, hs, htoken, hvalue⟩
      cases hs
      rwa [setWidth_union] at hvalue
    · intro hvalue
      exact ⟨_, rfl, rfl, (setWidth_union _ _).trans hvalue⟩

/-- `42` -/
def fortyTwo : Number := ⟨.decimal, [0x34, 0x32], none, by decide, by decide, fun _ h => absurd h (by decide), by decide⟩

/-- ` 42;` -/
theorem literal_denoted_fortyTwo : (Literal.number fortyTwo).Denoted (finshTokenInit [0x20, 0x34, 0x32, 0x3b]) :=
  (@literal_denoted_iff (.number fortyTwo) _ [0x20] [0x3b] (by decide) ⟨rfl, by decide, rfl⟩
    (fun c hc => by cases hc; rfl)).mpr trivial

/-- `0x10L` -/
def sixteenLong : Number := ⟨.hex 0x78 (by decide), [0x31, 0x30], some 0x4c, by decide, by decide, nofun, by decide⟩

/-- `\65` -/
def escape65 : CharBody := .decimal [0x36, 0x35] (by decide)

/-- `0x10L` is read as `0x11c`, and `'\65'` as the NUL. -/
theorem literals_read_wrong : ¬(Literal.number sixteenLong).Denoted (finshTokenInit (Literal.number sixteenLong).text) ∧
    ¬(Literal.char escape65).Denoted (finshTokenInit (Literal.char escape65).text) := by
  have hnumber : (tokenRun (finshTokenInit (Literal.number sixteenLong).text)).map Token.value = some 0x11c := by decide
  have hchar : (tokenRun (finshTokenInit (Literal.char escape65).text)).map Token.value = some 0 := by decide
  constructor
  · rintro ⟨s', hs, -, hvalue⟩
    rw [hs, Option.map_some, Option.some_inj, hvalue] at hnumber
    exact absurd hnumber (by decide)
  · rintro ⟨s', hs, -, hvalue⟩
    rw [hs, Option.map_some, Option.some_inj] at hchar
    rw [hchar] at hvalue
    exact absurd hvalue (by decide)

end RtThread.Finsh
