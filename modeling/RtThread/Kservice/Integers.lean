import RtThread.Lib.Numerals
import RtThread.Kservice.Verbatim

/-!
# Integers as texts (`kservice.c:548-746, 938-995`)

What `%d`, `%i`, `%u`, `%x`, `%X` and `%o` print without a precision, also in a build with `RT_PRINTF_SPECIAL`, in which
`#` puts the prefix of the base in front of the digits. `divide` knows the bases 10 and 16 alone.
-/

namespace RtThread.Kservice.Vsnprintf

open RtThread.Lib.Numerals

/-! ### The conversions -/

def integerConversions : List Char := ['d', 'i', 'u', 'x', 'X', 'o']

def integerBase (ch : Char) : ℕ := if ch = 'o' then 8 else if ch = 'X' ∨ ch = 'x' then 16 else 10

def integerFlags (ch : Char) (flags : Flags) : Flags :=
  if ch = 'X' then { flags with large := true }
  else if ch = 'd' ∨ ch = 'i' then { flags with sign := true }
  else flags

/-- What `#` prints in a build with `RT_PRINTF_SPECIAL` (`kservice.c:687-707`). -/
def specialPrefix (base : ℕ) (type : Flags) : List Char :=
  if type.special = true then
    if base = 8 then ['0'] else if base = 16 then ['0', if type.large = true then 'X' else 'x'] else []
  else []

section
variable {σ : Type*} (put : σ → Char → σ)

/-- `print_number` with a prefix behind the sign, for which the field has less room (`kservice.c:637-745`). -/
def printPrefixed (o : σ) (sign : Option Char) (pre tmp : List Char) (s precision : ℤ) (type : Flags) : σ :=
  let zeropad := type.zeropad && !type.left
  let i : ℤ := tmp.length
  let size := s - pre.length - max precision i
  let spaces := !zeropad && !type.left
  let size := if sign.isSome ∧ 0 < size ∧ spaces = true then size - 1 else size
  let o := if spaces = true then pad put size ' ' o else o
  let size := if spaces = true then min size 0 - 1 else size
  let o := sign.toList.foldl put o
  let size := if sign.isSome then size - 1 else size
  let o := pre.foldl put o
  let o := if type.left = true then o else pad put size (if zeropad = true then '0' else ' ') o
  let size := if type.left = true then size else min size 0 - 1
  let o := pad put (max precision i - i) '0' o
  let o := if precision ≠ 0 then tmp.reverse.foldl put o else o
  pad put size ' ' o

/-- `special` says whether the kernel is built with `RT_PRINTF_SPECIAL`. -/
def printNumberIn (special : Bool) (o : σ) (num : BitVec 32) (base : ℕ) (s precision : ℤ) (type : Flags) : σ :=
  printPrefixed put o (numberSign num type) (if special = true then specialPrefix base type else [])
    (numberDigits num base type) s precision type

theorem printNumberIn_false (o : σ) (num : BitVec 32) (base : ℕ) (s precision : ℤ) (type : Flags) :
    printNumberIn put false o num base s precision type = printNumber put o num base s precision type := by
  simp only [printNumberIn, printNumber, printPrefixed, printDigits, if_neg Bool.false_ne_true, List.foldl_nil,
    List.length_nil, Nat.cast_zero, sub_zero]

end

/-- The number that an integer conversion prints. -/
def integerNumber (d : Directive) (ch : Char) (args : VaList) : BitVec 32 :=
  integerArg d.qualifier (integerFlags ch (d.width args).2).sign (args.arg d.stars)

def integerText (special : Bool) (d : Directive) (ch : Char) (args : VaList) : List Char :=
  printNumberIn (fun l c => l ++ [c]) special [] (integerNumber d ch args) (integerBase ch) (d.width args).1
    (d.precisionValue args) (integerFlags ch (d.width args).2)

theorem integerText_eq {d : Directive} {ch : Char} (hconv : d.conversion = some ch) (hch : ch ∈ integerConversions)
    (args : VaList) : integerText false d ch args = directiveText d args := by
  have hcases : ch = 'd' ∨ ch = 'i' ∨ ch = 'u' ∨ ch = 'x' ∨ ch = 'X' ∨ ch = 'o' := by
    simpa only [integerConversions, List.mem_cons, List.not_mem_nil, or_false] using hch
  rw [integerText, printNumberIn_false, directiveText, convert, hconv]
  rcases hcases with rfl | rfl | rfl | rfl | rfl | rfl <;> rfl

/-! ### What a text is to say -/

def integerValue (num : BitVec 32) (type : Flags) : ℤ := if type.sign = true then num.toInt else num.toNat

def shownPrefix (special : Bool) (base : ℕ) (type : Flags) : List Char :=
  if special = true then specialPrefix base type else []

def minimalLength (special : Bool) (base : ℕ) (type : Flags) (value : ℤ) : ℕ :=
  (if value < 0 ∨ type.sign = true ∧ (type.plus = true ∨ type.space = true) then 1 else 0) +
    (shownPrefix special base type).length + max 1 (Nat.digits base value.natAbs).length

def stripSign : List Char → List Char
  | [] => []
  | ch :: l => if ch = '-' ∨ ch = '+' then l else ch :: l

def stripPrefix (pre l : List Char) : List Char := if pre <+: l then l.drop pre.length else l

/-- The number that is left of a text without padding, sign and prefix. -/
def readBack (special : Bool) (base : ℕ) (type : Flags) (text : List Char) : Option ℕ :=
  let l := stripPrefix (shownPrefix special base type) (stripSign (trim text))
  if l = [] then none else readDigits base 0 l

structure Faithful (special : Bool) (base : ℕ) (width : ℤ) (type : Flags) (value : ℤ) (text : List Char) : Prop where
  length : (text.length : ℤ) = max width (minimalLength special base type value)
  digits : readBack special base type text = some value.natAbs
  minus : '-' ∈ text ↔ value < 0

/-! ### The digits -/

def digitChar (large : Bool) (d : ℕ) : Char := (digits large).getD d '0'

/-- The digits that `print_number` divides off. -/
def divided (base : ℕ) (v : ℕ) : List ℕ := if v = 0 then [0] else Nat.digits (if base = 10 then 10 else 16) v

theorem digitValue_digitChar {base d : ℕ} (hbase : base = 8 ∨ base = 10 ∨ base = 16) (hd : d < 16) (large : Bool) :
    digitValue base (digitChar large d) = if d < base then some d else none := by
  have hall : ∀ large, ∀ d < 16, ∀ base ∈ [8, 10, 16], digitValue base (digitChar large d) =
      if d < base then some d else none := by decide
  exact hall large d hd base (by rcases hbase with rfl | rfl | rfl <;> decide)

theorem digitChar_ne {d : ℕ} (hd : d < 16) (large : Bool) :
    digitChar large d ≠ ' ' ∧ digitChar large d ≠ '-' ∧ digitChar large d ≠ '+' := by
  have hall : ∀ large, ∀ d < 16,
      digitChar large d ≠ ' ' ∧ digitChar large d ≠ '-' ∧ digitChar large d ≠ '+' := by decide
  exact hall large d hd

theorem divideLoop_eq {base n : ℕ} {num : BitVec 32} (h : num.toNat < 2 ^ n) :
    divideLoop base n num = Nat.digits (if base = 10 then 10 else 16) num.toNat := by
  induction n generalizing num with
  | zero =>
    rw [show num.toNat = 0 by omega, Nat.digits_zero]
    rfl
  | succ n ih =>
    rw [divideLoop]
    split
    · rename_i hzero
      rw [hzero]
      exact (Nat.digits_zero _).symm
    · rename_i hne
      have hpos : 0 < num.toNat := Nat.pos_of_ne_zero fun he => hne (BitVec.eq_of_toNat_eq he)
      have hdivide : (divide num base).1 = num.toNat % (if base = 10 then 10 else 16) ∧
          (divide num base).2.toNat = num.toNat / (if base = 10 then 10 else 16) := by
        unfold divide
        split <;> exact ⟨rfl, BitVec.toNat_udiv⟩
      have hless : (divide num base).2.toNat < 2 ^ n := by
        rw [hdivide.2]
        split <;> omega
      rw [ih hless, hdivide.1, hdivide.2, ← Nat.digits_def' (by split <;> decide) hpos]

theorem natAbs_integerValue (num : BitVec 32) (type : Flags) : (integerValue num type).natAbs =
    (if type.sign = true ∧ num.toInt < 0 then -num else num).toNat := by
  have hlt := num.isLt
  unfold integerValue
  by_cases hsign : type.sign = true
  · rw [if_pos hsign]
    by_cases hneg : num.toInt < 0
    · rw [if_pos ⟨hsign, hneg⟩, BitVec.toNat_neg]
      rw [BitVec.toInt_eq_toNat_cond] at hneg ⊢
      split at hneg
      · omega
      · rename_i hbig
        rw [if_neg hbig]
        omega
    · rw [if_neg fun h => hneg h.2]
      rw [BitVec.toInt_eq_toNat_cond] at hneg ⊢
      split
      · omega
      · rename_i hbig
        rw [if_neg hbig] at hneg
        omega
  · rw [if_neg hsign, if_neg fun h => hsign h.1]
    rfl

theorem numberDigits_eq (num : BitVec 32) (base : ℕ) (type : Flags) : numberDigits num base type =
    (divided base (integerValue num type).natAbs).map (digitChar type.large) := by
  rw [natAbs_integerValue, divided]
  simp only [numberDigits]
  generalize (if type.sign = true ∧ num.toInt < 0 then -num else num) = n
  by_cases hn : n = 0
  · have hzero : n.toNat = 0 := by
      rw [hn]
      rfl
    rw [if_pos hn, if_pos hzero]
    cases type.large <;> rfl
  · have hne : n.toNat ≠ 0 := fun he => hn (BitVec.eq_of_toNat_eq he)
    rw [if_neg hn, if_neg hne, divideLoop_eq n.isLt]
    rfl

theorem divided_lt {base v d : ℕ} (hd : d ∈ divided base v) : d < 16 := by
  unfold divided at hd
  split at hd
  · rw [List.mem_singleton.mp hd]
    decide
  · have hlt := Nat.digits_lt_base (by split <;> decide) hd
    split at hlt <;> omega

theorem divided_ne_nil (base v : ℕ) : divided base v ≠ [] := by
  unfold divided
  split
  · exact List.cons_ne_nil _ _
  · rename_i hv
    exact Nat.digits_ne_nil_iff_ne_zero.mpr hv

theorem divided_mean_iff {base : ℕ} (hbase : base = 8 ∨ base = 10 ∨ base = 16) (v : ℕ) :
    (∀ d ∈ divided base v, d < base) ∧ Nat.ofDigits base (divided base v) = v ↔ (base = 8 → v < 8) := by
  unfold divided
  by_cases hv : v = 0
  · rw [if_pos hv, hv]
    refine iff_of_true ⟨fun d hd => ?_, rfl⟩ fun _ => by decide
    rw [List.mem_singleton.mp hd]
    omega
  · rw [if_neg hv]
    have hself : ∀ b, 1 < b → (∀ d ∈ Nat.digits b v, d < b) ∧ Nat.ofDigits b (Nat.digits b v) = v :=
      fun b hb => ⟨fun d hd => Nat.digits_lt_base hb hd, Nat.ofDigits_digits b v⟩
    rcases hbase with rfl | rfl | rfl
    · rw [if_neg (by decide), digits_mean_iff (by decide) (by decide) (Nat.pos_of_ne_zero hv)]
      exact ⟨fun h _ => h, fun h => h rfl⟩
    · exact iff_of_true (hself 10 (by decide)) nofun
    · exact iff_of_true (hself 16 (by decide)) nofun

/-! ### The text around the digits -/

/-- How many characters of padding there are. -/
def padding (s : ℤ) (sign : Option Char) (pre tmp : List Char) : ℕ :=
  (s - (sign.toList.length + pre.length + tmp.length : ℕ)).toNat

theorem printPrefixed_text (sign : Option Char) (pre tmp : List Char) (s : ℤ) (type : Flags) :
    printPrefixed (fun l c => l ++ [c]) [] sign pre tmp s (-1) type =
      if type.left = true then sign.toList ++ pre ++ tmp.reverse ++ List.replicate (padding s sign pre tmp) ' '
      else if type.zeropad = true then sign.toList ++ pre ++ List.replicate (padding s sign pre tmp) '0' ++ tmp.reverse
      else List.replicate (padding s sign pre tmp) ' ' ++ (sign.toList ++ pre ++ tmp.reverse) := by
  have hmax : max (-1) (tmp.length : ℤ) = tmp.length := by omega
  simp only [printPrefixed, pad_concat, foldl_concat, hmax, padding, sub_self]
  cases type.left with
  | true => cases sign <;> simp <;> omega
  | false =>
    cases type.zeropad with
    | true => cases sign <;> simp <;> omega
    | false => cases sign <;> simp <;> omega

theorem printPrefixed_shape (sign : Option Char) (pre tmp : List Char) (s : ℤ) (type : Flags) : ∃ a k b,
    printPrefixed (fun l c => l ++ [c]) [] sign pre tmp s (-1) type =
      List.replicate a ' ' ++ (sign.toList ++ (pre ++ (List.replicate k '0' ++ tmp.reverse))) ++ List.replicate b ' ' ∧
    a + k + b = padding s sign pre tmp := by
  rw [printPrefixed_text]
  split
  · exact ⟨0, 0, padding s sign pre tmp, by simp, by omega⟩
  · split
    · exact ⟨0, padding s sign pre tmp, 0, by simp, by omega⟩
    · exact ⟨padding s sign pre tmp, 0, 0, by simp, by omega⟩

theorem mem_shownPrefix {special : Bool} {base : ℕ} {type : Flags} {ch : Char}
    (h : ch ∈ shownPrefix special base type) : ch ≠ ' ' ∧ ch ≠ '-' ∧ ch ≠ '+' := by
  unfold shownPrefix specialPrefix at h
  split_ifs at h
  all_goals simp only [List.mem_cons, List.not_mem_nil, or_false] at h
  · rw [h]
    decide
  · rcases h with rfl | rfl <;> decide
  · rcases h with rfl | rfl <;> decide

theorem numberSign_cases (num : BitVec 32) (type : Flags) :
    numberSign num type = some '-' ∧ integerValue num type < 0 ∨
      0 ≤ integerValue num type ∧ (numberSign num type = none ∨ numberSign num type = some '+' ∨
        numberSign num type = some ' ') ∧
      ((numberSign num type).isSome ↔ type.sign = true ∧ (type.plus = true ∨ type.space = true)) := by
  unfold numberSign integerValue
  split
  · rename_i hsign
    split
    · rename_i hneg
      exact Or.inl ⟨rfl, hneg⟩
    · rename_i hneg
      refine Or.inr ⟨not_lt.mp hneg, ?_⟩
      cases type.plus <;> cases type.space <;> simp [hsign]
  · rename_i hsign
    exact Or.inr ⟨Int.natCast_nonneg _, Or.inl rfl, by simp [hsign]⟩

/-! ### Reading a text back -/

theorem stripSign_trim {body : List Char} (hbody : ∀ ch ∈ body, ch ≠ ' ' ∧ ch ≠ '-' ∧ ch ≠ '+') (hne : body ≠ [])
    {sign : Option Char} (hsign : sign = none ∨ sign = some '-' ∨ sign = some '+' ∨ sign = some ' ') (a b : ℕ) :
    stripSign (trim (List.replicate a ' ' ++ (sign.toList ++ body) ++ List.replicate b ' ')) = body := by
  have hhead : ∀ ch ∈ body.head?, ch ≠ ' ' := fun ch hch => (hbody ch (List.mem_of_mem_head? hch)).1
  have hlast : ∀ ch ∈ body.getLast?, ch ≠ ' ' := fun ch hch => (hbody ch (List.mem_of_mem_getLast? hch)).1
  have hself : stripSign body = body := by
    cases body with
    | nil => rfl
    | cons ch l =>
      obtain ⟨-, hminus, hplus⟩ := hbody ch List.mem_cons_self
      exact if_neg (not_or.mpr ⟨hminus, hplus⟩)
  have hshown : ∀ ch, ch = '-' ∨ ch = '+' → stripSign (trim (List.replicate a ' ' ++ ([ch] ++ body) ++
      List.replicate b ' ')) = body := by
    intro ch hch
    have hspace : ch ≠ ' ' := by rcases hch with rfl | rfl <;> decide
    have hlast' : ∀ c ∈ ([ch] ++ body).getLast?, c ≠ ' ' := by
      rw [List.getLast?_append_of_ne_nil _ hne]
      exact hlast
    have hhead' : ∀ c ∈ ([ch] ++ body).head?, c ≠ ' ' := by
      rintro _ ⟨⟩
      exact hspace
    rw [trim_blanks hhead' hlast' (List.cons_ne_nil _ _)]
    exact if_pos hch
  rcases hsign with rfl | rfl | rfl | rfl
  · rw [Option.toList_none, List.nil_append, trim_blanks hhead hlast hne, hself]
  · exact hshown '-' (Or.inl rfl)
  · exact hshown '+' (Or.inr rfl)
  · have hblank : List.replicate a ' ' ++ ((some ' ').toList ++ body) = List.replicate (a + 1) ' ' ++ body := by
      rw [List.replicate_succ', List.append_assoc]
      rfl
    rw [hblank, trim_blanks hhead hlast hne, hself]

theorem stripPrefix_append (pre l : List Char) : stripPrefix pre (pre ++ l) = l := by
  rw [stripPrefix, if_pos (List.prefix_append pre l), List.drop_left]

theorem readDigits_divided {base : ℕ} (hbase : base = 8 ∨ base = 10 ∨ base = 16) (v k : ℕ) (large : Bool) :
    readDigits base 0 (List.replicate k '0' ++ ((divided base v).map (digitChar large)).reverse) =
      if ∀ d ∈ divided base v, d < base then some (Nat.ofDigits base (divided base v)) else none := by
  have hzero : digitChar large 0 = '0' := by cases large <;> rfl
  have hpos : 0 < base := by omega
  have hmap : List.replicate k '0' ++ ((divided base v).map (digitChar large)).reverse =
      ((divided base v ++ List.replicate k 0).reverse).map (digitChar large) := by
    rw [List.reverse_append, List.map_append, List.reverse_replicate, List.map_replicate, hzero, List.map_reverse]
  have hdigits : ∀ d ∈ (divided base v ++ List.replicate k 0).reverse,
      digitValue base (digitChar large d) = if d < base then some d else none := by
    intro d hd
    refine digitValue_digitChar hbase ?_ large
    rcases List.mem_append.mp (List.mem_reverse.mp hd) with hd | hd
    · exact divided_lt hd
    · rw [List.eq_of_mem_replicate hd]
      decide
  have hall : (∀ d ∈ (divided base v ++ List.replicate k 0).reverse, d < base) ↔ ∀ d ∈ divided base v, d < base := by
    constructor
    · exact fun h d hd => h d (List.mem_reverse.mpr (List.mem_append_left _ hd))
    · intro h d hd
      rcases List.mem_append.mp (List.mem_reverse.mp hd) with hd | hd
      · exact h d hd
      · rwa [List.eq_of_mem_replicate hd]
  rw [hmap, readDigits_map hdigits, foldl_digits, Nat.ofDigits_append_replicate_zero]
  simp only [hall]

variable {special : Bool} {base : ℕ} {num : BitVec 32} {type : Flags} {s : ℤ}

theorem printNumberIn_readBack (hbase : base = 8 ∨ base = 10 ∨ base = 16) :
    readBack special base type (printNumberIn (fun l c => l ++ [c]) special [] num base s (-1) type) =
      if ∀ d ∈ divided base (integerValue num type).natAbs, d < base then
        some (Nat.ofDigits base (divided base (integerValue num type).natAbs)) else none := by
  obtain ⟨a, k, b, htext, -⟩ := printPrefixed_shape (numberSign num type) (shownPrefix special base type)
    (numberDigits num base type) s type
  have hsign : numberSign num type = none ∨ numberSign num type = some '-' ∨ numberSign num type = some '+' ∨
      numberSign num type = some ' ' := by
    rcases numberSign_cases num type with ⟨hminus, -⟩ | ⟨-, hcases, -⟩
    · exact Or.inr (Or.inl hminus)
    · tauto
  have hrest : List.replicate k '0' ++ (numberDigits num base type).reverse ≠ [] := by
    rw [numberDigits_eq]
    exact List.append_ne_nil_of_right_ne_nil _
      (List.reverse_ne_nil_iff.mpr (mt List.map_eq_nil_iff.mp (divided_ne_nil _ _)))
  have hbody : ∀ ch ∈ shownPrefix special base type ++ (List.replicate k '0' ++ (numberDigits num base type).reverse),
      ch ≠ ' ' ∧ ch ≠ '-' ∧ ch ≠ '+' := by
    intro ch hch
    rcases List.mem_append.mp hch with hch | hch
    · exact mem_shownPrefix hch
    · rcases List.mem_append.mp hch with hch | hch
      · rw [List.eq_of_mem_replicate hch]
        decide
      · rw [numberDigits_eq, List.mem_reverse, List.mem_map] at hch
        obtain ⟨d, hd, rfl⟩ := hch
        exact digitChar_ne (divided_lt hd) type.large
  have hprinted : printNumberIn (fun l c => l ++ [c]) special [] num base s (-1) type = _ := htext
  rw [hprinted, readBack, stripSign_trim hbody (List.append_ne_nil_of_right_ne_nil _ hrest) hsign]
  simp only [stripPrefix_append]
  rw [if_neg hrest, numberDigits_eq, readDigits_divided hbase]

/-! ### The length and the sign -/

theorem length_divided {base v : ℕ} (hbase : base = 8 ∨ base = 10 ∨ base = 16) (h : base = 8 → v < 8) :
    (divided base v).length = max 1 (Nat.digits base v).length := by
  unfold divided
  by_cases hv : v = 0
  · rw [if_pos hv, hv, Nat.digits_zero]
    rfl
  · have hpos : 0 < (Nat.digits base v).length := List.length_pos_iff.mpr (Nat.digits_ne_nil_iff_ne_zero.mpr hv)
    rw [if_neg hv, max_eq_right hpos]
    rcases hbase with rfl | rfl | rfl
    · have hlt := h rfl
      rw [if_neg (by decide), Nat.digits_of_lt 16 v hv (by omega), Nat.digits_of_lt 8 v hv hlt]
    · rfl
    · rfl

theorem length_sign (num : BitVec 32) (type : Flags) : (numberSign num type).toList.length =
    if integerValue num type < 0 ∨ type.sign = true ∧ (type.plus = true ∨ type.space = true) then 1 else 0 := by
  rcases numberSign_cases num type with ⟨hminus, hneg⟩ | ⟨hvalue, -, hshown⟩
  · rw [hminus, if_pos (Or.inl hneg)]
    rfl
  · simp only [not_lt.mpr hvalue, false_or, ← hshown]
    cases numberSign num type <;> rfl

theorem printNumberIn_length (hbase : base = 8 ∨ base = 10 ∨ base = 16)
    (h : base = 8 → (integerValue num type).natAbs < 8) :
    ((printNumberIn (fun l c => l ++ [c]) special [] num base s (-1) type).length : ℤ) =
      max s (minimalLength special base type (integerValue num type)) := by
  obtain ⟨a, k, b, htext, hpadding⟩ := printPrefixed_shape (numberSign num type) (shownPrefix special base type)
    (numberDigits num base type) s type
  have hprinted : printNumberIn (fun l c => l ++ [c]) special [] num base s (-1) type = _ := htext
  have hdigits : (numberDigits num base type).length =
      max 1 (Nat.digits base (integerValue num type).natAbs).length := by
    rw [numberDigits_eq, List.length_map, length_divided hbase h]
  rw [padding, length_sign, hdigits] at hpadding
  rw [hprinted]
  simp only [List.length_append, List.length_replicate, List.length_reverse, length_sign, hdigits, minimalLength]
  omega

theorem printNumberIn_minus :
    '-' ∈ printNumberIn (fun l c => l ++ [c]) special [] num base s (-1) type ↔ integerValue num type < 0 := by
  obtain ⟨a, k, b, htext, -⟩ := printPrefixed_shape (numberSign num type) (shownPrefix special base type)
    (numberDigits num base type) s type
  have hprinted : printNumberIn (fun l c => l ++ [c]) special [] num base s (-1) type = _ := htext
  have hblank : ∀ n, '-' ∉ List.replicate n ' ' := fun n h => absurd (List.eq_of_mem_replicate h) (by decide)
  have hzero : ∀ n, '-' ∉ List.replicate n '0' := fun n h => absurd (List.eq_of_mem_replicate h) (by decide)
  have hstart : '-' ∉ shownPrefix special base type := fun h => (mem_shownPrefix h).2.1 rfl
  have hdigits : '-' ∉ numberDigits num base type := by
    rw [numberDigits_eq, List.mem_map]
    rintro ⟨d, hd, he⟩
    exact (digitChar_ne (divided_lt hd) type.large).2.1 he
  have hsign : '-' ∈ (numberSign num type).toList ↔ integerValue num type < 0 := by
    rcases numberSign_cases num type with ⟨hminus, hneg⟩ | ⟨hvalue, hcases, -⟩
    · rw [hminus]
      exact iff_of_true (List.mem_singleton_self _) hneg
    · refine iff_of_false ?_ (not_lt.mpr hvalue)
      rcases hcases with h | h | h <;> rw [h] <;> decide
  rw [hprinted]
  simp only [List.mem_append, List.mem_reverse, hblank, hzero, hstart, hdigits, false_or, or_false, hsign]

/-! ### The conversions are faithful, except for the base 8 -/

theorem printNumberIn_faithful_iff (hbase : base = 8 ∨ base = 10 ∨ base = 16) :
    Faithful special base s type (integerValue num type)
        (printNumberIn (fun l c => l ++ [c]) special [] num base s (-1) type) ↔
      (base = 8 → (integerValue num type).natAbs < 8) := by
  have hread := @printNumberIn_readBack special base num type s hbase
  have hmean := divided_mean_iff hbase (integerValue num type).natAbs
  constructor
  · intro h
    have hdigits := h.digits
    rw [hread] at hdigits
    split at hdigits
    · rename_i hall
      exact hmean.mp ⟨hall, Option.some.inj hdigits⟩
    · cases hdigits
  · intro h
    obtain ⟨hall, hvalue⟩ := hmean.mpr h
    refine ⟨printNumberIn_length hbase h, ?_, printNumberIn_minus⟩
    rw [hread, if_pos hall, hvalue]

theorem readFlags_keeps (flags : Flags) (fmt : List Char) :
    (readFlags flags fmt).1.sign = flags.sign ∧ (readFlags flags fmt).1.large = flags.large := by
  induction fmt generalizing flags with
  | nil => exact ⟨rfl, rfl⟩
  | cons ch fmt ih =>
    rw [readFlags]
    split_ifs
    all_goals first | exact ih _ | exact ⟨rfl, rfl⟩

/-- The value that an integer conversion is to show. -/
def conversionValue (d : Directive) (ch : Char) (args : VaList) : ℤ :=
  if ch = 'd' ∨ ch = 'i' then (integerNumber d ch args).toInt else (integerNumber d ch args).toNat

theorem integerValue_eq (fmt : List Char) {ch : Char} (args : VaList) :
    integerValue (integerNumber (readDirective fmt).1 ch args)
        (integerFlags ch ((readDirective fmt).1.width args).2) = conversionValue (readDirective fmt).1 ch args := by
  have hsign : ((readDirective fmt).1.width args).2.sign = false := by
    have hflags : (readDirective fmt).1.flags.sign = false := (readFlags_keeps _ fmt).1
    unfold Directive.width
    simp only
    split <;> exact hflags
  have hiff : (integerFlags ch ((readDirective fmt).1.width args).2).sign = true ↔ ch = 'd' ∨ ch = 'i' := by
    unfold integerFlags
    split
    · rename_i hx
      rw [hx]
      simp [hsign]
    · split
      · rename_i hdi
        exact iff_of_true rfl hdi
      · rename_i hdi
        rw [hsign]
        exact iff_of_false Bool.false_ne_true hdi
  simp only [integerValue, conversionValue, hiff]

/-- A conversion shows its value exactly if it is none to the base 8, or the value has one digit there. -/
theorem integer_text_iff {fmt : List Char} {ch : Char} (hconv : (readDirective fmt).1.conversion = some ch)
    (hch : ch ∈ integerConversions) (hprecision : (readDirective fmt).1.precision = .absent) (args : VaList) :
    directiveText (readDirective fmt).1 args = integerText false (readDirective fmt).1 ch args ∧
      ∀ special, Faithful special (integerBase ch) ((readDirective fmt).1.width args).1
          (integerFlags ch ((readDirective fmt).1.width args).2) (conversionValue (readDirective fmt).1 ch args)
          (integerText special (readDirective fmt).1 ch args) ↔
        (ch = 'o' → conversionValue (readDirective fmt).1 ch args < 8) := by
  refine ⟨(integerText_eq hconv hch args).symm, fun special => ?_⟩
  have hbase : integerBase ch = 8 ∨ integerBase ch = 10 ∨ integerBase ch = 16 := by
    unfold integerBase
    split_ifs <;> tauto
  have height : integerBase ch = 8 ↔ ch = 'o' := by
    unfold integerBase
    split_ifs with ho <;> simp [ho]
  have hnone : (readDirective fmt).1.precisionValue args = -1 := by rw [Directive.precisionValue, if_pos hprecision]
  rw [integerText, hnone, ← integerValue_eq, printNumberIn_faithful_iff hbase, height]
  refine forall_congr' fun ho => ?_
  have hvalue : 0 ≤ conversionValue (readDirective fmt).1 ch args := by
    rw [conversionValue, ho, if_neg (by decide)]
    exact Int.natCast_nonneg _
  rw [integerValue_eq]
  omega

/-- `%-6d` of -42. -/
theorem integer_text_iff_sample :
    directiveText (readDirective "-6d".toList).1 ⟨fun _ => -42, fun _ => []⟩ = "-42   ".toList ∧
      readBack false 10 (integerFlags 'd' (readDirective "-6d".toList).1.flags) "-42   ".toList = some 42 := by
  obtain ⟨htext, hfaithful⟩ := @integer_text_iff "-6d".toList 'd' (by decide) (by decide) (by decide)
    ⟨fun _ => -42, fun _ => []⟩
  have hread := ((hfaithful false).mpr fun ho => absurd ho (by decide)).digits
  have hsame : integerText false (readDirective "-6d".toList).1 'd' ⟨fun _ => -42, fun _ => []⟩ = "-42   ".toList := by
    decide
  rw [hsame] at htext hread
  exact ⟨htext, hread⟩

/-- `%o` of 10 prints a digit that the base 8 does not have. -/
theorem octal_prints_hex : ∃ (fmt : List Char) (args : VaList),
    (readDirective fmt).1.conversion = some 'o' ∧ (readDirective fmt).1.precision = .absent ∧
      directiveText (readDirective fmt).1 args = ['a'] ∧
      ¬Faithful false 8 ((readDirective fmt).1.width args).1 (integerFlags 'o' ((readDirective fmt).1.width args).2)
        (conversionValue (readDirective fmt).1 'o' args) (directiveText (readDirective fmt).1 args) := by
  refine ⟨['o'], ⟨fun _ => 10, fun _ => []⟩, by decide, by decide, by decide, fun h => ?_⟩
  have htext : directiveText (readDirective ['o']).1 ⟨fun _ => 10, fun _ => []⟩ = ['a'] := by decide
  have hdigits := h.digits
  rw [htext] at hdigits
  exact absurd hdigits (by decide)

end RtThread.Kservice.Vsnprintf
