import RtThread.Kservice.Vsnprintf

/-!
# Formats that are printed as they are

A text that is passed as the format, without arguments, is printed as it is exactly when no `%` in
it is followed by a character that means something to `rt_vsnprintf`. Otherwise a directive either
depends on words that nobody has passed, or is longer than what it prints.
-/

namespace RtThread.Kservice.Vsnprintf

/-! ### What a directive consists of -/

theorem skipAtoi_length (i : ℤ) (fmt : List Char) : (skipAtoi i fmt).2.length ≤ fmt.length := by
  induction fmt generalizing i with
  | nil => exact le_rfl
  | cons ch fmt ih =>
    rw [skipAtoi]
    split
    · exact (ih _).trans (Nat.le_succ _)
    · exact le_rfl

theorem readFlags_length (flags : Flags) (fmt : List Char) : (readFlags flags fmt).2.length ≤ fmt.length := by
  induction fmt generalizing flags with
  | nil => exact le_rfl
  | cons ch fmt ih =>
    rw [readFlags]
    split_ifs
    all_goals first | exact (ih _).trans (Nat.le_succ _) | exact le_rfl

/-- A reader takes at least one character, unless the first one is none of its own. -/
def Reads (own : Char → Prop) (fmt rest : List Char) : Prop :=
  rest.length < fmt.length ∨ rest = fmt ∧ ∀ ch ∈ fmt.head?, ¬own ch

theorem Reads.le {own : Char → Prop} {fmt rest : List Char} (h : Reads own fmt rest) : rest.length ≤ fmt.length := by
  rcases h with hlt | ⟨rfl, -⟩
  · exact hlt.le
  · exact le_rfl

theorem reads_nil (own : Char → Prop) : Reads own [] [] := Or.inr ⟨rfl, fun _ h => (by cases h)⟩

theorem reads_self {own : Char → Prop} {fmt : List Char} {ch : Char} (h : ¬own ch) : Reads own (ch :: fmt) (ch :: fmt) := by
  refine Or.inr ⟨rfl, ?_⟩
  rintro _ ⟨⟩
  exact h

theorem reads_cons {own : Char → Prop} {fmt rest : List Char} (ch : Char) (h : rest.length ≤ fmt.length) :
    Reads own (ch :: fmt) rest := Or.inl (Nat.lt_succ_of_le h)

theorem Reads.trans {own own' : Char → Prop} {fmt mid rest : List Char} (h : Reads own fmt mid)
    (h' : Reads own' mid rest) : Reads (fun ch => own ch ∨ own' ch) fmt rest := by
  rcases h with hlt | ⟨rfl, hhead⟩
  · exact Or.inl (lt_of_le_of_lt h'.le hlt)
  · rcases h' with hlt | ⟨rfl, hhead'⟩
    · exact Or.inl hlt
    · exact Or.inr ⟨rfl, fun ch hch hown => hown.elim (hhead ch hch) (hhead' ch hch)⟩

def isFlag (ch : Char) : Prop := ch = '-' ∨ ch = '+' ∨ ch = ' ' ∨ ch = '#' ∨ ch = '0'

theorem readFlags_reads (flags : Flags) (fmt : List Char) : Reads isFlag fmt (readFlags flags fmt).2 := by
  cases fmt with
  | nil => exact reads_nil _
  | cons ch fmt =>
    rw [readFlags]
    split_ifs with h1 h2 h3 h4 h5
    all_goals first | exact reads_cons ch (readFlags_length _ _) | skip
    refine reads_self ?_
    rintro (rfl | rfl | rfl | rfl | rfl)
    all_goals contradiction

theorem readField_reads (fmt : List Char) :
    Reads (fun ch => ch.isDigit = true ∨ ch = '*') fmt (readField fmt).2 := by
  cases fmt with
  | nil => exact reads_nil _
  | cons ch fmt =>
    rw [readField]
    split_ifs with hdigit hstar
    · rw [skipAtoi, if_pos hdigit]
      exact reads_cons ch (skipAtoi_length _ _)
    · exact reads_cons ch le_rfl
    · exact reads_self (not_or.mpr ⟨hdigit, hstar⟩)

theorem readPrecision_reads (fmt : List Char) : Reads (fun ch => ch = '.') fmt (readPrecision fmt).2 := by
  cases fmt with
  | nil => exact reads_nil _
  | cons ch fmt =>
    rw [readPrecision]
    split_ifs with hdot
    · have hfield := (readField_reads fmt).le
      split
      · rename_i rest he
        rw [he] at hfield
        exact reads_cons ch hfield
      · exact reads_cons ch hfield
    · exact reads_self hdot

theorem readQualifier_reads (fmt : List Char) : Reads (fun ch => ch = 'h' ∨ ch = 'l') fmt (readQualifier fmt).2 := by
  cases fmt with
  | nil => exact reads_nil _
  | cons ch fmt =>
    rw [readQualifier]
    split_ifs with hqualifier
    · exact reads_cons ch le_rfl
    · exact reads_self hqualifier

def isModifier (ch : Char) : Prop :=
  ((isFlag ch ∨ ch.isDigit = true ∨ ch = '*') ∨ ch = '.') ∨ ch = 'h' ∨ ch = 'l'

theorem readDirective_spec (fmt : List Char) : ∃ rest, Reads isModifier fmt rest ∧
    (readDirective fmt).1.conversion = rest.head? ∧ (readDirective fmt).2 = rest.tail :=
  ⟨_, (((readFlags_reads _ fmt).trans (readField_reads _)).trans (readPrecision_reads _)).trans (readQualifier_reads _),
    rfl, rfl⟩

theorem readDirective_length (fmt : List Char) : (readDirective fmt).2.length ≤ fmt.length := by
  obtain ⟨rest, hreads, -, he⟩ := readDirective_spec fmt
  rw [he, List.length_tail]
  exact (Nat.sub_le _ _).trans hreads.le

/-! ### The text of a format, piece by piece -/

def directiveText (d : Directive) (args : VaList) : List Char := convert (fun l c => l ++ [c]) [] d args

theorem foldl_concat (o l : List Char) : l.foldl (fun l c => l ++ [c]) o = o ++ l := by
  induction l generalizing o with
  | nil => exact (List.append_nil o).symm
  | cons c l ih => rw [List.foldl_cons, ih, List.append_assoc, List.singleton_append]

theorem formatLoop_nil {σ : Type*} (put : σ → Char → σ) (n : ℕ) (o : σ) (args : VaList) :
    formatLoop put n o [] args = o := by
  cases n <;> rfl

theorem formatLoop_fuel {σ : Type*} (put : σ → Char → σ) {n m : ℕ} {fmt : List Char} (hn : fmt.length ≤ n)
    (hm : fmt.length ≤ m) (o : σ) (args : VaList) : formatLoop put n o fmt args = formatLoop put m o fmt args := by
  induction n generalizing m fmt o args with
  | zero =>
    rw [List.eq_nil_of_length_eq_zero (Nat.le_zero.mp hn), formatLoop_nil, formatLoop_nil]
  | succ n ih =>
    cases fmt with
    | nil => rw [formatLoop_nil, formatLoop_nil]
    | cons ch fmt =>
      obtain ⟨m, rfl⟩ := Nat.exists_eq_succ_of_ne_zero (Nat.ne_of_gt (Nat.lt_of_lt_of_le (Nat.succ_pos _) hm))
      have hn' := Nat.le_of_succ_le_succ hn
      have hm' := Nat.le_of_succ_le_succ hm
      have hrest := readDirective_length fmt
      simp only [formatLoop]
      rw [ih hn' hm', ih (hrest.trans hn') (hrest.trans hm')]

theorem formatted_cons {ch : Char} (h : ch ≠ '%') (fmt : List Char) (args : VaList) :
    formatted (ch :: fmt) args = ch :: formatted fmt args := by
  rw [formatted, List.length_cons, formatLoop, if_pos h, formatLoop_eq_foldl, foldl_concat]
  rfl

theorem formatted_directive (fmt : List Char) (args : VaList) :
    formatted ('%' :: fmt) args = directiveText (readDirective fmt).1 args ++
      formatted (readDirective fmt).2 (args.drop (readDirective fmt).1.arity) := by
  rw [formatted, List.length_cons, formatLoop, if_neg (by decide), formatLoop_eq_foldl, foldl_concat,
    formatLoop_fuel _ (readDirective_length fmt) le_rfl]
  rfl

/-- No `%` is followed by a character that means something behind it. -/
def Plain (fmt : List Char) : Prop :=
  ∀ before ch rest, fmt = before ++ '%' :: ch :: rest → ¬isModifier ch ∧ ch ∉ valueConversions ∧ ch ≠ '%'

theorem plain_nil : Plain [] := by
  intro before ch rest he
  exact absurd he.symm (List.append_ne_nil_of_right_ne_nil _ (List.cons_ne_nil _ _))

theorem plain_cons {ch : Char} (h : ch ≠ '%') {fmt : List Char} : Plain (ch :: fmt) ↔ Plain fmt := by
  constructor
  · intro hplain before ch' rest he
    exact hplain (ch :: before) ch' rest (by rw [he]; rfl)
  · intro hplain before ch' rest he
    cases before with
    | nil => exact absurd (List.cons.inj he).1 h
    | cons c before => exact hplain before ch' rest (List.cons.inj he).2

theorem plain_directive {ch : Char} {fmt : List Char} :
    Plain ('%' :: ch :: fmt) ↔ (¬isModifier ch ∧ ch ∉ valueConversions ∧ ch ≠ '%') ∧ Plain fmt := by
  constructor
  · intro hplain
    refine ⟨hplain [] ch fmt rfl, fun before ch' rest he => ?_⟩
    exact hplain ('%' :: ch :: before) ch' rest (by rw [he]; rfl)
  · rintro ⟨hch, hplain⟩ before ch' rest he
    cases before with
    | nil =>
      have hcons := (List.cons.inj (List.cons.inj he).2).1
      rwa [← hcons]
    | cons c before =>
      exact (plain_cons hch.2.2).mpr hplain before ch' rest (List.cons.inj he).2

theorem plain_percent : Plain ['%'] := by
  intro before ch rest he
  have hlen := congrArg List.length he
  simp only [List.length_append, List.length_cons, List.length_nil] at hlen
  omega

theorem readDirective_cons {ch : Char} (h : ¬isModifier ch) (fmt : List Char) :
    readDirective (ch :: fmt) =
      (⟨⟨false, false, false, false, false, false, false⟩, .absent, .absent, none, some ch⟩, fmt) := by
  simp only [isModifier, isFlag, not_or] at h
  obtain ⟨⟨⟨⟨h1, h2, h3, h4, h5⟩, hdigit, hstar⟩, hdot⟩, hh, hl⟩ := h
  simp only [readDirective, readFlags, readField, readPrecision, readQualifier, if_neg h1, if_neg h2, if_neg h3,
    if_neg h4, if_neg h5, if_neg hdigit, if_neg hstar, if_neg hdot, if_neg (not_or.mpr ⟨hh, hl⟩), List.head?_cons,
    List.tail_cons]

theorem directiveText_other {d : Directive} {ch : Char} (hconv : d.conversion = some ch) (hvalue : ch ∉ valueConversions)
    (hpercent : ch ≠ '%') (args : VaList) : directiveText d args = ['%', ch] := by
  have hne : ∀ c ∈ valueConversions, ch ≠ c := by
    rintro c hc rfl
    exact hvalue hc
  have hdi : ¬(ch = 'd' ∨ ch = 'i') := not_or.mpr ⟨hne 'd' (by decide), hne 'i' (by decide)⟩
  simp only [directiveText, convert, hconv, if_neg (hne 'c' (by decide)), if_neg (hne 's' (by decide)),
    if_neg (hne 'p' (by decide)), if_neg hpercent, if_neg (hne 'o' (by decide)), if_neg (hne 'X' (by decide)),
    if_neg (hne 'x' (by decide)), if_neg hdi, if_neg (hne 'u' (by decide)), List.nil_append, List.singleton_append]

theorem directiveText_percent {d : Directive} (h : d.conversion = none ∨ d.conversion = some '%') (args : VaList) :
    directiveText d args = ['%'] := by
  rcases h with h | h <;> rw [directiveText, convert, h] <;> rfl

theorem Plain.formatted_eq {fmt : List Char} (h : Plain fmt) (args : VaList) : formatted fmt args = fmt := by
  induction hn : fmt.length using Nat.strongRecOn generalizing fmt args with
  | ind n ih =>
    subst hn
    match fmt with
    | [] => rfl
    | ch :: fmt =>
      by_cases hch : ch = '%'
      · subst hch
        match fmt with
        | [] => rw [formatted_directive, directiveText_percent (Or.inl rfl)]; rfl
        | ch :: fmt =>
          obtain ⟨⟨hmodifier, hvalue, hpercent⟩, hplain⟩ := plain_directive.mp h
          have hrest := ih fmt.length (Nat.lt_add_of_pos_right Nat.two_pos) hplain
          rw [formatted_directive, readDirective_cons hmodifier, directiveText_other rfl hvalue hpercent, hrest _ rfl]
          rfl
      · rw [formatted_cons hch, ih fmt.length (Nat.lt_succ_self _) ((plain_cons hch).mp h) _ rfl]

/-! ### What depends on the arguments -/

def valueArgs (d : Directive) (x : BitVec 32) : VaList := ⟨fun i => if i = d.stars then x else 2, fun _ => []⟩

def Varies (d : Directive) : Prop :=
  ∃ args args' : VaList, args.drop d.arity = args'.drop d.arity ∧ directiveText d args ≠ directiveText d args'

theorem arity_of_value {d : Directive} {ch : Char} (hconv : d.conversion = some ch) (hvalue : ch ∈ valueConversions) :
    d.arity = d.stars + 1 := by
  simp only [Directive.arity, hconv, if_pos hvalue]

theorem valueArgs_self (d : Directive) (x : BitVec 32) : (valueArgs d x).arg d.stars = x := if_pos rfl

theorem valueArgs_of_ne {d : Directive} {x : BitVec 32} {i : ℕ} (h : i ≠ d.stars) : (valueArgs d x).arg i = 2 :=
  if_neg h

theorem valueArgs_drop {d : Directive} (h : d.arity = d.stars + 1) (x y : BitVec 32) :
    (valueArgs d x).drop d.arity = (valueArgs d y).drop d.arity := by
  have harg : ∀ z i, (valueArgs d z).arg (d.arity + i) = 2 := fun z i => valueArgs_of_ne (by omega)
  simp only [VaList.drop, harg]
  rfl

theorem varies_of_value {d : Directive} {ch : Char} (hconv : d.conversion = some ch) (hvalue : ch ∈ valueConversions)
    {x y : BitVec 32} (h : directiveText d (valueArgs d x) ≠ directiveText d (valueArgs d y)) : Varies d :=
  ⟨_, _, valueArgs_drop (arity_of_value hconv hvalue) x y, h⟩

theorem width_valueArgs (d : Directive) (x : BitVec 32) : d.width (valueArgs d x) = d.width (valueArgs d 0) ∧
    (d.fieldWidth = .star → d.width (valueArgs d x) = (2, d.flags)) := by
  have hstar : d.fieldWidth = .star → ∀ z, d.width (valueArgs d z) = (2, d.flags) := by
    intro hwidth z
    have hstars : 0 ≠ d.stars := by
      rw [Directive.stars, hwidth, Field.stars, if_pos rfl]
      omega
    have hvalue : d.fieldWidth.value (valueArgs d z) = 2 := by
      simp only [hwidth, Field.value, valueArgs_of_ne hstars]
      rfl
    rw [Directive.width, hvalue]
    exact if_neg fun h => absurd h.2 (by decide)
  refine ⟨?_, fun h => hstar h x⟩
  cases hwidth : d.fieldWidth with
  | star => rw [hstar hwidth, hstar hwidth]
  | _ => simp only [Directive.width, hwidth, Field.value]

theorem precision_valueArgs (d : Directive) (x : BitVec 32) :
    d.precisionValue (valueArgs d x) = d.precisionValue (valueArgs d 0) ∧
    (d.precision = .star → d.precisionValue (valueArgs d x) = 2) := by
  have hstar : d.precision = .star → ∀ z, d.precisionValue (valueArgs d z) = 2 := by
    intro hprecision z
    have hstars : d.fieldWidth.stars + 0 ≠ d.stars := by
      rw [Directive.stars, hprecision, Field.stars, Field.stars, if_pos rfl]
      omega
    have hvalue : d.precision.value ((valueArgs d z).drop d.fieldWidth.stars) = 2 := by
      simp only [hprecision, Field.value, VaList.drop, valueArgs_of_ne hstars]
      rfl
    rw [Directive.precisionValue, hvalue, if_neg (by rw [hprecision]; decide)]
    rfl
  refine ⟨?_, fun h => hstar h x⟩
  cases hprecision : d.precision with
  | star => rw [hstar hprecision, hstar hprecision]
  | _ => simp only [Directive.precisionValue, hprecision, Field.value]

theorem pad_concat (n : ℤ) (c : Char) (o : List Char) :
    pad (fun l c => l ++ [c]) n c o = o ++ List.replicate n.toNat c := foldl_concat o _

theorem convertChar_text (width : ℤ) (left : Bool) : ∃ before behind, ∀ c,
    convertChar (fun l c => l ++ [c]) [] width left c = before ++ c :: behind := by
  refine ⟨if left = true then [] else List.replicate (width - 1).toNat ' ',
    List.replicate ((if left = true then width else min (width - 1) 0) - 1).toNat ' ', fun c => ?_⟩
  simp only [convertChar, pad_concat, List.nil_append, List.append_assoc, List.singleton_append]

theorem varies_char {d : Directive} (hconv : d.conversion = some 'c') : Varies d := by
  obtain ⟨before, behind, htext⟩ := convertChar_text (d.width (valueArgs d 0)).1 (d.width (valueArgs d 0)).2.left
  have hdirective : ∀ x, directiveText d (valueArgs d x) = before ++ Char.ofNat (x.toNat % 256) :: behind := by
    intro x
    simp only [directiveText, convert, hconv, if_true, valueArgs_self, (width_valueArgs d x).1, htext]
  refine varies_of_value hconv (by decide) (x := 97) (y := 98) fun he => ?_
  rw [hdirective, hdirective] at he
  exact absurd (List.cons.inj (List.append_cancel_left he)).1 (by decide)

theorem mem_convertString {c : Char} (hc : c ≠ ' ') (width precision : ℤ) (left : Bool) (s : List Char) :
    c ∈ convertString (fun l c => l ++ [c]) [] width precision left s ↔
      c ∈ s.take (if 0 < precision ∧ precision < s.length then precision else s.length : ℤ).toNat := by
  have hpad : ∀ n, c ∉ List.replicate n ' ' := fun n h => hc (List.eq_of_mem_replicate h)
  simp only [convertString, pad_concat, foldl_concat, List.mem_append, hpad, or_false]
  split <;> simp only [List.nil_append, List.not_mem_nil, hpad, false_or]

theorem varies_string {d : Directive} (hconv : d.conversion = some 's') : Varies d := by
  refine varies_of_value hconv (by decide) (x := 0) (y := 1) fun he => ?_
  have hdirective : ∀ x, directiveText d (valueArgs d x) = convertString (fun l c => l ++ [c]) [] (d.width (valueArgs d 0)).1
      (d.precisionValue (valueArgs d 0)) (d.width (valueArgs d 0)).2.left (if x = 0 then "(NULL)".toList else []) := by
    intro x
    simp only [directiveText, convert, hconv, valueArgs_self, (width_valueArgs d x).1, (precision_valueArgs d x).1]
    rfl
  have hopen : '(' ∈ directiveText d (valueArgs d 1) := by
    rw [← he, hdirective, mem_convertString (by decide), if_pos rfl]
    split
    · rename_i hprecision
      obtain ⟨n, hn⟩ := Nat.exists_eq_succ_of_ne_zero 
        (show (d.precisionValue (valueArgs d 0)).toNat ≠ 0 by omega)
      rw [hn]
      exact List.mem_cons_self
    · decide
  have hone : (1 : BitVec 32) ≠ 0 := by decide
  rw [hdirective, mem_convertString (by decide), if_neg hone, List.take_nil] at hopen
  exact absurd hopen List.not_mem_nil

/-! ### Numbers -/

theorem ite_append_nil {c : Prop} [Decidable c] (x t : List Char) :
    (if c then x ++ t else x) = x ++ if c then t else [] := by
  split
  · rfl
  · exact (List.append_nil x).symm

theorem printDigits_text (sign : Option Char) (i : ℕ) (s precision : ℤ) (type : Flags) : ∃ before behind,
    ∀ tmp : List Char, tmp.length = i → printDigits (fun l c => l ++ [c]) [] sign tmp s precision type =
      before ++ (if precision ≠ 0 then tmp.reverse else []) ++ behind := by
  refine ⟨?_, ?_, fun tmp h => ?_⟩
  rotate_left 2
  · simp only [printDigits, pad_concat, foldl_concat, h]
    rw [ite_append_nil]

theorem printDigits_zero (tmp : List Char) (s : ℤ) (type : Flags) :
    printDigits (fun l c => l ++ [c]) [] none tmp s 0 type =
      List.replicate (s - tmp.length).toNat (if type.zeropad && !type.left then '0' else ' ') := by
  simp only [printDigits, pad_concat, foldl_concat]
  cases type.zeropad <;> cases type.left <;> simp

theorem mem_printDigits_zero (sign : Option Char) (tmp : List Char) (s : ℤ) (type : Flags) :
    '-' ∈ printDigits (fun l c => l ++ [c]) [] sign tmp s 0 type ↔ sign = some '-' := by
  simp only [printDigits, pad_concat, foldl_concat]
  cases type.zeropad <;> cases type.left <;> simp

theorem numberDigits_pos (num : BitVec 32) (base : ℕ) (type : Flags) : 0 < (numberDigits num base type).length := by
  have hdigits : ∀ n : BitVec 32, 0 < (if n = 0 then ['0'] else
      (divideLoop base 32 n).map fun d => (digits type.large).getD d '0').length := by
    intro n
    split
    · exact Nat.one_pos
    · rename_i hne
      rw [divideLoop, if_neg hne]
      exact Nat.succ_pos _
  exact hdigits _

theorem numberDigits_of_nonneg {num : BitVec 32} (h : 0 ≤ num.toInt) (hne : num ≠ 0) (base : ℕ) (type : Flags) :
    numberDigits num base type = (divideLoop base 32 num).map fun d => (digits type.large).getD d '0' := by
  have hnum : ¬(type.sign = true ∧ num.toInt < 0) := fun hneg => absurd hneg.2 (not_lt.mpr h)
  simp only [numberDigits, if_neg hnum, if_neg hne]

theorem numberDigits_zero (base : ℕ) (type : Flags) : numberDigits 0 base type = ['0'] := by
  have hnum : ¬(type.sign = true ∧ (0 : BitVec 32).toInt < 0) := fun hneg => absurd hneg.2 (by decide)
  simp only [numberDigits, if_neg hnum, if_true]

theorem numberDigits_one (base : ℕ) (type : Flags) : numberDigits 1 base type = ['1'] := by
  have hdivide : divide 1 base = (1, 0) := by
    rw [divide]
    split <;> rfl
  rw [numberDigits_of_nonneg (by decide) (by decide), divideLoop, if_neg (by decide), hdivide, divideLoop, if_pos rfl]
  cases type.large <;> rfl

theorem length_numberDigits_sixteen (base : ℕ) (type : Flags) : (numberDigits 16 base type).length = 2 := by
  have hfirst : (divide 16 base).2 = 1 := by
    rw [divide]
    split <;> rfl
  have hsecond : (divide 1 base).2 = 0 := by
    rw [divide]
    split <;> rfl
  rw [numberDigits_of_nonneg (by decide) (by decide), List.length_map, divideLoop, if_neg (by decide), hfirst, divideLoop,
    if_neg (by decide), hsecond, divideLoop, if_pos rfl]
  rfl

theorem numberSign_of_nonneg {num : BitVec 32} (h : 0 ≤ num.toInt) (type : Flags) :
    numberSign num type = numberSign 0 type := by
  have hzero : ¬(0 : BitVec 32).toInt < 0 := by decide
  simp only [numberSign, if_neg (not_lt.mpr h), if_neg hzero]

theorem printNumber_ne {q : Option Char} {base : ℕ} {s precision : ℤ} {type : Flags}
    (h : precision ≠ 0 ∨ type.sign = true ∨ 2 ≤ s) : ∃ x y : BitVec 32,
      printNumber (fun l c => l ++ [c]) [] (integerArg q type.sign x) base s precision type ≠
        printNumber (fun l c => l ++ [c]) [] (integerArg q type.sign y) base s precision type := by
  have hsmall : ∀ x : BitVec 32, x = 0 ∨ x = 1 ∨ x = 16 → integerArg q type.sign x = x := by
    rintro x (rfl | rfl | rfl) <;> simp only [integerArg] <;> split_ifs <;> rfl
  by_cases hprecision : precision = 0
  · subst hprecision
    by_cases hsign : type.sign = true
    · refine ⟨0, -1, fun he => ?_⟩
      have hneg : integerArg q type.sign (-1) = -1 := by
        rw [hsign]
        simp only [integerArg]
        split <;> decide
      have hmem : '-' ∈ printNumber (fun l c => l ++ [c]) [] (integerArg q type.sign 0) base s 0 type := by
        rw [he, printNumber, mem_printDigits_zero, hneg, numberSign, if_pos hsign]
        rfl
      have hzero : ¬(0 : BitVec 32).toInt < 0 := by decide
      rw [printNumber, mem_printDigits_zero, hsmall 0 (Or.inl rfl), numberSign, if_pos hsign, if_neg hzero] at hmem
      revert hmem
      split_ifs <;> decide
    · have hwidth : 2 ≤ s := (h.resolve_left fun hne => hne rfl).resolve_left hsign
      refine ⟨0, 16, fun he => ?_⟩
      have hnone : ∀ num, numberSign num type = none := fun num => if_neg hsign
      rw [hsmall 0 (Or.inl rfl), hsmall 16 (Or.inr (Or.inr rfl)), printNumber, printNumber, hnone, hnone,
        printDigits_zero, printDigits_zero] at he
      have hlength := congrArg List.length he
      rw [List.length_replicate, List.length_replicate, numberDigits_zero, length_numberDigits_sixteen] at hlength
      simp only [List.length_singleton] at hlength
      omega
  · refine ⟨0, 1, fun he => ?_⟩
    obtain ⟨before, behind, htext⟩ := printDigits_text (numberSign 0 type) 1 s precision type
    rw [hsmall 0 (Or.inl rfl), hsmall 1 (Or.inr (Or.inl rfl)), printNumber, printNumber, numberDigits_zero, numberDigits_one,
      @numberSign_of_nonneg 1 (by decide), htext _ rfl, htext _ rfl, if_pos hprecision, if_pos hprecision] at he
    have hdigit := List.append_cancel_left (List.append_cancel_right he)
    exact absurd hdigit (by decide)

theorem printNumber_nil {s : ℤ} {type : Flags} (hsign : type.sign = false) (hs : s ≤ 1) (num : BitVec 32) (base : ℕ) :
    printNumber (fun l c => l ++ [c]) [] num base s 0 type = [] := by
  have hnone : numberSign num type = none := if_neg (by rw [hsign]; exact Bool.false_ne_true)
  have hpos := numberDigits_pos num base type
  rw [printNumber, hnone, printDigits_zero, show (s - (numberDigits num base type).length).toNat = 0 by omega]
  rfl

/-! ### The exact condition -/

/-- A directive with a value depends on it, unless its width and precision are such that it never prints
anything. -/
theorem varies_or_nil {d : Directive} {ch : Char} (hconv : d.conversion = some ch) (hvalue : ch ∈ valueConversions)
    {q : Option Char} (base : ℤ × Flags → ℕ) (s : ℤ × Flags → ℤ) (type : ℤ × Flags → Flags)
    (hs : ∀ width, width.1 ≤ s width)
    (htext : ∀ args, directiveText d args = printNumber (fun l c => l ++ [c]) []
      (integerArg q (type (d.width args)).sign (args.arg d.stars)) (base (d.width args)) (s (d.width args))
      (d.precisionValue args) (type (d.width args))) :
    Varies d ∨ ∀ args, directiveText d args = [] := by
  by_cases h : d.precisionValue (valueArgs d 0) ≠ 0 ∨ (type (d.width (valueArgs d 0))).sign = true ∨
      2 ≤ s (d.width (valueArgs d 0))
  · left
    obtain ⟨x, y, hne⟩ := printNumber_ne (q := q) h
    refine varies_of_value hconv hvalue (x := x) (y := y) ?_
    rwa [htext, htext, valueArgs_self, valueArgs_self, (width_valueArgs d x).1, (width_valueArgs d y).1,
      (precision_valueArgs d x).1, (precision_valueArgs d y).1]
  · right
    intro args
    simp only [not_or, not_le, Bool.not_eq_true, not_not] at h
    obtain ⟨hprecision, hsign, hwidth⟩ := h
    have hargs : d.width args = d.width (valueArgs d 0) := by
      cases hfield : d.fieldWidth with
      | star =>
        have hle := hs (d.width (valueArgs d 0))
        rw [(width_valueArgs d 0).2 hfield] at hle hwidth
        exact absurd hwidth (not_lt.mpr hle)
      | _ => simp only [Directive.width, hfield, Field.value]
    have hargs' : d.precisionValue args = d.precisionValue (valueArgs d 0) := by
      cases hfield : d.precision with
      | star =>
        rw [(precision_valueArgs d 0).2 hfield] at hprecision
        exact absurd hprecision (by decide)
      | _ => simp only [Directive.precisionValue, hfield, Field.value]
    rw [htext, hargs, hargs', hprecision]
    exact printNumber_nil hsign (Int.lt_add_one_iff.mp hwidth) _ _

theorem directive_varies_or_nil {d : Directive} {ch : Char} (hconv : d.conversion = some ch)
    (hvalue : ch ∈ valueConversions) : Varies d ∨ ∀ args, directiveText d args = [] := by
  have hcases : ch = 'c' ∨ ch = 's' ∨ ch = 'p' ∨ ch = 'o' ∨ ch = 'X' ∨ ch = 'x' ∨ ch = 'd' ∨ ch = 'i' ∨ ch = 'u' := by
    simpa only [valueConversions, List.mem_cons, List.not_mem_nil, or_false] using hvalue
  rcases hcases with rfl | rfl | rfl | rfl | rfl | rfl | rfl | rfl | rfl
  · exact Or.inl (varies_char hconv)
  · exact Or.inl (varies_string hconv)
  · refine varies_or_nil (q := none) hconv hvalue (fun _ => 16) (fun w => if w.1 = -1 then 8 else w.1)
      (fun w => if w.1 = -1 then { w.2 with zeropad := true } else w.2) (fun w => ?_) fun args => ?_
    · show w.1 ≤ if w.1 = -1 then 8 else w.1
      split <;> omega
    · by_cases hwidth : (d.width args).1 = -1
      · simp only [if_pos hwidth, directiveText, convert, hconv]
        rfl
      · simp only [if_neg hwidth, directiveText, convert, hconv]
        rfl
  · refine varies_or_nil (q := d.qualifier) hconv hvalue (fun _ => 8) Prod.fst Prod.snd (fun _ => le_rfl) fun args => ?_
    rw [directiveText, convert, hconv]
    rfl
  · refine varies_or_nil (q := d.qualifier) hconv hvalue (fun _ => 16) Prod.fst (fun w => { w.2 with large := true }) (fun _ => le_rfl)
      fun args => ?_
    rw [directiveText, convert, hconv]
    rfl
  · refine varies_or_nil (q := d.qualifier) hconv hvalue (fun _ => 16) Prod.fst Prod.snd (fun _ => le_rfl) fun args => ?_
    rw [directiveText, convert, hconv]
    rfl
  · refine varies_or_nil (q := d.qualifier) hconv hvalue (fun _ => 10) Prod.fst (fun w => { w.2 with sign := true }) (fun _ => le_rfl)
      fun args => ?_
    rw [directiveText, convert, hconv]
    rfl
  · refine varies_or_nil (q := d.qualifier) hconv hvalue (fun _ => 10) Prod.fst (fun w => { w.2 with sign := true }) (fun _ => le_rfl)
      fun args => ?_
    rw [directiveText, convert, hconv]
    rfl
  · refine varies_or_nil (q := d.qualifier) hconv hvalue (fun _ => 10) Prod.fst Prod.snd (fun _ => le_rfl) fun args => ?_
    rw [directiveText, convert, hconv]
    rfl

/-- Either the text depends on the arguments, or it is shorter than the format, if this is not plain. -/
def Shortens (fmt : List Char) : Prop :=
  (∃ args args', formatted fmt args ≠ formatted fmt args') ∨
    ∀ args, (formatted fmt args).length ≤ fmt.length ∧ ((formatted fmt args).length = fmt.length → Plain fmt)

theorem Shortens.cons {ch : Char} (hch : ch ≠ '%') {fmt : List Char} (h : Shortens fmt) : Shortens (ch :: fmt) := by
  simp only [Shortens, formatted_cons hch, plain_cons hch, List.length_cons, Nat.add_le_add_iff_right, Nat.add_right_cancel_iff]
  rcases h with ⟨args, args', hne⟩ | h
  · exact Or.inl ⟨args, args', fun he => hne (List.cons.inj he).2⟩
  · exact Or.inr h

/-- Any words in front of some arguments. -/
def VaList.behind (args : VaList) (n : ℕ) : VaList := { args with arg := fun i => args.arg (i - n) }

theorem VaList.drop_behind (args : VaList) (n : ℕ) : (args.behind n).drop n = args := by
  simp only [VaList.behind, VaList.drop, Nat.add_sub_cancel_left]

theorem Shortens.of_varies {fmt : List Char} (h : Varies (readDirective fmt).1) : Shortens ('%' :: fmt) := by
  obtain ⟨args, args', hdrop, hne⟩ := h
  refine Or.inl ⟨args, args', fun he => hne ?_⟩
  rw [formatted_directive, formatted_directive, hdrop] at he
  exact List.append_cancel_right he

theorem Shortens.of_text {fmt t : List Char} (htext : ∀ args, directiveText (readDirective fmt).1 args = t)
    (hrest : Shortens (readDirective fmt).2) (hle : t.length + (readDirective fmt).2.length ≤ fmt.length + 1)
    (hplain : t.length + (readDirective fmt).2.length = fmt.length + 1 → Plain (readDirective fmt).2 → Plain ('%' :: fmt)) :
    Shortens ('%' :: fmt) := by
  simp only [Shortens, formatted_directive, htext, List.length_append, List.length_cons]
  rcases hrest with ⟨args, args', hne⟩ | hrest
  · refine Or.inl ⟨args.behind (readDirective fmt).1.arity, args'.behind (readDirective fmt).1.arity, fun he => hne ?_⟩
    rw [VaList.drop_behind, VaList.drop_behind] at he
    exact List.append_cancel_left he
  · refine Or.inr fun args => ?_
    obtain ⟨hlen, heq⟩ := hrest (args.drop (readDirective fmt).1.arity)
    exact ⟨by omega, fun he => hplain (by omega) (heq (by omega))⟩

theorem shortens_directive {fmt : List Char} (hrest : Shortens (readDirective fmt).2) : Shortens ('%' :: fmt) := by
  obtain ⟨rest, hreads, hconv, htail⟩ := readDirective_spec fmt
  have hle := hreads.le
  cases rest with
  | nil =>
    refine Shortens.of_text (directiveText_percent (Or.inl hconv)) hrest ?_ fun he _ => ?_
    · rw [htail]
      exact Nat.succ_le_succ hle
    · rw [htail, List.tail_nil, List.length_singleton, List.length_nil] at he
      rw [List.eq_nil_of_length_eq_zero (show fmt.length = 0 by omega)]
      exact plain_percent
  | cons ch rest =>
    rw [List.length_cons] at hle
    by_cases hpercent : ch = '%'
    · subst hpercent
      refine Shortens.of_text (directiveText_percent (Or.inr hconv)) hrest ?_ fun he _ => ?_
      · rw [htail, List.length_singleton, List.tail_cons]
        omega
      · rw [htail, List.length_singleton, List.tail_cons] at he
        omega
    · by_cases hvalue : ch ∈ valueConversions
      · rcases directive_varies_or_nil hconv hvalue with hvaries | hnil
        · exact Shortens.of_varies hvaries
        · refine Shortens.of_text hnil hrest ?_ fun he _ => ?_
          · rw [htail, List.length_nil, List.tail_cons]
            omega
          · rw [htail, List.length_nil, List.tail_cons] at he
            omega
      · refine Shortens.of_text (directiveText_other hconv hvalue hpercent) hrest ?_ fun he hplain => ?_
        · rw [htail, List.length_cons, List.length_singleton, List.tail_cons]
          omega
        · -- nothing stands between the `%` and the conversion
          rw [htail, List.length_cons, List.length_singleton, List.tail_cons] at he
          rw [htail] at hplain
          rcases hreads with hlt | ⟨rfl, hhead⟩
          · rw [List.length_cons] at hlt
            omega
          · exact plain_directive.mpr ⟨⟨hhead ch rfl, hvalue, hpercent⟩, hplain⟩

theorem shortens (fmt : List Char) : Shortens fmt := by
  induction hn : fmt.length using Nat.strongRecOn generalizing fmt with
  | ind n ih =>
    subst hn
    cases fmt with
    | nil => exact Or.inr fun _ => ⟨le_rfl, fun _ => plain_nil⟩
    | cons ch fmt =>
      by_cases hch : ch = '%'
      · subst hch
        exact shortens_directive (ih _ (Nat.lt_succ_of_le (readDirective_length fmt)) (readDirective fmt).2 rfl)
      · exact (ih fmt.length (Nat.lt_succ_self _) fmt rfl).cons hch

theorem formatted_eq_iff (fmt : List Char) : (∀ args, formatted fmt args = fmt) ↔ Plain fmt := by
  constructor
  · intro h
    rcases shortens fmt with ⟨args, args', hne⟩ | hshort
    · rw [h, h] at hne
      exact absurd rfl hne
    · exact (hshort ⟨fun _ => 0, fun _ => []⟩).2 (by rw [h])
  · exact fun h args => h.formatted_eq args

/-- `rt_kprintf` without arguments passes a short text as it is exactly when it is plain. -/
theorem rtKprintf_eq_iff {fmt : List Char} (hroom : fmt.length < consolebufSize - 1) (hzero : '\x00' ∉ fmt) :
    (∀ consoleDevice rtLogBuf args, rtKprintf consoleDevice rtLogBuf fmt args = fmt) ↔ Plain fmt := by
  rw [← formatted_eq_iff]
  constructor
  · intro h args
    have hprinted := h true (fun _ => '\x00') args
    by_cases hlen : (formatted fmt args).length < consolebufSize - 1
    · rwa [rtKprintf_eq _ hlen] at hprinted
    · have hlength := rtKprintf_length (fun _ => '\x00') (not_lt.mp hlen)
      rw [hprinted] at hlength
      omega
  · intro h consoleDevice rtLogBuf args
    have he := h args
    have hlen : (formatted fmt args).length < consolebufSize - 1 := by rwa [he]
    cases consoleDevice with
    | true => rw [rtKprintf_eq _ hlen, he]
    | false => rw [rtKprintf_string _ hlen (by rwa [he]), he]

end RtThread.Kservice.Vsnprintf
