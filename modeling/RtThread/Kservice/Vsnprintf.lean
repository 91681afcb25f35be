import RtThread.Lib.Ring

/-!
# Formatted output (`src/kservice.c`)

`rt_vsnprintf` reads a format and puts one character after the other; `put` is what it does with
each: the function itself stores a character as long as there is room, and counts it in any case.
The kernel is compiled with `RT_PRINTF_PRECISION`, but without `RT_PRINTF_LONGLONG` and
`RT_PRINTF_SPECIAL`; `int`, `long` and addresses have 32 bits. A format is what stands before its
zero.
-/

namespace RtThread.Kservice.Vsnprintf

open RtThread.Lib.Ring

/-- The bits of `flags` (`kservice.c:576-582`). -/
structure Flags where
  zeropad : Bool
  sign : Bool
  plus : Bool
  space : Bool
  left : Bool
  special : Bool
  large : Bool
  deriving DecidableEq, Repr

/-- The words that `va_arg` takes one after the other, whether a caller has passed them or not, and the
string at an address. -/
structure VaList where
  arg : ℕ → BitVec 32
  string : BitVec 32 → List Char

def VaList.drop (args : VaList) (n : ℕ) : VaList := { args with arg := fun i => args.arg (n + i) }

/-- `divide`: the base 8 is divided by 16 as well. -/
def divide (n : BitVec 32) (base : ℕ) : ℕ × BitVec 32 :=
  if base = 10 then (n.toNat % 10, n / 10) else (n.toNat % 16, n / 16)

/-- `while (num != 0) tmp[i++] = digits[divide(&num, base)]`; a number is zero after 32 divisions. -/
def divideLoop (base : ℕ) : ℕ → BitVec 32 → List ℕ
  | 0, _ => []
  | n + 1, num => if num = 0 then [] else (divide num base).1 :: divideLoop base n (divide num base).2

def digits (large : Bool) : List Char :=
  if large = true then "0123456789ABCDEF".toList else "0123456789abcdef".toList

/-- The sign that `print_number` shows (`kservice.c:623-635`). -/
def numberSign (num : BitVec 32) (type : Flags) : Option Char :=
  if type.sign = true then
    if num.toInt < 0 then some '-' else if type.plus = true then some '+' else if type.space = true then some ' ' else none
  else none

/-- `tmp`, which has the digits from the last to the first (`kservice.c:647-654`). -/
def numberDigits (num : BitVec 32) (base : ℕ) (type : Flags) : List Char :=
  let num := if type.sign = true ∧ num.toInt < 0 then -num else num
  if num = 0 then ['0'] else (divideLoop base 32 num).map fun d => (digits type.large).getD d '0'

section
variable {σ : Type*} (put : σ → Char → σ)

/-- `while (n-- > 0)` with one character. -/
def pad (n : ℤ) (c : Char) (o : σ) : σ := (List.replicate n.toNat c).foldl put o

/-- `print_number` once it has the sign and the digits (`kservice.c:656-745`). Behind a loop
`while (size-- > 0)`, the size is `min size 0 - 1`. -/
def printDigits (o : σ) (sign : Option Char) (tmp : List Char) (s precision : ℤ) (type : Flags) : σ :=
  let zeropad := type.zeropad && !type.left
  let i : ℤ := tmp.length
  let size := s - max precision i
  let spaces := !zeropad && !type.left
  let size := if sign.isSome ∧ 0 < size ∧ spaces = true then size - 1 else size
  let o := if spaces = true then pad put size ' ' o else o
  let size := if spaces = true then min size 0 - 1 else size
  let o := sign.toList.foldl put o
  let size := if sign.isSome then size - 1 else size
  let o := if type.left = true then o else pad put size (if zeropad = true then '0' else ' ') o
  let size := if type.left = true then size else min size 0 - 1
  let o := pad put (max precision i - i) '0' o
  let o := if precision ≠ 0 then tmp.reverse.foldl put o else o
  pad put size ' ' o

def printNumber (o : σ) (num : BitVec 32) (base : ℕ) (s precision : ℤ) (type : Flags) : σ :=
  printDigits put o (numberSign num type) (numberDigits num base type) s precision type

end

/-! ### The directives of a format -/

/-- A field width or a precision. -/
inductive Field where
  | absent
  | number (n : ℤ)
  /-- the next argument -/
  | star
  deriving DecidableEq, Repr

/-- What stands behind a `%`; there is no conversion at the end of the format. -/
structure Directive where
  flags : Flags
  fieldWidth : Field
  precision : Field
  qualifier : Option Char
  conversion : Option Char
  deriving DecidableEq, Repr

/-- The flags (`kservice.c:791-804`). -/
def readFlags (flags : Flags) : List Char → Flags × List Char
  | [] => (flags, [])
  | ch :: fmt =>
    if ch = '-' then readFlags { flags with left := true } fmt
    else if ch = '+' then readFlags { flags with plus := true } fmt
    else if ch = ' ' then readFlags { flags with space := true } fmt
    else if ch = '#' then readFlags { flags with special := true } fmt
    else if ch = '0' then readFlags { flags with zeropad := true } fmt
    else (flags, ch :: fmt)

/-- `skip_atoi`. -/
def skipAtoi (i : ℤ) : List Char → ℤ × List Char
  | [] => (i, [])
  | ch :: fmt => if ch.isDigit = true then skipAtoi ((i * 10 + (ch.toNat - 48)).bmod (2 ^ 32)) fmt else (i, ch :: fmt)

/-- A number or a star (`kservice.c:806-819`). -/
def readField : List Char → Field × List Char
  | [] => (.absent, [])
  | ch :: fmt =>
    if ch.isDigit = true then (.number (skipAtoi 0 (ch :: fmt)).1, (skipAtoi 0 (ch :: fmt)).2)
    else if ch = '*' then (.star, fmt)
    else (.absent, ch :: fmt)

/-- A precision of which only the dot is there is -1, and then zero (`kservice.c:821-836`). -/
def readPrecision : List Char → Field × List Char
  | [] => (.absent, [])
  | ch :: fmt =>
    if ch = '.' then
      match readField fmt with
      | (.absent, rest) => (.number (-1), rest)
      | field => field
    else (.absent, ch :: fmt)

def readQualifier : List Char → Option Char × List Char
  | [] => (none, [])
  | ch :: fmt => if ch = 'h' ∨ ch = 'l' then (some ch, fmt) else (none, ch :: fmt)

/-- The directive at the beginning of `fmt`, and what follows it. -/
def readDirective (fmt : List Char) : Directive × List Char :=
  let (flags, fmt) := readFlags ⟨false, false, false, false, false, false, false⟩ fmt
  let (fieldWidth, fmt) := readField fmt
  let (precision, fmt) := readPrecision fmt
  let (qualifier, fmt) := readQualifier fmt
  (⟨flags, fieldWidth, precision, qualifier, fmt.head?⟩, fmt.tail)

def Field.stars (field : Field) : ℕ := if field = .star then 1 else 0

def Field.value (field : Field) (args : VaList) : ℤ :=
  match field with
  | .absent => -1
  | .number n => n
  | .star => (args.arg 0).toInt

/-- A width from the arguments that is negative sets `LEFT`. -/
def Directive.width (d : Directive) (args : VaList) : ℤ × Flags :=
  let width := d.fieldWidth.value args
  if d.fieldWidth = .star ∧ width < 0 then ((-width).bmod (2 ^ 32), { d.flags with left := true })
  else (width, d.flags)

def Directive.precisionValue (d : Directive) (args : VaList) : ℤ :=
  if d.precision = .absent then -1 else max (d.precision.value (args.drop d.fieldWidth.stars)) 0

/-- The conversions that have an argument. -/
def valueConversions : List Char := ['c', 's', 'p', 'o', 'X', 'x', 'd', 'i', 'u']

def Directive.stars (d : Directive) : ℕ := d.fieldWidth.stars + d.precision.stars

/-- How many arguments a directive takes. -/
def Directive.arity (d : Directive) : ℕ :=
  d.stars + match d.conversion with
    | some ch => if ch ∈ valueConversions then 1 else 0
    | none => 0

/-- The number of an integer conversion (`kservice.c:971-990`). -/
def integerArg (qualifier : Option Char) (sign : Bool) (arg : BitVec 32) : BitVec 32 :=
  if qualifier = some 'h' then
    if sign = true then (arg.setWidth 16).signExtend 32 else (arg.setWidth 16).setWidth 32
  else arg

section
variable {σ : Type*} (put : σ → Char → σ)

/-- The case of `%c`; behind the first loop `while (--field_width > 0)`, the second one does nothing. -/
def convertChar (o : σ) (width : ℤ) (left : Bool) (c : Char) : σ :=
  let o := if left = true then o else pad put (width - 1) ' ' o
  let width := if left = true then width else min (width - 1) 0
  pad put (width - 1) ' ' (put o c)

/-- The case of `%s`; behind a loop `while (len < field_width--)`, the width is below `len`. -/
def convertString (o : σ) (width precision : ℤ) (left : Bool) (s : List Char) : σ :=
  let len : ℤ := if 0 < precision ∧ precision < s.length then precision else s.length
  let o := if left = true then o else pad put (width - len) ' ' o
  let width := if left = true then width else min width len - 1
  pad put (width - len) ' ' ((s.take len.toNat).foldl put o)

def convert (o : σ) (d : Directive) (args : VaList) : σ :=
  let (width, flags) := d.width args
  let precision := d.precisionValue args
  let arg := args.arg d.stars
  match d.conversion with
  | none => put o '%'
  | some ch =>
    if ch = 'c' then convertChar put o width flags.left (Char.ofNat (arg.toNat % 256))
    else if ch = 's' then
      convertString put o width precision flags.left (if arg = 0 then "(NULL)".toList else args.string arg)
    else if ch = 'p' then
      if width = -1 then printNumber put o arg 16 8 precision { flags with zeropad := true }
      else printNumber put o arg 16 width precision flags
    else if ch = '%' then put o '%'
    else if ch = 'o' then printNumber put o (integerArg d.qualifier flags.sign arg) 8 width precision flags
    else if ch = 'X' then
      printNumber put o (integerArg d.qualifier flags.sign arg) 16 width precision { flags with large := true }
    else if ch = 'x' then printNumber put o (integerArg d.qualifier flags.sign arg) 16 width precision flags
    else if ch = 'd' ∨ ch = 'i' then
      printNumber put o (integerArg d.qualifier true arg) 10 width precision { flags with sign := true }
    else if ch = 'u' then printNumber put o (integerArg d.qualifier flags.sign arg) 10 width precision flags
    else put (put o '%') ch

/-- The loop over the format; every pass reads at least one character of it. -/
def formatLoop : ℕ → σ → List Char → VaList → σ
  | 0, o, _, _ => o
  | _ + 1, o, [], _ => o
  | n + 1, o, ch :: fmt, args =>
    if ch ≠ '%' then formatLoop n (put o ch) fmt args
    else
      let d := readDirective fmt
      formatLoop n (convert put o d.1 args) d.2 (args.drop d.1.arity)

end

/-! ### The buffers -/

/-- The buffer, and how far `str` is behind its beginning. -/
structure Output where
  buf : ℕ → Char
  str : ℕ

/-- `if (str < end) *str = c; ++ str;` -/
def Output.put (size : ℕ) (o : Output) (c : Char) : Output :=
  { buf := if o.str < size then Function.update o.buf o.str c else o.buf, str := o.str + 1 }

/-- The buffer behind the call, and the result. -/
def rtVsnprintf (buf : ℕ → Char) (size : ℕ) (fmt : List Char) (args : VaList) : (ℕ → Char) × ℕ :=
  let o := formatLoop (Output.put size) fmt.length ⟨buf, 0⟩ fmt args
  if 0 < size then (Function.update o.buf (if o.str < size then o.str else size - 1) '\x00', o.str)
  else (o.buf, o.str)

/-- `RT_CONSOLEBUF_SIZE` (`rtconfig.h`). -/
def consolebufSize : ℕ := 128

/-- What `rt_kprintf` passes to the console: to its device, if there is one, as many bytes as it has
formatted; and otherwise a string. -/
def rtKprintf (consoleDevice : Bool) (rtLogBuf : ℕ → Char) (fmt : List Char) (args : VaList) : List Char :=
  let r := rtVsnprintf rtLogBuf (consolebufSize - 1) fmt args
  let length := if consolebufSize - 1 < r.2 then consolebufSize - 1 else r.2
  if consoleDevice = true then slice r.1 0 length
  else (slice r.1 0 consolebufSize).takeWhile fun ch => ch ≠ '\x00'

/-- The text of a format: what a buffer without end receives. -/
def formatted (fmt : List Char) (args : VaList) : List Char :=
  formatLoop (fun o ch => o ++ [ch]) fmt.length [] fmt args

/-! ### One format, two sinks -/

section
variable {σ τ : Type*} {put : σ → Char → σ} {put' : τ → Char → τ} {f : σ → τ}

theorem foldl_map (hf : ∀ o c, put' (f o) c = f (put o c)) (l : List Char) (o : σ) :
    l.foldl put' (f o) = f (l.foldl put o) := List.foldl_hom f hf

theorem pad_map (hf : ∀ o c, put' (f o) c = f (put o c)) (n : ℤ) (c : Char) (o : σ) :
    pad put' n c (f o) = f (pad put n c o) := foldl_map hf _ o

theorem printDigits_map (hf : ∀ o c, put' (f o) c = f (put o c)) (o : σ) (sign : Option Char) (tmp : List Char)
    (s precision : ℤ) (type : Flags) :
    printDigits put' (f o) sign tmp s precision type = f (printDigits put o sign tmp s precision type) := by
  simp only [printDigits, pad_map hf, foldl_map hf, ← apply_ite f]

theorem convertChar_map (hf : ∀ o c, put' (f o) c = f (put o c)) (o : σ) (width : ℤ) (left : Bool) (c : Char) :
    convertChar put' (f o) width left c = f (convertChar put o width left c) := by
  simp only [convertChar, pad_map hf, hf, ← apply_ite f]

theorem convertString_map (hf : ∀ o c, put' (f o) c = f (put o c)) (o : σ) (width precision : ℤ) (left : Bool)
    (s : List Char) : convertString put' (f o) width precision left s = f (convertString put o width precision left s) := by
  simp only [convertString, pad_map hf, foldl_map hf, ← apply_ite f]

theorem convert_map (hf : ∀ o c, put' (f o) c = f (put o c)) (o : σ) (d : Directive) (args : VaList) :
    convert put' (f o) d args = f (convert put o d args) := by
  simp only [convert, printNumber]
  split
  · exact hf o '%'
  · simp only [convertChar_map hf, convertString_map hf, printDigits_map hf, hf, ← apply_ite f]

theorem formatLoop_map (hf : ∀ o c, put' (f o) c = f (put o c)) (n : ℕ) (o : σ) (fmt : List Char) (args : VaList) :
    formatLoop put' n (f o) fmt args = f (formatLoop put n o fmt args) := by
  induction n generalizing o fmt args with
  | zero => rfl
  | succ n ih =>
    cases fmt with
    | nil => rfl
    | cons ch fmt =>
      simp only [formatLoop]
      split
      · rw [hf, ih]
      · rw [convert_map hf, ih]

theorem formatLoop_eq_foldl (put : σ → Char → σ) (o : σ) (n : ℕ) (fmt : List Char) (args : VaList) :
    formatLoop put n o fmt args = (formatLoop (fun l c => l ++ [c]) n [] fmt args).foldl put o := by
  refine formatLoop_map (f := fun l => List.foldl put o l) (fun l c => ?_) n [] fmt args
  rw [List.foldl_append]
  rfl

end

theorem foldl_put (buf : ℕ → Char) (size : ℕ) (l : List Char) :
    (l.foldl (Output.put size) ⟨buf, 0⟩).str = l.length ∧
      slice (l.foldl (Output.put size) ⟨buf, 0⟩).buf 0 (min l.length size) = l.take size := by
  induction l using List.reverseRecOn with
  | nil => exact ⟨rfl, by rw [List.length_nil, Nat.zero_min, List.take_nil]; rfl⟩
  | append_singleton l c ih =>
    obtain ⟨hstr, hbuf⟩ := ih
    rw [List.foldl_append, List.foldl_cons, List.foldl_nil, Output.put, hstr, List.length_append, List.length_singleton]
    refine ⟨rfl, ?_⟩
    by_cases hroom : l.length < size
    · rw [min_eq_left hroom.le, List.take_of_length_le hroom.le] at hbuf
      rw [if_pos hroom, min_eq_left hroom, slice_update, hbuf,
        List.take_of_length_le (by rw [List.length_append, List.length_singleton]; exact hroom)]
    · rw [min_eq_right (by omega)] at hbuf
      rw [if_neg hroom, min_eq_right (by omega), hbuf, List.take_append_of_le_length (by omega)]

theorem rtVsnprintf_snd (buf : ℕ → Char) (size : ℕ) (fmt : List Char) (args : VaList) :
    (rtVsnprintf buf size fmt args).2 = (formatted fmt args).length := by
  have hput := (foldl_put buf size (formatted fmt args)).1
  rw [formatted, ← formatLoop_eq_foldl] at hput
  rw [rtVsnprintf, formatted]
  split <;> exact hput

theorem rtVsnprintf_fst {size : ℕ} {fmt : List Char} {args : VaList} (buf : ℕ → Char)
    (hroom : (formatted fmt args).length < size) :
    slice (rtVsnprintf buf size fmt args).1 0 ((formatted fmt args).length + 1) = formatted fmt args ++ ['\x00'] := by
  obtain ⟨hstr, hbuf⟩ := foldl_put buf size (formatted fmt args)
  rw [min_eq_left hroom.le, List.take_of_length_le hroom.le] at hbuf
  have he : formatLoop (Output.put size) fmt.length ⟨buf, 0⟩ fmt args =
      (formatted fmt args).foldl (Output.put size) ⟨buf, 0⟩ := formatLoop_eq_foldl _ _ _ _ _
  rw [rtVsnprintf, if_pos (Nat.zero_lt_of_lt hroom), he, hstr, if_pos hroom, slice_update, hbuf]

theorem rtKprintf_eq {fmt : List Char} {args : VaList} (rtLogBuf : ℕ → Char)
    (hroom : (formatted fmt args).length < consolebufSize - 1) :
    rtKprintf true rtLogBuf fmt args = formatted fmt args := by
  have hbuf := congrArg (List.take (formatted fmt args).length) (rtVsnprintf_fst rtLogBuf hroom)
  rw [take_slice _ _ (Nat.le_succ _), List.take_left] at hbuf
  rw [rtKprintf, if_pos rfl, rtVsnprintf_snd, if_neg (by omega), hbuf]

theorem rtKprintf_length {fmt : List Char} {args : VaList} (rtLogBuf : ℕ → Char)
    (hlong : consolebufSize - 1 ≤ (formatted fmt args).length) :
    (rtKprintf true rtLogBuf fmt args).length = consolebufSize - 1 := by
  rw [rtKprintf, if_pos rfl, rtVsnprintf_snd, length_slice]
  split <;> omega

theorem rtKprintf_string {fmt : List Char} {args : VaList} (rtLogBuf : ℕ → Char)
    (hroom : (formatted fmt args).length < consolebufSize - 1) (hzero : '\x00' ∉ formatted fmt args) :
    rtKprintf false rtLogBuf fmt args = formatted fmt args := by
  have htake := take_slice (rtVsnprintf rtLogBuf (consolebufSize - 1) fmt args).1 0
    (show (formatted fmt args).length + 1 ≤ consolebufSize by omega)
  rw [rtVsnprintf_fst rtLogBuf hroom] at htake
  have hnonzero : ∀ ch ∈ formatted fmt args, decide (ch ≠ '\x00') = true := by
    intro ch hch
    exact decide_eq_true fun he => hzero (he ▸ hch)
  rw [rtKprintf, if_neg Bool.false_ne_true, ← List.take_append_drop ((formatted fmt args).length + 1) (slice _ 0 _),
    htake, List.append_assoc, List.takeWhile_append_of_pos hnonzero]
  exact List.append_nil _

end RtThread.Kservice.Vsnprintf
