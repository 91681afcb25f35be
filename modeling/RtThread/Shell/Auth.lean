import Mathlib
import RtThread.Shell.Strings

/-!
# The shell: the password (`shell.c:244-335`)

`FINSH_PASSWORD_MAX` is a parameter.
-/

namespace RtThread.Shell

/-- The string that `finsh_set_password` stores. -/
structure Password (max : ℕ) where
  text : List Byte
  noNul : ∀ b ∈ text, b ≠ 0
  fits : text.length ≤ max

/-- The array `shell->password`, which `rt_strncpy` fills up with NULs. -/
def Password.array {max : ℕ} (pw : Password max) : List Byte := pw.text ++ zeros (max - pw.text.length)

/-! ### Reading the password -/

/-- The local variables `password` and `cur_pos`. -/
structure Auth where
  password : List Byte
  curPos : ℕ

def authStart (max : ℕ) : Auth := ⟨zeros max, 0⟩

/-- `password[i] = v`, which is not defined outside of the array. -/
def Auth.write (a : Auth) (i : ℕ) (v : Byte) : Option Auth :=
  if i < a.password.length then some { a with password := a.password.set i v } else none

inductive Outcome where
  | granted
  | waiting
  | overrun
  deriving DecidableEq

def Printable (ch : Byte) : Prop := 0x20 ≤ ch ∧ ch ≤ 0x7e

instance (ch : Byte) : Decidable (Printable ch) := inferInstanceAs (Decidable (_ ∧ _))

def IsEnter (ch : Byte) : Prop := ch = 0x0d ∨ ch = 0x0a

instance (ch : Byte) : Decidable (IsEnter ch) := inferInstanceAs (Decidable (_ ∨ _))

/-- The loop of `finsh_wait_auth` over the characters that `finsh_getchar` gives. -/
def authLoop {max : ℕ} (pw : Password max) : List Byte → Auth → Outcome
  | [], _ => .waiting
  | ch :: keys, a =>
    if Printable ch ∧ a.curPos < max then
      match a.write a.curPos ch with
      | none => .overrun
      | some a => authLoop pw keys { a with curPos := a.curPos + 1 }
    else if ch = 0x08 ∧ 0 < a.curPos then
      match a.write a.curPos 0 with
      | none => .overrun
      | some a => authLoop pw keys { a with curPos := a.curPos - 1 }
    else if IsEnter ch then
      if rtStrncmp max pw.array a.password = 0 then .granted else authLoop pw keys (authStart max)
    else authLoop pw keys a

/-- `finsh_wait_auth` (`shell.c:280-335`). -/
def finshWaitAuth {max : ℕ} (pw : Password max) (keys : List Byte) : Outcome :=
  if rtStrlen pw.array = 0 then .granted else authLoop pw keys (authStart max)

/-! ### The edited text -/

def typedKey (max : ℕ) (text : List Byte) (ch : Byte) : List Byte :=
  if Printable ch ∧ text.length < max then text ++ [ch]
  else if ch = 0x08 then text.dropLast
  else text

/-- The text after the backspaces, without the characters beyond the maximum. -/
def typed (max : ℕ) (keys : List Byte) : List Byte := keys.foldl (typedKey max) []

/-- The keys before `\r` or `\n`. -/
structure KeyLine where
  keys : List Byte
  enter : Byte
  noEnter : ∀ k ∈ keys, ¬ IsEnter k
  isEnter : IsEnter enter

/-- The line grants access if its text is the password, and otherwise another one is read. -/
def Checked {max : ℕ} (pw : Password max) (line : KeyLine) : Prop :=
  ∀ more, finshWaitAuth pw (line.keys ++ line.enter :: more) =
    if typed max line.keys = pw.text then .granted else authLoop pw more (authStart max)

/-- The character that was deleted last, when none was typed after it. -/
def leftKey (max : ℕ) (s : List Byte × List Byte) (ch : Byte) : List Byte × List Byte :=
  if Printable ch ∧ s.1.length < max then (s.1 ++ [ch], [])
  else if ch = 0x08 ∧ s.1 ≠ [] then (s.1.dropLast, s.1.getLast?.toList)
  else s

def leftOver (max : ℕ) (keys : List Byte) : List Byte := (keys.foldl (leftKey max) ([], [])).2

/-- A backspace is typed when there is no room for another character. -/
def DeletesFull (max : ℕ) (keys : List Byte) : Prop :=
  ∃ before after, keys = before ++ 0x08 :: after ∧ typed max before ≠ [] ∧ (typed max before).length = max

/-- When the edited text is what is checked. -/
def CheckedWhen {max : ℕ} (pw : Password max) (line : KeyLine) : Prop :=
  if pw.text = [] then typed max line.keys = []
  else ¬ DeletesFull max line.keys ∧ (leftOver max line.keys = [] ∨
    typed max line.keys ≠ pw.text ∧ typed max line.keys ++ leftOver max line.keys ≠ pw.text)

/-! ### The buffer -/

/-- The buffer holds the text, and behind it the character deleted last. -/
structure Auth.Holds (a : Auth) (max : ℕ) (text left : List Byte) : Prop where
  password : a.password = text ++ left ++ zeros (max - (text ++ left).length)
  curPos : a.curPos = text.length
  fits : (text ++ left).length ≤ max
  short : left.length ≤ 1
  noNul : ∀ b ∈ text ++ left, b ≠ 0

theorem authStart_holds (max : ℕ) : (authStart max).Holds max [] [] :=
  ⟨rfl, rfl, Nat.zero_le max, Nat.zero_le 1, fun _ hb => absurd hb List.not_mem_nil⟩

theorem printable_ne_zero {ch : Byte} (h : Printable ch) : ch ≠ 0 := by
  intro hzero
  rw [hzero] at h
  exact absurd h (by decide)

variable {max : ℕ} {a : Auth} {text left : List Byte}

theorem Auth.Holds.write (h : a.Holds max text left) (hlt : text.length < max) (v : Byte) :
    a.write a.curPos v = some ⟨text ++ v :: zeros (max - text.length - 1), text.length⟩ := by
  have hrest : ∃ c, left ++ zeros (max - (text ++ left).length) = c :: zeros (max - text.length - 1) := by
    have hfits := h.fits
    rw [List.length_append] at hfits ⊢
    match left, h.short with
    | [], _ =>
      refine ⟨0, ?_⟩
      rw [List.nil_append, List.length_nil, Nat.add_zero, ← zeros_succ]
      congr 1
      omega
    | [c], _ => exact ⟨c, by rw [List.length_singleton, Nat.sub_add_eq]; rfl⟩
  obtain ⟨c, hc⟩ := hrest
  have hpassword : a.password = text ++ c :: zeros (max - text.length - 1) := by
    rw [h.password, List.append_assoc, hc]
  have hlength : a.curPos < a.password.length := by
    rw [hpassword, h.curPos, List.length_append, List.length_cons]
    omega
  rw [Auth.write, if_pos hlength, hpassword, h.curPos, List.set_append_right _ _ le_rfl, Nat.sub_self]
  rfl

theorem typed_snoc (keys : List Byte) (k : Byte) : typed max (keys ++ [k]) = typedKey max (typed max keys) k := by
  rw [typed, List.foldl_append]
  rfl

theorem leftKey_fst (s : List Byte × List Byte) (ch : Byte) : (leftKey max s ch).1 = typedKey max s.1 ch := by
  rw [leftKey, typedKey]
  by_cases hp : Printable ch ∧ s.1.length < max
  · rw [if_pos hp, if_pos hp]
  · rw [if_neg hp, if_neg hp]
    by_cases hb : ch = 0x08
    · rw [if_pos hb]
      by_cases hs : s.1 = []
      · rw [if_neg fun h => h.2 hs, hs]
        rfl
      · rw [if_pos ⟨hb, hs⟩]
    · rw [if_neg hb, if_neg fun h => hb h.1]

theorem foldl_leftKey_fst (keys : List Byte) : (keys.foldl (leftKey max) ([], [])).1 = typed max keys := by
  induction keys using List.reverseRecOn with
  | nil => rfl
  | append_singleton keys k ih =>
    rw [List.foldl_append, typed_snoc, ← ih]
    exact leftKey_fst _ k

theorem leftOver_snoc (keys : List Byte) (k : Byte) :
    leftOver max (keys ++ [k]) = (leftKey max (typed max keys, leftOver max keys) k).2 := by
  rw [leftOver, List.foldl_append, ← foldl_leftKey_fst]
  rfl

theorem deletesFull_snoc (keys : List Byte) (k : Byte) :
    DeletesFull max (keys ++ [k]) ↔
      DeletesFull max keys ∨ k = 0x08 ∧ typed max keys ≠ [] ∧ (typed max keys).length = max := by
  constructor
  · intro h
    obtain ⟨before, after, heq, hne, hfull⟩ := h
    induction after using List.reverseRecOn with
    | nil =>
      obtain ⟨rfl, hk⟩ := List.append_inj' heq rfl
      exact Or.inr ⟨(List.cons.inj hk).1, hne, hfull⟩
    | append_singleton after _ _ =>
      rw [← List.cons_append, ← List.append_assoc] at heq
      obtain ⟨rfl, -⟩ := List.append_inj' heq rfl
      exact Or.inl ⟨before, after, rfl, hne, hfull⟩
  · intro h
    rcases h with ⟨before, after, rfl, hne, hfull⟩ | ⟨rfl, hne, hfull⟩
    · exact ⟨before, after ++ [k], by rw [List.append_assoc, List.cons_append], hne, hfull⟩
    · exact ⟨keys, [], rfl, hne, hfull⟩

/-! ### One key -/

variable {pw : Password max}

theorem Auth.Holds.type (h : a.Holds max text left) {ch : Byte} (hch : Printable ch) (hlt : text.length < max)
    (more : List Byte) : ∃ a', authLoop pw (ch :: more) a = authLoop pw more a' ∧ a'.Holds max (text ++ [ch]) [] := by
  have hlt' : a.curPos < max := by
    rw [h.curPos]
    exact hlt
  refine ⟨⟨text ++ ch :: zeros (max - text.length - 1), text.length + 1⟩, ?_, ?_, ?_, ?_, Nat.zero_le 1, ?_⟩
  · rw [authLoop, if_pos ⟨hch, hlt'⟩, h.write hlt]
  · rw [List.append_nil, List.append_assoc, List.length_append, Nat.sub_add_eq]
    rfl
  · rw [List.length_append]
    rfl
  · rw [List.append_nil, List.length_append]
    exact hlt
  · intro b hb
    rw [List.append_nil] at hb
    rcases List.mem_append.mp hb with hb | hb
    · exact h.noNul b (List.mem_append_left left hb)
    · rw [List.mem_singleton.mp hb]
      exact printable_ne_zero hch

theorem Auth.Holds.backspace {b : Byte} (h : a.Holds max (text ++ [b]) left) (hlt : (text ++ [b]).length < max)
    (more : List Byte) : ∃ a', authLoop pw (0x08 :: more) a = authLoop pw more a' ∧ a'.Holds max text [b] := by
  have hpos : 0 < a.curPos := by
    rw [h.curPos, List.length_append]
    exact Nat.succ_pos _
  refine ⟨⟨text ++ [b] ++ 0 :: zeros (max - (text ++ [b]).length - 1), text.length⟩, ?_, ?_, rfl, hlt.le, le_rfl, ?_⟩
  · rw [authLoop, if_neg fun hp => absurd hp.1 (by decide), if_pos ⟨rfl, hpos⟩, h.write hlt, List.length_append]
    rfl
  · rw [← zeros_succ, Nat.sub_add_cancel (Nat.sub_pos_of_lt hlt)]
  · intro c hc
    exact h.noNul c (List.mem_append_left left hc)

theorem Auth.Holds.backspace_full (h : a.Holds max text left) (hne : text ≠ []) (hfull : text.length = max)
    (more : List Byte) : authLoop pw (0x08 :: more) a = .overrun := by
  have hpos : 0 < a.curPos := by
    rw [h.curPos]
    exact List.length_pos_of_ne_nil hne
  have hlength : a.password.length ≤ a.curPos := by
    have hfits := h.fits
    rw [h.password, h.curPos, List.length_append, zeros, List.length_replicate]
    rw [List.length_append] at hfits ⊢
    omega
  rw [authLoop, if_neg fun hp => absurd hp.1 (by decide), if_pos ⟨rfl, hpos⟩, Auth.write, if_neg (Nat.not_lt.mpr hlength)]

theorem Auth.Holds.ignore (h : a.Holds max text left) {ch : Byte} (henter : ¬IsEnter ch)
    (hp : ¬(Printable ch ∧ text.length < max)) (hb : ¬(ch = 0x08 ∧ text ≠ [])) (more : List Byte) :
    authLoop pw (ch :: more) a = authLoop pw more a := by
  rw [← h.curPos] at hp
  have hb' : ¬(ch = 0x08 ∧ 0 < a.curPos) := by
    intro hpos
    rw [h.curPos] at hpos
    exact hb ⟨hpos.1, List.ne_nil_of_length_pos hpos.2⟩
  rw [authLoop, if_neg hp, if_neg hb', if_neg henter]

theorem Auth.Holds.key (h : a.Holds max text left) {ch : Byte} (henter : ¬IsEnter ch)
    (hroom : ¬(ch = 0x08 ∧ text ≠ [] ∧ text.length = max)) (more : List Byte) :
    ∃ a', authLoop pw (ch :: more) a = authLoop pw more a' ∧
      a'.Holds max (typedKey max text ch) (leftKey max (text, left) ch).2 := by
  rw [typedKey, leftKey]
  by_cases hp : Printable ch ∧ text.length < max
  · rw [if_pos hp, if_pos hp]
    exact h.type hp.1 hp.2 more
  · rw [if_neg hp, if_neg hp]
    by_cases hb : ch = 0x08 ∧ text ≠ []
    · rw [if_pos hb.1, if_pos hb]
      obtain ⟨rfl, hne⟩ := hb
      have hlt : text.length < max := by
        have hfits := h.fits
        rw [List.length_append] at hfits
        have hmax : text.length ≠ max := fun hmax => hroom ⟨rfl, hne, hmax⟩
        omega
      induction text using List.reverseRecOn with
      | nil => exact absurd rfl hne
      | append_singleton text b _ =>
        rw [List.dropLast_concat, List.getLast?_concat]
        exact h.backspace hlt more
    · refine ⟨a, h.ignore henter hp hb more, ?_⟩
      rw [if_neg hb]
      by_cases hbs : ch = 0x08
      · have hnil : text = [] := by
          by_contra hne
          exact hb ⟨hbs, hne⟩
        rw [if_pos hbs]
        rw [hnil] at h ⊢
        exact h
      · rw [if_neg hbs]
        exact h

/-! ### The line -/

theorem authLoop_keys (pw : Password max) (keys : List Byte) (hkeys : ∀ k ∈ keys, ¬IsEnter k)
    (hroom : ¬DeletesFull max keys) (more : List Byte) :
    ∃ a, authLoop pw (keys ++ more) (authStart max) = authLoop pw more a ∧
      a.Holds max (typed max keys) (leftOver max keys) := by
  induction keys using List.reverseRecOn generalizing more with
  | nil => exact ⟨authStart max, rfl, authStart_holds max⟩
  | append_singleton keys k ih =>
    rw [deletesFull_snoc, not_or] at hroom
    obtain ⟨a, hrun, ha⟩ := ih (fun c hc => hkeys c (List.mem_append_left [k] hc)) hroom.1 (k :: more)
    have hk : ¬IsEnter k := hkeys k (List.mem_append_right keys (List.mem_singleton_self k))
    obtain ⟨a', hkey, ha'⟩ := @Auth.Holds.key _ _ _ _ pw ha _ hk hroom.2 more
    refine ⟨a', ?_, ?_⟩
    · rw [List.append_assoc, List.singleton_append, hrun, hkey]
    · rw [typed_snoc, leftOver_snoc]
      exact ha'

theorem authLoop_overrun (pw : Password max) (keys : List Byte) (hkeys : ∀ k ∈ keys, ¬IsEnter k)
    (hfull : DeletesFull max keys) (more : List Byte) :
    authLoop pw (keys ++ more) (authStart max) = .overrun := by
  induction keys using List.reverseRecOn generalizing more with
  | nil =>
    obtain ⟨before, after, heq, -⟩ := hfull
    exact absurd heq (by simp)
  | append_singleton keys k ih =>
    have hkeys' : ∀ c ∈ keys, ¬IsEnter c := fun c hc => hkeys c (List.mem_append_left [k] hc)
    rw [List.append_assoc, List.singleton_append]
    by_cases hbefore : DeletesFull max keys
    · exact ih hkeys' hbefore (k :: more)
    · obtain ⟨a, hrun, ha⟩ := authLoop_keys pw keys hkeys' hbefore (k :: more)
      rw [deletesFull_snoc] at hfull
      obtain ⟨rfl, hne, hlength⟩ := hfull.resolve_left hbefore
      rw [hrun]
      exact ha.backspace_full hne hlength more

theorem authLoop_enter {pw : Password max} (h : a.Holds max text left) {enter : Byte} (henter : IsEnter enter)
    (more : List Byte) : authLoop pw (enter :: more) a =
      if text ++ left = pw.text then .granted else authLoop pw more (authStart max) := by
  have hp : ¬Printable enter := by
    rcases henter with rfl | rfl <;> decide
  have hb : enter ≠ 0x08 := by
    rcases henter with rfl | rfl <;> decide
  have hcmp : rtStrncmp max pw.array a.password = 0 ↔ text ++ left = pw.text := by
    rw [h.password, Password.array, rtStrncmp_eq_zero_iff pw.noNul h.noNul pw.fits h.fits]
    exact eq_comm
  rw [authLoop, if_neg fun h => hp h.1, if_neg fun h => hb h.1, if_pos henter]
  exact if_congr hcmp rfl rfl

theorem rtStrlen_array (pw : Password max) : rtStrlen pw.array = 0 ↔ pw.text = [] := by
  have htake : pw.array.takeWhile (· ≠ 0) = pw.text := by
    rw [Password.array, List.takeWhile_append_of_pos fun b hb => decide_eq_true (pw.noNul b hb)]
    cases max - pw.text.length with
    | zero => exact List.append_nil _
    | succ n => exact List.append_nil _
  rw [rtStrlen, htake]
  exact List.length_eq_zero_iff

theorem wait_auth_of_room (pw : Password max) (hset : pw.text ≠ []) (line : KeyLine)
    (hroom : ¬DeletesFull max line.keys) (more : List Byte) :
    finshWaitAuth pw (line.keys ++ line.enter :: more) =
      if typed max line.keys ++ leftOver max line.keys = pw.text then .granted
      else authLoop pw more (authStart max) := by
  obtain ⟨a, hrun, ha⟩ := authLoop_keys pw line.keys line.noEnter hroom (line.enter :: more)
  rw [finshWaitAuth, if_neg fun h => hset ((rtStrlen_array pw).mp h), hrun]
  exact authLoop_enter ha line.isEnter more

/-- The password is what is typed, unless a deleted character is still in the buffer behind it. -/
theorem wait_auth_iff {max : ℕ} (pw : Password max) (line : KeyLine) : Checked pw line ↔ CheckedWhen pw line := by
  have hnew : authLoop pw [] (authStart max) = .waiting := rfl
  by_cases hset : pw.text = []
  · have hgranted : ∀ keys, finshWaitAuth pw keys = .granted :=
      fun keys => if_pos ((rtStrlen_array pw).mpr hset)
    rw [CheckedWhen, if_pos hset]
    constructor
    · intro h
      have hline := h []
      rw [hgranted, hnew, hset] at hline
      by_contra hne
      rw [if_neg hne] at hline
      exact absurd hline (by decide)
    · intro h more
      rw [hgranted, if_pos (by rw [h, hset])]
  · rw [CheckedWhen, if_neg hset]
    by_cases hroom : DeletesFull max line.keys
    · have hoverrun : finshWaitAuth pw (line.keys ++ [line.enter]) = .overrun := by
        rw [finshWaitAuth, if_neg fun h => hset ((rtStrlen_array pw).mp h)]
        exact authLoop_overrun pw line.keys line.noEnter hroom _
      refine iff_of_false (fun h => ?_) fun h => h.1 hroom
      have hline := h []
      rw [hoverrun, hnew] at hline
      split_ifs at hline
    · rw [and_iff_right hroom]
      constructor
      · intro h
        have hline := h []
        rw [wait_auth_of_room pw hset line hroom, hnew] at hline
        by_cases htyped : typed max line.keys = pw.text
        · rw [if_pos htyped, htyped] at hline
          by_contra hleft
          rw [not_or] at hleft
          rw [if_neg fun happ => hleft.1 (List.append_right_eq_self.mp happ)] at hline
          exact absurd hline (by decide)
        · rw [if_neg htyped] at hline
          by_cases happ : typed max line.keys ++ leftOver max line.keys = pw.text
          · rw [if_pos happ] at hline
            exact absurd hline (by decide)
          · exact Or.inr ⟨htyped, happ⟩
      · intro h more
        rw [wait_auth_of_room pw hset line hroom]
        rcases h with hleft | ⟨htyped, happ⟩
        · rw [hleft, List.append_nil]
        · rw [if_neg htyped, if_neg happ]

/-- The password is `secret`, and `secrets` is typed with the `s` deleted. -/
theorem deleted_refused : ¬ ∀ (pw : Password 8) (line : KeyLine), Checked pw line := by
  intro h
  have hline := h ⟨[0x73, 0x65, 0x63, 0x72, 0x65, 0x74], by decide, by decide⟩
    ⟨[0x73, 0x65, 0x63, 0x72, 0x65, 0x74, 0x73, 0x08], 0x0d, by decide, by decide⟩ []
  exact absurd hline (by decide)

end RtThread.Shell
