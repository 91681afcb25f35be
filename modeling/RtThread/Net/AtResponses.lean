import RtThread.Net.AtClient

/-!
# The lines of a response (`components/net/at/src/at_client.c:136-163`, `278-334`, `658-726`)

One command is executed while nothing of an earlier one is left, and its response comes in time. The lines lie
one after the other in the buffer, each with a zero in the place of its last character, and
`at_resp_get_line` finds them by these zeros. A line for which the buffer has no room is left out.
-/

namespace RtThread.Net.AtResponses

open RtThread.Lib.Ring RtThread.Lib.Transition RtThread.Lib.Word RtThread.Net.AtClient

/-- `strlen(&buf[p])`, within so many characters. -/
def strlen (buf : ℕ → Char) : ℕ → ℕ → Option ℕ
  | _, 0 => none
  | p, room + 1 => if buf p = '\x00' then some 0 else (strlen buf (p + 1) room).map (· + 1)

/-- The loop of `at_resp_get_line`, with so many lines to go; a search that leaves the buffer has no result. -/
def lineLoop (resp : AtResponse) (respLine : ℕ) : ℕ → ℕ → ℕ → Option ℕ
  | 0, _, _ => none
  | n + 1, lineNum, p =>
    if respLine = lineNum then some p
    else (strlen resp.buf p (resp.bufSize - p)).bind fun len => lineLoop resp respLine n (lineNum + 1) (p + len + 1)

/-- `at_resp_get_line` (`at_client.c:136-163`); the result is an offset into the buffer. -/
def atRespGetLine (resp : AtResponse) (respLine : ℕ) : Option ℕ :=
  if respLine > resp.lineCounts ∨ respLine = 0 then none else lineLoop resp respLine resp.lineCounts 1 0

/-- A line, as it is stored, ends the response with `AT_RESP_ERROR` (`at_client.c:694-706`). -/
def endsInError (lineNum : ℕ) (line : List Char) : Bool :=
  !(startsWith line "OK".toList && decide (lineNum = 0)) &&
    (strstr line "ERROR".toList || startsWith line "FAIL".toList)

/-- The string `text` is at offset `p`. -/
def IsString (buf : ℕ → Char) (p : ℕ) (text : List Char) : Prop :=
  slice buf p (text.length + 1) = text ++ ['\x00'] ∧ '\x00' ∉ text

/-- The buffer has room for the lines of the response. -/
def Room (c : Client) : Prop := c.processed.flatten.length < c.resp.bufSize

/-- A call that returns `RT_EOK` has all lines, and its object gives them by their numbers; a call whose lines
do not all fit returns an error. -/
def Complete (c : Client) : Prop :=
  (c.result = some .eok → HasLines c ∧ ∀ i, 1 ≤ i → i ≤ c.resp.lineCounts → ∃ line p,
    c.processed[i - 1]? = some line ∧ atRespGetLine c.resp i = some p ∧ IsString c.resp.buf p line.dropLast) ∧
    (¬Room c → c.result ≠ some .eok)

/-- Nothing of an earlier command is left. -/
def Idle (c : Client) : Prop :=
  c.respNotice = 0 ∧ (c.parser = .resetting ∨ c.parser = .reading ∧ c.respBufLen = 0 ∧ c.lineCounts = 0)

/-- No other command is issued, the lines have no zeros, and the call does not come to its timeout. -/
def InTime (c : Client) : Act → Prop
  | .issue _ => False
  | .take => 0 < c.respNotice ∨ c.resp.timeout ≠ 0
  | .timeout => False
  | .line line => '\x00' ∉ line
  | _ => True

instance InTime.decidable (c : Client) : (a : Act) → Decidable (InTime c a)
  | .issue resp => isFalse fun h : InTime c (.issue resp) => h
  | .take => inferInstanceAs (Decidable (0 < c.respNotice ∨ c.resp.timeout ≠ 0))
  | .timeout => isFalse fun h : InTime c .timeout => h
  | .line line => inferInstanceAs (Decidable ('\x00' ∉ line))
  | .clear | .check | .leave | .copy | .decide | .count | .finish | .release | .reset => isTrue trivial

/-- What one command keeps, while it is in time. -/
structure Inv (c : Client) : Prop where
  inTime : c.caller ≠ .taken false
  waiting : c.pointed = true ∨ c.parser = .releasing →
    (c.caller = .clearing ∨ c.caller = .taking ∨ c.caller = .waiting) ∧ c.respNotice = 0 ∧ c.result = none
  pointed : c.parser ≠ .reading → c.parser ≠ .resetting → c.parser ≠ .releasing → c.pointed = true
  released : c.parser = .releasing → c.pointed = false
  settled : c.pointed = false ∨ c.parser = .counting ∨ c.parser = .finishing → ∃ lines line,
    c.processed = lines ++ [line] ∧ c.respStatus = if endsInError c.resp.lineNum line = true then .error else .ok
  verdict : ∀ r, c.caller = .leaving r ∨ c.result = some r → r = if c.respStatus = .ok then .eok else .error
  current : ∀ line, c.parser = .copied line → ∃ lines, c.processed = lines ++ [stored line]
  read : ∀ line, c.parser = .tested line → line ≠ [] ∧ '\x00' ∉ line
  texts : ∀ s ∈ c.processed, ∃ line, line ≠ [] ∧ '\x00' ∉ line ∧ s = stored line
  unread : c.pointed = true → c.parser = .resetting → c.processed = []
  counted : Room c → c.pointed = true → c.parser ≠ .resetting →
    c.respBufLen = c.processed.flatten.length ∧ c.lineCounts = c.processed.length
  lines : Room c → HasLines c
  number : Room c → c.pointed = false ∨ c.parser = .finishing →
    c.resp.lineCounts = c.processed.length ∨ c.resp.lineCounts = 0

variable {c c' : Client} {a : Act}

section Buffer

variable {buf : ℕ → Char} {p : ℕ}

theorem slice_succ (buf : ℕ → Char) (p n : ℕ) : slice buf p (n + 1) = buf p :: slice buf (p + 1) n := by
  rw [slice, slice, List.range'_succ, List.map_cons]

theorem strlen_eq {text : List Char} (h : IsString buf p text) {room : ℕ} (hroom : text.length < room) :
    strlen buf p room = some text.length := by
  induction text generalizing p room with
  | nil =>
    obtain ⟨room, rfl⟩ := Nat.exists_eq_succ_of_ne_zero (Nat.ne_zero_of_lt hroom)
    have hzero : buf p = '\x00' := List.cons.inj ((slice_succ buf p 0).symm.trans h.1) |>.1
    exact if_pos hzero
  | cons ch text ih =>
    obtain ⟨room, rfl⟩ := Nat.exists_eq_succ_of_ne_zero (Nat.ne_zero_of_lt hroom)
    obtain ⟨hch, hrest⟩ := List.cons.inj ((slice_succ buf p (text.length + 1)).symm.trans h.1)
    obtain ⟨hne, hnot⟩ := List.ne_and_not_mem_of_not_mem_cons h.2
    rw [strlen, if_neg (by rw [hch]; exact hne.symm), ih ⟨hrest, hnot⟩ (Nat.lt_of_succ_lt_succ hroom)]
    rfl

theorem slice_append {xs ys : List Char} (h : slice buf p (xs ++ ys).length = xs ++ ys) :
    slice buf p xs.length = xs ∧ slice buf (p + xs.length) ys.length = ys := by
  have hlen : (xs ++ ys).length = xs.length + ys.length := List.length_append
  constructor
  · rw [← take_slice buf p (Nat.le_add_right xs.length ys.length), ← hlen, h, List.take_left]
  · have hdrop := drop_slice buf p xs.length (xs ++ ys).length
    rw [h, List.drop_left, hlen, Nat.add_sub_cancel_left] at hdrop
    exact hdrop.symm

theorem lineLoop_eq {resp : AtResponse} {lines : List (List Char)}
    (hlines : slice resp.buf p lines.flatten.length = lines.flatten)
    (htexts : ∀ s ∈ lines, ∃ text, '\x00' ∉ text ∧ s = text ++ ['\x00'])
    (hroom : p + lines.flatten.length ≤ resp.bufSize) {i : ℕ} (hi : i < lines.length) (lineNum : ℕ) :
    ∃ q text, lines[i]? = some (text ++ ['\x00']) ∧ lineLoop resp (lineNum + i) lines.length lineNum p = some q ∧
      IsString resp.buf q text := by
  induction lines generalizing p i lineNum with
  | nil => cases hi
  | cons line lines ih =>
    obtain ⟨text, hnot, rfl⟩ := htexts line List.mem_cons_self
    rw [List.flatten_cons] at hlines hroom
    obtain ⟨hfirst, hrest⟩ := slice_append hlines
    have hlen : (text ++ ['\x00']).length = text.length + 1 := List.length_append
    have hstring : IsString resp.buf p text := ⟨by rw [← hlen]; exact hfirst, hnot⟩
    rw [hlen, ← Nat.add_assoc] at hrest
    rw [List.length_append, hlen] at hroom
    rw [List.length_cons, lineLoop]
    cases i with
    | zero => exact ⟨p, text, rfl, if_pos (Nat.add_zero lineNum), hstring⟩
    | succ i =>
      rw [if_neg (by omega), strlen_eq hstring (by omega), Option.bind_some, List.getElem?_cons_succ,
        show lineNum + (i + 1) = lineNum + 1 + i by omega]
      exact ih hrest (fun s hs => htexts s (List.mem_cons_of_mem _ hs)) (by omega) (Nat.lt_of_succ_lt_succ hi)
        (lineNum + 1)

end Buffer

theorem Inv.undecided (h : Inv c) (hopen : c.pointed = true ∨ c.parser = .releasing) (r : RtErr) :
    ¬(c.caller = .leaving r ∨ c.result = some r) := by
  obtain ⟨hcaller, -, hresult⟩ := h.waiting hopen
  rintro (hr | hr)
  · rcases hcaller with hw | hw | hw <;> rw [hr] at hw <;> cases hw
  · rw [hr] at hresult
    cases hresult

theorem Inv.over (h : Inv c) (hclear : c.caller ≠ .clearing) (htake : c.caller ≠ .taking)
    (hwait : c.caller ≠ .waiting) : ¬(c.pointed = true ∨ c.parser = .releasing) := by
  intro hopen
  rcases (h.waiting hopen).1 with hw | hw | hw
  · exact hclear hw
  · exact htake hw
  · exact hwait hw

theorem pointed_of_before {parser : Parser} (hcount : parser ≠ .counting) (hfinish : parser ≠ .finishing)
    (ht : c.pointed = false ∨ parser = .counting ∨ parser = .finishing) : c.pointed = false := by
  rcases ht with ht | ht | ht
  · exact ht
  · exact absurd ht hcount
  · exact absurd ht hfinish

theorem Inv.issue (h : Idle c) {resp : AtResponse} (hstep : step c (.issue resp) = some c') : Inv c' := by
  obtain ⟨-, he⟩ := Option.ite_none_right_eq_some.mp hstep
  obtain ⟨hnotice, hparser⟩ := h
  have hnone : ∀ line, c.parser ≠ .tested line ∧ c.parser ≠ .copied line := by
    intro line
    rcases hparser with hp | ⟨hp, -⟩ <;> rw [hp] <;> exact ⟨Parser.noConfusion, Parser.noConfusion⟩
  have hnot : c.parser ≠ .counting ∧ c.parser ≠ .finishing := by
    rcases hparser with hp | ⟨hp, -⟩ <;> rw [hp] <;> exact ⟨Parser.noConfusion, Parser.noConfusion⟩
  cases he
  exact {
    inTime := Caller.noConfusion
    waiting := fun _ => ⟨Or.inl rfl, hnotice, rfl⟩
    pointed := fun _ _ _ => rfl
    released := fun ht => by
      rcases hparser with hp | ⟨hp, -⟩ <;> rw [show c.parser = .releasing from ht] at hp <;> cases hp
    settled := fun ht => by
      rcases ht with ht | ht | ht
      · cases ht
      · exact absurd ht hnot.1
      · exact absurd ht hnot.2
    verdict := fun r ht => (by rcases ht with ht | ht <;> cases ht)
    current := fun line ht => absurd ht (hnone line).2
    read := fun line ht => absurd ht (hnone line).1
    texts := fun s hs => (by cases hs)
    unread := fun _ _ => rfl
    counted := fun _ _ ht => (hparser.resolve_left ht).2
    lines := fun _ => rfl
    number := fun _ ht => by
      rcases ht with ht | ht
      · cases ht
      · exact absurd ht hnot.2 }

theorem Inv.goto (h : Inv c) {caller : Caller} {notice : ℕ} (htime : caller ≠ .taken false)
    (hwait : c.pointed = true ∨ c.parser = .releasing →
      (caller = .clearing ∨ caller = .taking ∨ caller = .waiting) ∧ notice = 0)
    (hverdict : ∀ r, caller = .leaving r → r = if c.respStatus = .ok then .eok else .error) :
    Inv { c with respNotice := notice, caller := caller } :=
  { h with
    inTime := htime
    waiting := fun ht => ⟨(hwait ht).1, (hwait ht).2, (h.waiting ht).2.2⟩
    verdict := fun r ht => ht.elim (hverdict r) fun hresult => h.verdict r (Or.inr hresult) }

theorem Inv.clear (h : Inv c) (hstep : step c .clear = some c') : Inv c' := by
  obtain ⟨hcaller, he⟩ := Option.ite_none_right_eq_some.mp hstep
  cases he
  have hmoved := @Inv.goto c h .taking c.respNotice Caller.noConfusion
    (fun ht => ⟨Or.inr (Or.inl rfl), (h.waiting ht).2.1⟩) fun _ ht => (by cases ht)
  exact { hmoved with number := fun _ _ => Or.inr rfl }

theorem Inv.take (h : Inv c) (hC : InTime c .take) (hstep : step c .take = some c') : Inv c' := by
  obtain ⟨-, he⟩ := Option.ite_none_right_eq_some.mp hstep
  cases he
  split
  · rename_i hpos
    have hover : ¬(c.pointed = true ∨ c.parser = .releasing) := by
      intro ht
      rw [(h.waiting ht).2.1] at hpos
      cases hpos
    exact h.goto (fun ht => by cases ht) (fun ht => absurd ht hover) fun _ ht => by cases ht
  · rename_i hzero
    rw [if_neg (hC.resolve_left hzero)]
    exact h.goto Caller.noConfusion (fun ht => ⟨Or.inr (Or.inr rfl), (h.waiting ht).2.1⟩) fun _ ht => (by cases ht)

theorem Inv.check (h : Inv c) (hstep : step c .check = some c') : Inv c' := by
  simp only [step] at hstep
  split at hstep
  · rename_i hcaller
    exact absurd hcaller h.inTime
  · rename_i hcaller
    cases hstep
    have hover := h.over (by rw [hcaller]; exact Caller.noConfusion) (by rw [hcaller]; exact Caller.noConfusion)
      (by rw [hcaller]; exact Caller.noConfusion)
    exact h.goto Caller.noConfusion (fun ht => absurd ht hover) fun r ht => by rw [← Caller.leaving.inj ht]
  · cases hstep

theorem Inv.leave (h : Inv c) (hstep : step c .leave = some c') : Inv c' := by
  simp only [step] at hstep
  split at hstep
  · rename_i r hcaller
    have hover := h.over (by rw [hcaller]; exact Caller.noConfusion) (by rw [hcaller]; exact Caller.noConfusion)
      (by rw [hcaller]; exact Caller.noConfusion)
    have hpointed := Bool.eq_false_of_not_eq_true fun ht => hover (Or.inl ht)
    cases hstep
    exact { h with
      inTime := Caller.noConfusion
      waiting := fun ht => (by
        rcases ht with ht | ht
        · cases ht
        · exact absurd (Or.inr ht) hover)
      pointed := fun h₁ h₂ h₃ => absurd (Or.inl (h.pointed h₁ h₂ h₃)) hover
      released := fun _ => rfl
      settled := fun _ => h.settled (Or.inl hpointed)
      verdict := fun r' ht => (by
        rcases ht with ht | ht
        · cases ht
        · exact Option.some.inj ht ▸ h.verdict r (Or.inl hcaller))
      unread := fun ht => (by cases ht)
      counted := fun _ ht => (by cases ht)
      number := fun hroom _ => h.number hroom (Or.inl hpointed) }
  · cases hstep

theorem Inv.readLine (h : Inv c) {line : List Char} (hC : InTime c (.line line))
    (hstep : step c (.line line) = some c') : Inv c' := by
  obtain ⟨⟨hp, hline⟩, he⟩ := Option.ite_none_right_eq_some.mp hstep
  cases he
  split
  · rename_i hpointed
    exact { h with
      waiting := fun _ => h.waiting (Or.inl hpointed)
      pointed := fun _ _ _ => hpointed
      released := fun ht => (by cases ht)
      settled := fun ht => h.settled (Or.inl (pointed_of_before Parser.noConfusion Parser.noConfusion ht))
      current := fun _ ht => (by cases ht)
      read := fun _ ht => (by cases ht; exact ⟨hline, hC⟩)
      unread := fun _ ht => (by cases ht)
      counted := fun hroom _ _ => h.counted hroom hpointed (by rw [hp]; exact Parser.noConfusion)
      number := fun hroom ht => h.number hroom (Or.inl (ht.resolve_right Parser.noConfusion)) }
  · exact h

theorem Inv.processed (h : Inv c) {line : List Char} (hp : c.parser = .tested line) (hpointed : c.pointed = true)
    {buf : ℕ → Char} {len counts : ℕ} {status : AtRespStatus}
    (hstored : c.processed.flatten.length + line.length < c.resp.bufSize →
      len = c.processed.flatten.length + line.length ∧ counts = c.processed.length + 1 ∧
        slice buf 0 (c.processed ++ [stored line]).flatten.length = (c.processed ++ [stored line]).flatten) :
    Inv { c with
      resp := { c.resp with buf := buf }, respStatus := status, respBufLen := len, lineCounts := counts
      parser := .copied line, processed := c.processed ++ [stored line] } := by
  obtain ⟨hwaiting, hnotice, hresult⟩ := h.waiting (Or.inl hpointed)
  obtain ⟨hne, hnot⟩ := h.read line hp
  have hlen : (c.processed ++ [stored line]).flatten.length = c.processed.flatten.length + line.length := by
    rw [List.flatten_append, List.flatten_singleton, List.length_append, length_stored hne]
  have hover : c.pointed = false ∨ Parser.copied line = .counting ∨ Parser.copied line = .finishing → False := by
    intro ht
    have hnot := pointed_of_before Parser.noConfusion Parser.noConfusion ht
    rw [hpointed] at hnot
    cases hnot
  exact {
    inTime := h.inTime
    waiting := fun _ => ⟨hwaiting, hnotice, hresult⟩
    pointed := fun _ _ _ => hpointed
    released := fun ht => by cases ht
    settled := fun ht => (hover ht).elim
    verdict := fun r ht => absurd ht (h.undecided (Or.inl hpointed) r)
    current := fun line' ht => by
      cases ht
      exact ⟨c.processed, rfl⟩
    read := fun _ ht => by cases ht
    texts := fun s hs => by
      rcases List.mem_append.mp hs with hs | hs
      · exact h.texts s hs
      · exact ⟨line, hne, hnot, List.mem_singleton.mp hs⟩
    unread := fun _ ht => by cases ht
    counted := fun hroom _ _ => by
      obtain ⟨hl, hc, -⟩ := hstored (hlen ▸ hroom)
      have hcount : (c.processed ++ [stored line]).length = c.processed.length + 1 := by
        rw [List.length_append, List.length_singleton]
      exact ⟨hl.trans hlen.symm, hc.trans hcount.symm⟩
    lines := fun hroom => (hstored (hlen ▸ hroom)).2.2
    number := fun _ ht => (hover (ht.imp_right Or.inr)).elim }

theorem Inv.copy (h : Inv c) (hstep : step c .copy = some c') : Inv c' := by
  simp only [step] at hstep
  split at hstep
  · rename_i line hp
    obtain ⟨hpointed, he⟩ := Option.ite_none_right_eq_some.mp hstep
    have hbefore : c.processed.flatten.length + line.length < c.resp.bufSize →
        c.respBufLen = c.processed.flatten.length ∧ c.lineCounts = c.processed.length ∧ HasLines c := by
      intro hlt
      have hroom : Room c := (Nat.le_add_right _ _).trans_lt hlt
      obtain ⟨hl, hc⟩ := h.counted hroom hpointed (by rw [hp]; exact Parser.noConfusion)
      exact ⟨hl, hc, h.lines hroom⟩
    cases he
    rw [copyLine]
    split
    · apply h.processed hp hpointed
      intro hlt
      obtain ⟨hl, hc, hlines⟩ := hbefore hlt
      exact ⟨by rw [hl], by rw [hc], hasLines_copy line hlines hl⟩
    · -- a line that is left out does not fit behind the others
      rename_i hfull
      apply @Inv.processed c h line hp hpointed c.resp.buf c.respBufLen c.lineCounts .buffFull
      intro hlt
      rw [(hbefore hlt).1] at hfull
      exact absurd hlt hfull
  · cases hstep

theorem respEnd_eq {line : List Char} {status : AtRespStatus} (h : respEnd c line = some status) :
    status = if endsInError c.resp.lineNum (stored line) = true then .error else .ok := by
  have herror : (strstr (stored line) "ERROR".toList || startsWith (stored line) "FAIL".toList) = isError line := rfl
  rw [endsInError, herror]
  unfold respEnd at h
  by_cases hok : startsWith (stored line) "OK".toList = true ∧ c.resp.lineNum = 0
  · rw [if_pos hok] at h
    rw [hok.1, decide_eq_true hok.2]
    exact (Option.some.inj h).symm
  · have hnot : (startsWith (stored line) "OK".toList && decide (c.resp.lineNum = 0)) = false := by
      rw [← Bool.not_eq_true, Bool.and_eq_true, decide_eq_true_iff]
      exact hok
    rw [if_neg hok] at h
    rw [hnot, Bool.not_false, Bool.true_and]
    by_cases hline : isError line = true
    · rw [if_pos hline] at h ⊢
      exact (Option.some.inj h).symm
    · rw [if_neg hline] at h ⊢
      obtain ⟨-, he⟩ := Option.ite_none_right_eq_some.mp h
      exact (Option.some.inj he).symm

theorem Inv.decide (h : Inv c) (hstep : step c .decide = some c') : Inv c' := by
  simp only [step] at hstep
  split at hstep
  · rename_i line hp
    obtain ⟨-, he⟩ := Option.ite_none_right_eq_some.mp hstep
    have hpointed : c.pointed = true := by
      apply h.pointed <;> rw [hp] <;> exact Parser.noConfusion
    have hresetting : c.parser ≠ .resetting := by rw [hp]; exact Parser.noConfusion
    obtain ⟨hwaiting, hnotice, hresult⟩ := h.waiting (Or.inl hpointed)
    obtain ⟨lines, hlines⟩ := h.current line hp
    cases he
    split
    · rename_i status hstatus
      exact { h with
        waiting := fun _ => ⟨hwaiting, hnotice, hresult⟩
        pointed := fun _ _ _ => hpointed
        released := fun ht => by cases ht
        settled := fun _ => ⟨lines, stored line, hlines, respEnd_eq hstatus⟩
        verdict := fun r ht => absurd ht (h.undecided (Or.inl hpointed) r)
        current := fun _ ht => by cases ht
        read := fun _ ht => by cases ht
        unread := fun _ ht => by cases ht
        counted := fun hroom _ _ => h.counted hroom hpointed hresetting
        number := fun hroom ht => h.number hroom (Or.inl (ht.resolve_right Parser.noConfusion)) }
    · exact { h with
        waiting := fun _ => ⟨hwaiting, hnotice, hresult⟩
        pointed := fun ht => absurd rfl ht
        released := fun ht => by cases ht
        settled := fun ht => h.settled (Or.inl (pointed_of_before Parser.noConfusion Parser.noConfusion ht))
        current := fun _ ht => by cases ht
        read := fun _ ht => by cases ht
        unread := fun _ ht => by cases ht
        counted := fun hroom _ _ => h.counted hroom hpointed hresetting
        number := fun hroom ht => h.number hroom (Or.inl (ht.resolve_right Parser.noConfusion)) }
  · cases hstep

theorem Inv.count (h : Inv c) (hstep : step c .count = some c') : Inv c' := by
  obtain ⟨⟨hp, hpointed⟩, he⟩ := Option.ite_none_right_eq_some.mp hstep
  have hsettled := h.settled (Or.inr (Or.inl hp))
  have hwaiting := h.waiting (Or.inl hpointed)
  have hcounted : Room c → _ := fun hroom => h.counted hroom hpointed (by rw [hp]; exact Parser.noConfusion)
  cases he
  exact { h with
    waiting := fun _ => hwaiting
    pointed := fun _ _ _ => hpointed
    released := fun ht => by cases ht
    settled := fun _ => hsettled
    current := fun _ ht => by cases ht
    read := fun _ ht => by cases ht
    unread := fun _ ht => by cases ht
    counted := fun hroom _ _ => hcounted hroom
    number := fun hroom _ => Or.inl (hcounted hroom).2 }

theorem Inv.finish (h : Inv c) (hstep : step c .finish = some c') : Inv c' := by
  obtain ⟨hp, he⟩ := Option.ite_none_right_eq_some.mp hstep
  have hpointed : c.pointed = true := by
    apply h.pointed <;> rw [hp] <;> exact Parser.noConfusion
  have hwaiting := h.waiting (Or.inl hpointed)
  have hsettled := h.settled (Or.inr (Or.inr hp))
  cases he
  exact { h with
    waiting := fun _ => hwaiting
    pointed := fun _ _ ht => absurd rfl ht
    released := fun _ => rfl
    settled := fun _ => hsettled
    current := fun _ ht => by cases ht
    read := fun _ ht => by cases ht
    unread := fun ht => by cases ht
    counted := fun _ ht => by cases ht
    number := fun hroom _ => h.number hroom (Or.inr hp) }

theorem Inv.release (h : Inv c) (hstep : step c .release = some c') : Inv c' := by
  obtain ⟨hp, he⟩ := Option.ite_none_right_eq_some.mp hstep
  have hpointed := h.released hp
  have hreset : Inv { c with parser := .resetting } := { h with
    waiting := fun ht => by
      rcases ht with ht | ht
      · rw [show c.pointed = true from ht] at hpointed
        cases hpointed
      · cases ht
    pointed := fun _ ht => absurd rfl ht
    released := fun ht => by cases ht
    settled := fun _ => h.settled (Or.inl hpointed)
    current := fun _ ht => by cases ht
    read := fun _ ht => by cases ht
    unread := fun ht => by
      rw [show c.pointed = true from ht] at hpointed
      cases hpointed
    counted := fun _ _ ht => absurd rfl ht
    number := fun hroom _ => h.number hroom (Or.inl hpointed) }
  have hover : ¬(c.pointed = true ∨ Parser.resetting = .releasing) := by
    rw [hpointed]
    rintro (ht | ht) <;> cases ht
  cases he
  split
  · exact @Inv.goto { c with parser := .resetting } hreset (.taken true) c.respNotice (fun ht => by cases ht)
      (fun ht => absurd ht hover) fun _ ht => by cases ht
  · exact @Inv.goto { c with parser := .resetting } hreset c.caller (inc 16 c.respNotice) h.inTime
      (fun ht => absurd ht hover) fun r ht => h.verdict r (Or.inl ht)

theorem Inv.reset (h : Inv c) (hstep : step c .reset = some c') : Inv c' := by
  obtain ⟨hp, he⟩ := Option.ite_none_right_eq_some.mp hstep
  cases he
  exact { h with
    waiting := fun ht => by
      rcases ht with ht | ht
      · exact h.waiting (Or.inl ht)
      · cases ht
    pointed := fun ht => absurd rfl ht
    released := fun ht => by cases ht
    settled := fun ht => h.settled (Or.inl (pointed_of_before Parser.noConfusion Parser.noConfusion ht))
    current := fun _ ht => by cases ht
    read := fun _ ht => by cases ht
    unread := fun _ ht => by cases ht
    counted := fun _ ht _ => by
      simp only [h.unread ht hp]
      exact ⟨rfl, rfl⟩
    number := fun hroom ht => h.number hroom (Or.inl (ht.resolve_right Parser.noConfusion)) }

theorem Inv.step (h : Inv c) (hC : InTime c a) (hstep : step c a = some c') : Inv c' := by
  cases a with
  | issue resp => cases hC
  | clear => exact h.clear hstep
  | take => exact h.take hC hstep
  | timeout => cases hC
  | check => exact h.check hstep
  | leave => exact h.leave hstep
  | line line => exact h.readLine hC hstep
  | copy => exact h.copy hstep
  | decide => exact h.decide hstep
  | count => exact h.count hstep
  | finish => exact h.finish hstep
  | release => exact h.release hstep
  | reset => exact h.reset hstep

theorem Inv.getLine (h : Inv c) (hroom : Room c) {i : ℕ} (hi : 1 ≤ i) (hle : i ≤ c.resp.lineCounts)
    (hcounts : c.resp.lineCounts = c.processed.length) :
    ∃ line p, c.processed[i - 1]? = some line ∧ atRespGetLine c.resp i = some p ∧
      IsString c.resp.buf p line.dropLast := by
  have htexts : ∀ s ∈ c.processed, ∃ text, '\x00' ∉ text ∧ s = text ++ ['\x00'] := by
    intro s hs
    obtain ⟨line, -, hnot, rfl⟩ := h.texts s hs
    exact ⟨line.dropLast, fun hmem => hnot (List.mem_of_mem_dropLast hmem), rfl⟩
  have hroom' : 0 + c.processed.flatten.length ≤ c.resp.bufSize := by
    rw [Nat.zero_add]
    exact Nat.le_of_lt hroom
  obtain ⟨p, text, hline, hloop, hstring⟩ :=
    lineLoop_eq (h.lines hroom) htexts hroom' (show i - 1 < c.processed.length by omega) 1
  rw [← hcounts, show 1 + (i - 1) = i by omega] at hloop
  refine ⟨_, p, hline, ?_, ?_⟩
  · rw [atRespGetLine, if_neg (by omega), hloop]
  · rwa [List.dropLast_concat]

/-- A command whose response comes in time is answered completely, or with an error, exactly if the lines of the
response fit into the buffer or the line that ends it is an error. -/
theorem response_complete_iff {c₀ c₁ : Client} (hidle : Idle c₀) {resp : AtResponse}
    (hissue : step c₀ (.issue resp) = some c₁) {acts : List Act} (htime : AllSteps step InTime c₁ acts)
    (hrun : exec step c₁ acts = some c) (hreturned : c.result.isSome = true) :
    Complete c ↔ Room c ∨ ∃ line, c.processed.getLast? = some line ∧ endsInError c.resp.lineNum line = true := by
  have h : Inv c :=
    exec_inv_of_allSteps Inv _ (fun _ _ _ h hC => h.step hC) (Inv.issue hidle hissue) htime hrun
  obtain ⟨r, hr⟩ := Option.isSome_iff_exists.mp hreturned
  have hover : c.pointed = false := by
    by_contra hp
    exact h.undecided (Or.inl (Bool.eq_true_of_not_eq_false hp)) r (Or.inr hr)
  obtain ⟨lines, line, hlines, hstatus⟩ := h.settled (Or.inl hover)
  have hverdict := h.verdict r (Or.inr hr)
  have hlast : c.processed.getLast? = some line := by rw [hlines, List.getLast?_concat]
  by_cases hroom : Room c
  · refine iff_of_true ⟨fun _ => ⟨h.lines hroom, fun i hi hle => ?_⟩, fun hfull => absurd hroom hfull⟩ (Or.inl hroom)
    rcases h.number hroom (Or.inl hover) with hcounts | hzero
    · exact h.getLine hroom hi hle hcounts
    · omega
  · rw [or_iff_right hroom]
    by_cases herror : endsInError c.resp.lineNum line = true
    · rw [hverdict, hstatus, if_pos herror] at hr
      refine iff_of_true ⟨fun heok => ?_, fun _ heok => ?_⟩ ⟨line, hlast, herror⟩ <;> rw [hr] at heok <;> cases heok
    · rw [if_neg herror] at hstatus
      rw [hstatus, if_pos rfl] at hverdict
      refine iff_of_false (fun hcomplete => hcomplete.2 hroom (hverdict ▸ hr)) ?_
      rintro ⟨line', hlast', herror'⟩
      rw [hlast] at hlast'
      exact herror (Option.some.inj hlast' ▸ herror')

/-- The line that does not fit is left out, and the one that ends the response fits. -/
def leftOut : List Act :=
  [.clear, .take, .line "+CSQ: 18,0\r\n".toList, .copy, .decide, .line okLine, .copy, .decide, .count, .finish,
    .release, .reset, .check, .leave]

/-- An error that does not fit ends the response, too. -/
def leftOutError : List Act :=
  [.clear, .take, .line "OK\r\n".toList, .copy, .decide, .line "+CME ERROR: 3\r\n".toList, .copy, .decide, .count,
    .finish, .release, .reset, .check, .leave]

def smallResponse (lineNum : ℕ) : AtResponse := ⟨fun _ => '\x00', 8, lineNum, 0, 10⟩

def issued (lineNum : ℕ) : Client :=
  { init emptyResponse with pointed := true, resp := smallResponse lineNum, caller := .clearing }

theorem response_complete_iff_error :
    ∃ c, exec step (issued 2) leftOutError = some c ∧ c.result = some .error ∧ Complete c :=
  ⟨_, rfl, rfl, (@response_complete_iff _ (init emptyResponse) (issued 2) ⟨rfl, Or.inr ⟨rfl, rfl, rfl⟩⟩
    (smallResponse 2) rfl leftOutError (by decide) rfl rfl).mpr (Or.inr ⟨_, rfl, by decide⟩)⟩

theorem leftOut_incomplete : Idle (init emptyResponse) ∧
    step (init emptyResponse) (.issue (smallResponse 0)) = some (issued 0) ∧
      AllSteps step InTime (issued 0) leftOut ∧
        ∃ c, exec step (issued 0) leftOut = some c ∧ c.result = some .eok ∧ ¬Complete c := by
  refine ⟨⟨rfl, Or.inr ⟨rfl, rfl, rfl⟩⟩, rfl, by decide, _, rfl, rfl, fun h => h.2 ?_ rfl⟩
  rw [Room]
  decide

end RtThread.Net.AtResponses
