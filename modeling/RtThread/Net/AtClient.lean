import RtThread.Lib.Ring
import RtThread.Lib.Transition
import RtThread.Lib.Word

/-!
# AT commands and their responses (`components/net/at/src/at_client.c`)

Commands are executed one at a time under the lock of the client; every call brings a response object
of its own, in whatever state it is. The parser thread stores the lines that arrive while `client->resp`
points to such an object. Every access of one of the two threads to what they share is a step of its own.
-/

namespace RtThread.Net.AtClient

open RtThread.Lib.Ring RtThread.Lib.Transition RtThread.Lib.Word

inductive AtRespStatus where
  | ok
  | error
  | timeout
  | buffFull
  deriving DecidableEq, Repr

/-- `struct at_response` (`at.h:123-137`). -/
structure AtResponse where
  buf : ℕ → Char
  bufSize : ℕ
  lineNum : ℕ
  lineCounts : ℕ
  timeout : ℤ

inductive RtErr where
  | eok
  | error
  | etimeout
  deriving DecidableEq, Repr

/-- Where the call of `at_obj_exec_cmd` stands, if there is one. -/
inductive Caller where
  | none
  /-- before `resp->line_counts = 0` -/
  | clearing
  /-- before `rt_sem_take` -/
  | taking
  /-- suspended on `resp_notice` -/
  | waiting
  /-- behind `rt_sem_take` -/
  | taken (ok : Bool)
  /-- before `client->resp = RT_NULL` -/
  | leaving (result : RtErr)
  deriving DecidableEq, Repr

/-- Where the parser thread stands in `client_parser`. -/
inductive Parser where
  | reading
  /-- behind the test of `client->resp`, with a line -/
  | tested (line : List Char)
  /-- before the check of the response result -/
  | copied (line : List Char)
  /-- before `client->resp->line_counts = line_counts` -/
  | counting
  /-- before `client->resp = RT_NULL` -/
  | finishing
  /-- before `rt_sem_release` -/
  | releasing
  /-- before `resp_buf_len = 0, line_counts = 0` -/
  | resetting
  deriving DecidableEq, Repr

/-- The parser deals with a line of a response that it has stored. -/
def Parser.handling : Parser → Bool
  | .copied _ | .counting | .finishing | .releasing => true
  | _ => false

/-- The client, its two threads, and what happened since the call was issued. `pointed` says that
`client->resp` is not `RT_NULL`; it then points to `resp`, the object of the call. `respBufLen` and
`lineCounts` are the counters of the parser. -/
structure Client where
  pointed : Bool
  resp : AtResponse
  respStatus : AtRespStatus
  respNotice : ℕ
  respBufLen : ℕ
  lineCounts : ℕ
  caller : Caller
  parser : Parser
  processed : List (List Char)
  ended : Bool
  result : Option RtErr

/-- No command has been executed. -/
def init (resp : AtResponse) : Client :=
  ⟨false, resp, .ok, 0, 0, 0, .none, .reading, [], false, none⟩

/-- The line as the parser stores it: its last character becomes a zero. -/
def stored (line : List Char) : List Char := line.dropLast ++ ['\x00']

/-- `strstr(recv_buffer, str)`. -/
def strstr (recvBuffer str : List Char) : Bool := decide (str <:+: recvBuffer.takeWhile fun ch => ch ≠ '\x00')

/-- `memcmp(recv_buffer, str, strlen(str)) == 0`. -/
def startsWith (recvBuffer str : List Char) : Bool := decide (str <+: recvBuffer)

/-- The part of `client_parser` that copies a line (`at_client.c:680-692`). -/
def copyLine (c : Client) (line : List Char) : Client :=
  if c.respBufLen + line.length < c.resp.bufSize then
    { c with
      resp := { c.resp with buf := copy c.resp.buf c.respBufLen (stored line) }
      respBufLen := c.respBufLen + line.length
      lineCounts := c.lineCounts + 1 }
  else { c with respStatus := .buffFull }

def isError (line : List Char) : Bool := strstr (stored line) "ERROR".toList || startsWith (stored line) "FAIL".toList

/-- The status that a terminating line sets (`at_client.c:694-717`). -/
def respEnd (c : Client) (line : List Char) : Option AtRespStatus :=
  if startsWith (stored line) "OK".toList = true ∧ c.resp.lineNum = 0 then some .ok
  else if isError line = true then some .error
  else if c.lineCounts = c.resp.lineNum ∧ c.resp.lineNum ≠ 0 then some .ok
  else none

inductive Act where
  /-- `rt_mutex_take`, `client->resp_status = AT_RESP_OK` and `client->resp = resp` -/
  | issue (resp : AtResponse)
  | clear
  | take
  | timeout
  /-- the tests of the results -/
  | check
  /-- `client->resp = RT_NULL` and `rt_mutex_release` -/
  | leave
  /-- a line has been read -/
  | line (line : List Char)
  | copy
  | decide
  | count
  | finish
  | release
  | reset

/-- A step of the client; nothing is known of what follows the use of `client->resp` when it is
`RT_NULL`. -/
def step (c : Client) (a : Act) : Option Client :=
  match a with
  | .issue resp =>
    if c.caller = .none then
      some { c with
        respStatus := .ok, pointed := true, resp := resp, caller := .clearing, processed := [], ended := false
        result := none }
    else none
  | .clear =>
    if c.caller = .clearing then some { c with resp := { c.resp with lineCounts := 0 }, caller := .taking } else none
  | .take =>
    if c.caller = .taking then
      some (if 0 < c.respNotice then { c with respNotice := dec 16 c.respNotice, caller := .taken true }
        else if c.resp.timeout = 0 then { c with caller := .taken false }
        else { c with caller := .waiting })
    else none
  | .timeout => if c.caller = .waiting ∧ 0 < c.resp.timeout then some { c with caller := .taken false } else none
  | .check =>
    match c.caller with
    | .taken false => some { c with respStatus := .timeout, caller := .leaving .etimeout }
    | .taken true => some { c with caller := .leaving (if c.respStatus = .ok then .eok else .error) }
    | _ => none
  | .leave =>
    match c.caller with
    | .leaving result => some { c with pointed := false, caller := .none, result := some result }
    | _ => none
  | .line line =>
    if c.parser = .reading ∧ line ≠ [] then some (if c.pointed = true then { c with parser := .tested line } else c)
    else none
  | .copy =>
    match c.parser with
    | .tested line =>
      if c.pointed = true then
        some { copyLine c line with parser := .copied line, processed := c.processed ++ [stored line] }
      else none
    | _ => none
  | .decide =>
    match c.parser with
    | .copied line =>
      -- an error is found without a look at the object
      if c.pointed = true ∨ startsWith (stored line) "OK".toList = false ∧ isError line = true then
        some (match respEnd c line with
          | some status => { c with respStatus := status, parser := .counting }
          | none => { c with parser := .reading })
      else none
    | _ => none
  | .count =>
    if c.parser = .counting ∧ c.pointed = true then
      some { c with resp := { c.resp with lineCounts := c.lineCounts }, parser := .finishing, ended := true }
    else none
  | .finish => if c.parser = .finishing then some { c with pointed := false, parser := .releasing } else none
  | .release =>
    if c.parser = .releasing then
      some (if c.caller = .waiting then { c with parser := .resetting, caller := .taken true }
        else { c with parser := .resetting, respNotice := inc 16 c.respNotice })
    else none
  | .reset =>
    if c.parser = .resetting then some { c with parser := .reading, respBufLen := 0, lineCounts := 0 } else none

/-- The buffer of the object holds the lines processed since the call was issued. -/
def HasLines (c : Client) : Prop :=
  slice c.resp.buf 0 c.processed.flatten.length = c.processed.flatten

/-- When the call has returned `RT_EOK`, a terminating line was processed since it was issued, and the
object has the lines processed since then, and their number. -/
def Matched (c : Client) : Prop :=
  c.result = some .eok → c.ended = true ∧ c.resp.lineCounts = c.processed.length ∧ HasLines c

def Fits (c : Client) : Act → Prop
  | .copy => ∀ line, c.parser = .tested line → c.respBufLen + line.length < c.resp.bufSize
  | _ => True

/-- A command is issued when no token of an earlier response is left or to come, the parser does not deal
with a line, and its counters are zero or about to be reset; and `line_counts` is cleared before the
response is complete. -/
def Kept (c : Client) : Act → Prop
  | .issue _ => c.respNotice = 0 ∧ c.parser.handling = false ∧
      (c.parser = .resetting ∨ c.respBufLen = 0 ∧ c.lineCounts = 0)
  | .clear => c.pointed = true ∧ c.parser ≠ .finishing
  | _ => True

instance Fits.decidable (c : Client) (a : Act) : Decidable (Fits c a) := by
  cases a with
  | copy =>
    cases hp : c.parser with
    | tested line =>
      exact decidable_of_iff (c.respBufLen + line.length < c.resp.bufSize)
        ⟨fun h line' he => Parser.tested.inj (hp.symm.trans he) ▸ h, fun h => h line hp⟩
    | _ => exact isTrue fun line he => Parser.noConfusion (hp.symm.trans he)
  | _ => exact isTrue trivial

instance Kept.decidable (c : Client) (a : Act) : Decidable (Kept c a) := by
  cases a with
  | issue => exact inferInstanceAs (Decidable (_ ∧ _ ∧ (_ ∨ _ ∧ _)))
  | clear => exact inferInstanceAs (Decidable (_ = true ∧ _ ≠ _))
  | _ => exact isTrue trivial

/-! ### A call and its response -/

/-- Every token is that of the response to the last command; while this response is not complete, the
counters and the object have its lines; and when it is, the object has its number too. -/
structure Inv (c : Client) : Prop where
  nonempty : ∀ line, c.parser = .tested line → line ≠ []
  notice : 0 < c.respNotice → c.ended = true
  handled : c.parser = .finishing ∨ c.parser = .releasing → c.ended = true
  taken : c.caller = .taken true → c.ended = true
  leaving : c.caller = .leaving .eok → c.ended = true
  returned : c.result = some .eok → c.ended = true
  fresh : c.pointed = true → c.parser ≠ .finishing → c.ended = false
  unread : c.pointed = true → c.parser = .resetting → c.processed = []
  counted : c.pointed = true → c.parser ≠ .resetting →
    c.respBufLen = c.processed.flatten.length ∧ c.lineCounts = c.processed.length ∧ HasLines c
  complete : c.ended = true → c.resp.lineCounts = c.processed.length ∧ HasLines c

variable {c c' : Client} {line : List Char} {a : Act}

theorem init_inv (resp : AtResponse) : Inv (init resp) where
  nonempty _ h := by cases h
  notice h := absurd h (lt_irrefl 0)
  handled h := by rcases h with h | h <;> cases h
  taken h := by cases h
  leaving h := by cases h
  returned h := by cases h
  fresh h := by cases h
  unread h := by cases h
  counted h := by cases h
  complete h := by cases h

theorem Inv.matched (h : Inv c) : Matched c := by
  intro hresult
  have hended := h.returned hresult
  exact ⟨hended, h.complete hended⟩

theorem Inv.not_ended (h : Inv c) (hpointed : c.pointed = true) (hp : c.parser ≠ .finishing) : ¬c.ended = true := by
  rw [h.fresh hpointed hp]
  exact Bool.false_ne_true

theorem length_stored (h : line ≠ []) : (stored line).length = line.length := by
  have hpos := List.length_pos_of_ne_nil h
  rw [stored, List.length_append, List.length_dropLast, List.length_singleton]
  omega

theorem copyLine_of_fits (h : c.respBufLen + line.length < c.resp.bufSize) : copyLine c line = { c with
    resp := { c.resp with buf := copy c.resp.buf c.respBufLen (stored line) }
    respBufLen := c.respBufLen + line.length
    lineCounts := c.lineCounts + 1 } := if_pos h

theorem hasLines_copy (line : List Char) (hlines : HasLines c) (hlen : c.respBufLen = c.processed.flatten.length) :
    slice (copy c.resp.buf c.respBufLen (stored line)) 0 (c.processed ++ [stored line]).flatten.length =
      (c.processed ++ [stored line]).flatten := by
  rw [List.flatten_append, List.flatten_singleton, List.length_append, hlen, slice_copy, hlines]

theorem Inv.copy (h : Inv c) (hfits : Fits c .copy) (hstep : step c .copy = some c') : Inv c' := by
  simp only [AtClient.step] at hstep
  split at hstep
  · rename_i line hp
    obtain ⟨hpointed, he⟩ := Option.ite_none_right_eq_some.mp hstep
    rw [copyLine_of_fits (hfits line hp)] at he
    cases he
    obtain ⟨hlen, hcount, hlines⟩ := h.counted hpointed (by rw [hp]; exact Parser.noConfusion)
    have hlen' : c.respBufLen + line.length = (c.processed ++ [stored line]).flatten.length := by
      rw [List.flatten_append, List.flatten_singleton, List.length_append, hlen, length_stored (h.nonempty line hp)]
    have hcount' : c.lineCounts + 1 = (c.processed ++ [stored line]).length := by
      rw [List.length_append, List.length_singleton, hcount]
    have hended := h.not_ended hpointed (by rw [hp]; exact Parser.noConfusion)
    exact { h with
      nonempty := fun _ ht => (by cases ht)
      handled := fun ht => (by rcases ht with ht | ht <;> cases ht)
      fresh := fun _ _ => Bool.eq_false_of_not_eq_true hended
      unread := fun _ ht => (by cases ht)
      counted := fun _ _ => ⟨hlen', hcount', hasLines_copy line hlines hlen⟩
      complete := fun he => absurd he hended }
  · cases hstep

theorem Inv.move (h : Inv c) {parser : Parser} (hhandling : c.parser.handling = true) (hp : c.parser ≠ .finishing)
    (hnext : parser = .reading ∨ parser = .counting) (status : AtRespStatus) :
    Inv { c with respStatus := status, parser := parser } := by
  have hresetting : c.parser ≠ .resetting := by
    intro he
    rw [he] at hhandling
    cases hhandling
  exact { h with
    nonempty := fun _ ht => (by rcases hnext with rfl | rfl <;> cases ht)
    handled := fun ht => (by rcases hnext with rfl | rfl <;> rcases ht with ht | ht <;> cases ht)
    fresh := fun hpointed _ => h.fresh hpointed hp
    unread := fun _ ht => (by rcases hnext with rfl | rfl <;> cases ht)
    counted := fun hpointed _ => h.counted hpointed hresetting }

theorem Inv.decide (h : Inv c) (hstep : step c .decide = some c') : Inv c' := by
  simp only [AtClient.step] at hstep
  split at hstep
  · rename_i line hp
    obtain ⟨-, he⟩ := Option.ite_none_right_eq_some.mp hstep
    have hhandling : c.parser.handling = true := by rw [hp]; rfl
    have hne : c.parser ≠ .finishing := by rw [hp]; exact Parser.noConfusion
    cases he
    split
    · exact h.move hhandling hne (Or.inr rfl) _
    · exact h.move hhandling hne (Or.inl rfl) c.respStatus
  · cases hstep

theorem Inv.count (h : Inv c) (hstep : step c .count = some c') : Inv c' := by
  obtain ⟨⟨hp, hpointed⟩, he⟩ := Option.ite_none_right_eq_some.mp hstep
  have hcounted := h.counted hpointed (by rw [hp]; exact Parser.noConfusion)
  cases he
  exact {
    nonempty := fun _ ht => (by cases ht)
    notice := fun _ => rfl
    handled := fun _ => rfl
    taken := fun _ => rfl
    leaving := fun _ => rfl
    returned := fun _ => rfl
    fresh := fun _ hne => absurd rfl hne
    unread := fun _ ht => (by cases ht)
    counted := fun _ _ => hcounted
    complete := fun _ => hcounted.2 }

theorem Inv.finish (h : Inv c) (hstep : step c .finish = some c') : Inv c' := by
  obtain ⟨hp, he⟩ := Option.ite_none_right_eq_some.mp hstep
  have hended := h.handled (Or.inl hp)
  cases he
  exact { h with
    nonempty := fun _ ht => (by cases ht)
    handled := fun _ => hended
    fresh := fun ht => (by cases ht)
    unread := fun ht => (by cases ht)
    counted := fun ht => (by cases ht) }

theorem Inv.issue (h : Inv c) {resp : AtResponse} (hkept : Kept c (.issue resp))
    (hstep : step c (.issue resp) = some c') : Inv c' := by
  obtain ⟨-, he⟩ := Option.ite_none_right_eq_some.mp hstep
  obtain ⟨hnotice, hhandling, hcounters⟩ := hkept
  cases he
  exact {
    nonempty := h.nonempty
    notice := fun ht => absurd hnotice (Nat.pos_iff_ne_zero.mp ht)
    handled := fun ht => by
      rcases ht with ht | ht <;> rw [show c.parser = _ from ht] at hhandling <;> cases hhandling
    taken := fun ht => (by cases ht)
    leaving := fun ht => (by cases ht)
    returned := fun ht => (by cases ht)
    fresh := fun _ _ => rfl
    unread := fun _ _ => rfl
    counted := fun _ hp => by
      obtain ⟨hlen, hcount⟩ := hcounters.resolve_left hp
      exact ⟨hlen, hcount, rfl⟩
    complete := fun ht => (by cases ht) }

theorem Inv.goto (h : Inv c) {caller : Caller} {notice : ℕ} (hnotice : 0 < notice → 0 < c.respNotice)
    (htaken : caller = .taken true ∨ caller = .leaving .eok → c.ended = true) :
    Inv { c with respNotice := notice, caller := caller } :=
  { h with
    notice := fun ht => h.notice (hnotice ht)
    taken := fun ht => htaken (Or.inl ht)
    leaving := fun ht => htaken (Or.inr ht) }

theorem Inv.clear (h : Inv c) (hkept : Kept c .clear) (hstep : step c .clear = some c') : Inv c' := by
  obtain ⟨-, he⟩ := Option.ite_none_right_eq_some.mp hstep
  cases he
  exact {
    h with
    taken := fun ht => (by cases ht)
    leaving := fun ht => (by cases ht)
    complete := fun he => absurd he (h.not_ended hkept.1 hkept.2) }

theorem Inv.take (h : Inv c) (hstep : step c .take = some c') : Inv c' := by
  obtain ⟨-, he⟩ := Option.ite_none_right_eq_some.mp hstep
  cases he
  split
  · rename_i hpos
    exact h.goto (fun _ => hpos) fun _ => h.notice hpos
  · split
    · exact h.goto (fun ht => ht) (by rintro (he | he) <;> cases he)
    · exact h.goto (fun ht => ht) (by rintro (he | he) <;> cases he)

theorem Inv.check (h : Inv c) (hstep : step c .check = some c') : Inv c' := by
  simp only [AtClient.step] at hstep
  split at hstep
  · cases hstep
    exact { h with
      taken := fun ht => (by cases ht)
      leaving := fun ht => (by cases ht) }
  · rename_i hcaller
    cases hstep
    exact h.goto (fun ht => ht) fun _ => h.taken hcaller
  · cases hstep

theorem Inv.leave (h : Inv c) (hstep : step c .leave = some c') : Inv c' := by
  simp only [AtClient.step] at hstep
  split at hstep
  · rename_i result hcaller
    cases hstep
    exact { h with
      taken := fun ht => (by cases ht)
      leaving := fun ht => (by cases ht)
      returned := fun ht => h.leaving (by rw [hcaller, Option.some.inj ht])
      fresh := fun he => (by cases he)
      unread := fun he => (by cases he)
      counted := fun he => (by cases he) }
  · cases hstep

theorem Inv.readLine (h : Inv c) (hstep : step c (.line line) = some c') : Inv c' := by
  obtain ⟨⟨hp, hline⟩, he⟩ := Option.ite_none_right_eq_some.mp hstep
  cases he
  split
  · exact { h with
      nonempty := fun line' ht => (by cases ht; exact hline)
      handled := fun ht => (by rcases ht with ht | ht <;> cases ht)
      fresh := fun hpointed _ => h.fresh hpointed (by rw [hp]; exact Parser.noConfusion)
      unread := fun _ ht => (by cases ht)
      counted := fun hpointed _ => h.counted hpointed (by rw [hp]; exact Parser.noConfusion) }
  · exact h

theorem Inv.release (h : Inv c) (hstep : step c .release = some c') : Inv c' := by
  obtain ⟨hp, he⟩ := Option.ite_none_right_eq_some.mp hstep
  have hended := h.handled (Or.inr hp)
  have hne : c.parser ≠ .finishing := by rw [hp]; exact Parser.noConfusion
  cases he
  split <;> exact { h with
      nonempty := fun _ ht => (by cases ht)
      notice := fun _ => hended
      handled := fun _ => hended
      taken := fun _ => hended
      leaving := fun _ => hended
      fresh := fun hpointed _ => h.fresh hpointed hne
      unread := fun hpointed _ => absurd hended (h.not_ended hpointed hne)
      counted := fun _ ht => absurd rfl ht }

theorem Inv.reset (h : Inv c) (hstep : step c .reset = some c') : Inv c' := by
  obtain ⟨hp, he⟩ := Option.ite_none_right_eq_some.mp hstep
  cases he
  exact { h with
    nonempty := fun _ ht => (by cases ht)
    handled := fun ht => (by rcases ht with ht | ht <;> cases ht)
    fresh := fun hpointed _ => h.fresh hpointed (by rw [hp]; exact Parser.noConfusion)
    unread := fun _ ht => (by cases ht)
    counted := fun hpointed _ => by
      have hnone := h.unread hpointed hp
      simp only [HasLines, hnone]
      exact ⟨rfl, rfl, rfl⟩ }

theorem Inv.step (h : Inv c) (hfits : Fits c a) (hkept : Kept c a) (hstep : step c a = some c') : Inv c' := by
  cases a with
  | issue resp => exact h.issue hkept hstep
  | clear => exact h.clear hkept hstep
  | take => exact h.take hstep
  | timeout =>
    obtain ⟨-, he⟩ := Option.ite_none_right_eq_some.mp hstep
    cases he
    exact h.goto (fun ht => ht) (by rintro (he | he) <;> cases he)
  | check => exact h.check hstep
  | leave => exact h.leave hstep
  | line line => exact h.readLine hstep
  | copy => exact h.copy hfits hstep
  | decide => exact h.decide hstep
  | count => exact h.count hstep
  | finish => exact h.finish hstep
  | release => exact h.release hstep
  | reset => exact h.reset hstep

/-- In every run in which all lines fit, and no command is issued while anything of an earlier response
is left, every call that returns `RT_EOK` has its own response. -/
theorem response_matched {resp : AtResponse} {as : List Act} (hfits : AllSteps step Fits (init resp) as)
    (hkept : AllSteps step Kept (init resp) as) (hrun : exec step (init resp) as = some c) : Matched c := by
  have hboth := hfits.and hkept
  exact (exec_inv_of_allSteps Inv _ (fun s a s' h hC => h.step hC.1 hC.2) (init_inv resp) hboth hrun).matched

def okLine : List Char := "OK\r\n".toList

/-- A command gets one line, which ends its response. -/
def oneLine (resp : AtResponse) : List Act :=
  [.issue resp, .clear, .take, .line okLine, .copy, .decide, .count, .finish, .release, .reset, .check, .leave]

/-- A line of the response to a first command arrives before its time is over, and the rest never does. -/
def lateLines (resp : AtResponse) : List Act :=
  [.issue resp, .clear, .take, .line "A\r\n".toList, .copy, .decide, .timeout, .check, .leave] ++ oneLine resp

def emptyResponse : AtResponse := ⟨fun _ => '\x00', 64, 0, 0, 10⟩

theorem response_matched_oneLine :
    ∃ c, exec step (init emptyResponse) (oneLine emptyResponse) = some c ∧ c.result = some .eok ∧ Matched c :=
  ⟨_, rfl, rfl, @response_matched _ emptyResponse (oneLine emptyResponse) (by decide) (by decide) rfl⟩

theorem late_line_counted : AllSteps step Fits (init emptyResponse) (lateLines emptyResponse) ∧
    ∃ c, exec step (init emptyResponse) (lateLines emptyResponse) = some c ∧ ¬Matched c := by
  refine ⟨by decide, _, rfl, fun h => ?_⟩
  obtain ⟨-, hcount, -⟩ := h rfl
  revert hcount
  decide

end RtThread.Net.AtClient
