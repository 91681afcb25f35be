import RtThread.Lib.Word

/-!
# Connecting to the cloud (`connect_aliyun_using_AT.c`)

The connect thread sends AT commands to the modem on `uart1` and waits for its replies. A line
from the modem is looked up in a ladder of tests on `step` and on texts the line contains. What
the thread does is a list of events; each line that it has taken is kept with what it caused.
-/

namespace RtThread.Nb101.Connect

open RtThread.Lib.Word

/-- The table `stepStrs` (`connect_aliyun_using_AT.c:35-46`). -/
def stepStrs : List (List Char) :=
  ["Let's connect to aliyun.\r\n".toList,
    "AT+CGATT?\r\n".toList,
    "AT+CSQ\r\n".toList,
    "AT+QMTCFG=\"aliauth\",0,\"a1n5qqGX7PA\",\"NB101\",\"5iSvkRRHlzzWc9HZMvlfGdKPG8g9AFBd\"\r\n".toList,
    "AT+QMTOPEN=0,\"iot-as-mqtt.cn-shanghai.aliyuncs.com\",1883\r\n".toList,
    "AT+QMTCONN=0,\"clientExample\"\r\n".toList,
    "AT+QMTSUB=0,1,\"/sys/a1n5qqGX7PA/NB101/thing/service/property/set\",0\r\n".toList,
    "AT+QMTSUB=0,1,\"/a1n5qqGX7PA/NB101/user/get\",0\r\n".toList,
    "AT+QMTPUB=0,0,0,0,\"/sys/a1n5qqGX7PA/NB101/thing/event/property/post\"\r\n".toList,
    "AT+QMTDISC=0\r\n".toList]

def stepStr (step : ℕ) : List Char := stepStrs.getD step []

/- The braces of the published texts are written as escapes. -/
def uploadOnandDoorOnDataStr : List Char :=
  "AT+QMTPUB=0,0,0,0,\"/a1n5qqGX7PA/NB101/user/update\"\r\n\x7b\"communicate\": true, \"status\": true, \"deviceName\": \"NB101\"\x7d".toList

def uploadOnandDoorOffDataStr : List Char :=
  "AT+QMTPUB=0,0,0,0,\"/a1n5qqGX7PA/NB101/user/update\"\r\n\x7b\"communicate\": true, \"status\": false, \"deviceName\": \"NB101\"\x7d".toList

def str3 : List Char := "my_nb101_connect_thread initialize succeed!\r\n".toList

def endStr : List Char := ['\x1a', '\r', '\n']

/-- `countChars` (`connect_aliyun_using_AT.c:171-179`); its counter is an `unsigned char`. -/
def countChars (s : List Char) : ℕ := s.length % 256

/-- What the thread does: the indicator functions, the console, and `rt_device_write` to one of
the two serial devices with its buffer and size. -/
inductive Event where
  | deviceConnecting
  | deviceConnected
  | deviceDisconnected
  | kprintf (text : List Char)
  | writeUart3 (buffer : List Char) (size : ℕ)
  | writeUart1 (buffer : List Char) (size : ℕ)
  deriving DecidableEq

/-- A command is echoed to the console and written to the modem (`connect_aliyun_using_AT.c:67-72`). -/
def sendCommand (step : ℕ) : List Event :=
  [.kprintf (stepStr step), .writeUart3 (stepStr step) (countChars (stepStr step) - 1),
    .writeUart1 (stepStr step) (countChars (stepStr step) - 1)]

/-- The step-6 success sends its command with one more message (`connect_aliyun_using_AT.c:116-125`). -/
def connectedEvents (step : ℕ) : List Event :=
  [.deviceConnected, .kprintf (stepStr step), .kprintf "Connecting successed!\r\n".toList,
    .writeUart3 (stepStr step) (countChars (stepStr step) - 1),
    .writeUart1 (stepStr step) (countChars (stepStr step) - 1)]

def failedEvents : List Event := [.deviceDisconnected, .kprintf "Connecting failed!\r\n".toList]

/-- The texts are written whole, without the final zero (`connect_aliyun_using_AT.c:146-158`). -/
def publish (relaySwitchIsOn : Bool) : List Event :=
  [if relaySwitchIsOn then .writeUart1 uploadOnandDoorOnDataStr uploadOnandDoorOnDataStr.length
    else .writeUart1 uploadOnandDoorOffDataStr uploadOnandDoorOffDataStr.length,
    .writeUart1 endStr 3]

/-- `strstr(line, text) != NULL`. -/
def contains (line text : List Char) : Prop := text <:+: line

instance (line text : List Char) : Decidable (contains line text) := inferInstanceAs (Decidable (_ <:+: _))

/-- What one line makes the thread do: the new `step`, the events, and whether the thread returns. -/
structure Reaction where
  step : ℕ
  events : List Event
  returns : Bool

/-- The ladder (`connect_aliyun_using_AT.c:84-162`). -/
def react (relaySwitchIsOn : Bool) (step : ℕ) (line : List Char) : Reaction :=
  if step ≤ 4 ∧ contains line "OK\r\n".toList then ⟨step + 1, sendCommand step, false⟩
  else if step = 5 then
    if contains line "QMTOPEN: 0,0\r\n".toList then ⟨step + 1, sendCommand step, false⟩
    else if contains line "QMTOPEN: 0,".toList then ⟨step, failedEvents, true⟩
    else ⟨step, [], false⟩
  else if step = 6 then
    if contains line "QMTCONN: 0,0,0\r\n".toList then ⟨step + 1, connectedEvents step, false⟩
    else if contains line "QMTCONN: 0,".toList then ⟨step, failedEvents, true⟩
    else ⟨step, [], false⟩
  else if step = 7 ∧ contains line "QMTSUB: 0,1,0,1\r\n".toList then ⟨step + 1, sendCommand step, false⟩
  else if step = 8 ∧ contains line "QMTSUB: 0,1,0,1\r\n".toList then ⟨step, publish relaySwitchIsOn, true⟩
  else ⟨step, [], false⟩

/-- What a pass of the loop finds: the text in the shared buffer, the shared offset, and the relay
switch. -/
structure Input where
  line : List Char
  charOffset : ℕ
  relaySwitchIsOn : Bool

/-- The line is echoed to the console first (`connect_aliyun_using_AT.c:79-82`). -/
def echo (i : Input) : List Event := [.kprintf i.line, .writeUart3 i.line (sub 32 i.charOffset 1)]

/-- A line that was taken, the `step` it was taken at, and the events it caused. -/
structure Entry where
  step : ℕ
  line : List Char
  events : List Event

/-- `connectThread` says whether `my_nb101_connect_thread` is not null. -/
structure Conn where
  step : ℕ
  connectThread : Bool
  returned : Bool
  opening : List Event
  log : List Entry

/-- `my_nb101_connect_thread_entry` up to its loop (`connect_aliyun_using_AT.c:48-73`). -/
def connectStart : Conn :=
  ⟨2, true, false, [.deviceConnecting, .writeUart3 str3 str3.length] ++ sendCommand 1, []⟩

/-- One pass of the loop (`connect_aliyun_using_AT.c:77-166`), unless the thread has returned. -/
def connectPass (c : Conn) (i : Input) : Conn :=
  if c.returned = true then c
  else
    let r := react i.relaySwitchIsOn c.step i.line
    { c with
      step := r.step
      connectThread := if r.returns = true then false else c.connectThread
      returned := r.returns
      log := c.log ++ [⟨c.step, i.line, echo i ++ r.events⟩] }

/-- The thread on a sequence of lines. -/
def connectRun (inputs : List Input) : Conn := inputs.foldl connectPass connectStart

/-! ### The ladder -/

/-- The reply that the command of a step, or the publish, is sent on. -/
def reply (step : ℕ) : List Char :=
  if step ≤ 4 then "OK\r\n".toList
  else if step = 5 then "QMTOPEN: 0,0\r\n".toList
  else if step = 6 then "QMTCONN: 0,0,0\r\n".toList
  else "QMTSUB: 0,1,0,1\r\n".toList

/-- The writes to the modem. -/
def uart1 (events : List Event) : List (List Char × ℕ) :=
  events.filterMap fun e =>
    match e with
    | .writeUart1 buffer size => some (buffer, size)
    | _ => none

/-- A command as it is written: its buffer, and all its characters but the last. -/
def command (text : List Char) : List Char × ℕ := (text, text.length - 1)

/-- Everything a line can cause. -/
inductive Caused (relaySwitchIsOn : Bool) (step : ℕ) (line : List Char) : Reaction → Prop
  | sent (events : List Event) (hstep : step ≤ 7) (hline : contains line (reply step))
      (hsent : uart1 events = [command (stepStr step)])
      (hconnected : events.count .deviceConnected = if step = 6 then 1 else 0) :
      Caused relaySwitchIsOn step line ⟨step + 1, events, false⟩
  | published (hstep : step = 8) (hline : contains line (reply step)) :
      Caused relaySwitchIsOn step line ⟨step, publish relaySwitchIsOn, true⟩
  | failed : Caused relaySwitchIsOn step line ⟨step, failedEvents, true⟩
  | ignored : Caused relaySwitchIsOn step line ⟨step, [], false⟩

theorem uart1_append (l l' : List Event) : uart1 (l ++ l') = uart1 l ++ uart1 l' :=
  List.filterMap_append

-- The kernel reads a literal as `String.ofList` at once; evaluating `String.toList` takes it far longer.
theorem toList_short {s : String} {l : List Char} (hs : s = String.ofList l) (hl : l.length < 256) :
    s.toList.length < 256 := by
  rwa [hs, String.length_toList, String.length_ofList]

theorem stepStrs_short : ∀ s ∈ stepStrs, s.length < 256 := by
  simp only [stepStrs, List.forall_mem_cons]
  exact ⟨toList_short rfl (by decide), toList_short rfl (by decide), toList_short rfl (by decide),
    toList_short rfl (by decide), toList_short rfl (by decide), toList_short rfl (by decide),
    toList_short rfl (by decide), toList_short rfl (by decide), toList_short rfl (by decide),
    toList_short rfl (by decide), fun _ h => absurd h List.not_mem_nil⟩

theorem countChars_stepStr {step : ℕ} (h : step ≤ 9) : countChars (stepStr step) = (stepStr step).length := by
  have hlt : step < stepStrs.length := Nat.lt_succ_of_le h
  have hmem : stepStr step ∈ stepStrs := by
    rw [stepStr, List.getD_eq_getElem _ _ hlt]
    exact List.getElem_mem hlt
  exact Nat.mod_eq_of_lt (stepStrs_short _ hmem)

theorem uart1_sendCommand {step : ℕ} (h : step ≤ 7) :
    uart1 (sendCommand step) = [command (stepStr step)] := by
  rw [command, ← countChars_stepStr (show step ≤ 9 by omega)]
  rfl

theorem react_caused (relaySwitchIsOn : Bool) {step : ℕ} (line : List Char) (h : step ≤ 8) :
    Caused relaySwitchIsOn step line (react relaySwitchIsOn step line) := by
  unfold react
  split
  · rename_i hok
    refine .sent _ (by omega) ?_ (uart1_sendCommand (by omega)) ?_
    · rw [reply, if_pos hok.1]
      exact hok.2
    · rw [if_neg (by omega)]
      rfl
  · split
    · rename_i hstep
      subst hstep
      split
      · rename_i hline
        exact .sent _ (by omega) hline (uart1_sendCommand (by omega)) rfl
      · split
        · exact .failed
        · exact .ignored
    · split
      · rename_i hstep
        subst hstep
        split
        · rename_i hline
          refine .sent _ (by omega) hline ?_ rfl
          rw [command, ← countChars_stepStr (by omega)]
          rfl
        · split
          · exact .failed
          · exact .ignored
      · split
        · rename_i hsub
          obtain ⟨rfl, hline⟩ := hsub
          exact .sent _ (by omega) hline (uart1_sendCommand (by omega)) rfl
        · split
          · rename_i hsub
            obtain ⟨rfl, hline⟩ := hsub
            exact .published rfl hline
          · exact .ignored

theorem publish_connected (on : Bool) : (publish on).count .deviceConnected = 0 := by
  cases on <;> rfl

theorem Caused.step_le {on : Bool} {step : ℕ} {line : List Char} {r : Reaction} (h : Caused on step line r)
    (hle : step ≤ 8) : step ≤ r.step ∧ r.step ≤ step + 1 ∧ r.step ≤ 8 := by
  cases h with
  | sent events hstep => exact ⟨Nat.le_succ _, le_rfl, Nat.succ_le_succ hstep⟩
  | published => exact ⟨le_rfl, Nat.le_succ _, hle⟩
  | failed => exact ⟨le_rfl, Nat.le_succ _, hle⟩
  | ignored => exact ⟨le_rfl, Nat.le_succ _, hle⟩

theorem Caused.replies {on : Bool} {step : ℕ} {line : List Char} {r : Reaction} (h : Caused on step line r)
    (hne : uart1 r.events ≠ []) :
    contains line (reply step) ∧ (step ≤ 7 → uart1 r.events = [command (stepStr step)]) := by
  cases h with
  | sent events _ hline hsent => exact ⟨hline, fun _ => hsent⟩
  | published hstep hline => exact ⟨hline, fun hle => by omega⟩
  | failed => exact absurd rfl hne
  | ignored => exact absurd rfl hne

theorem Caused.connected {on : Bool} {step : ℕ} {line : List Char} {r : Reaction} (h : Caused on step line r)
    (hpos : 0 < r.events.count .deviceConnected) : step = 6 ∧ contains line (reply 6) := by
  cases h with
  | sent events _ hline _ hconnected =>
    rw [hconnected] at hpos
    have h6 : step = 6 := by
      by_contra hne
      rw [if_neg hne] at hpos
      exact Nat.lt_irrefl 0 hpos
    exact ⟨h6, h6 ▸ hline⟩
  | published =>
    rw [publish_connected] at hpos
    exact absurd hpos (Nat.lt_irrefl 0)
  | failed => exact absurd hpos (Nat.lt_irrefl 0)
  | ignored => exact absurd hpos (Nat.lt_irrefl 0)

/-! ### The run -/

/-- All events so far, in order. -/
def Conn.events (c : Conn) : List Event := c.opening ++ c.log.flatMap fun e => e.events

/-- The commands `stepStrs[1], ..., stepStrs[n]` as they are written. -/
def commands (n : ℕ) : List (List Char × ℕ) := ((stepStrs.drop 1).take n).map command

theorem commands_succ {step : ℕ} (hpos : 2 ≤ step) (hle : step ≤ 7) :
    commands (step + 1 - 1) = commands (step - 1) ++ [command (stepStr step)] := by
  obtain ⟨m, rfl⟩ : ∃ m, step = m + 1 := ⟨step - 1, by omega⟩
  have hlength : stepStrs.length = 10 := rfl
  have hlt : m + 1 < stepStrs.length := by omega
  have hget : (stepStrs.drop 1)[m]? = some (stepStr (m + 1)) := by
    rw [List.getElem?_drop, Nat.add_comm 1 m, List.getElem?_eq_getElem hlt, stepStr, List.getD_eq_getElem _ _ hlt]
  simp only [Nat.add_sub_cancel, commands]
  rw [List.take_add_one, hget, Option.toList_some, List.map_append, List.map_singleton]

/-- What every pass keeps. -/
structure Inv (c : Conn) : Prop where
  range : 2 ≤ c.step ∧ c.step ≤ 8
  sent : ∃ p, uart1 c.events = commands (c.step - 1) ++ p ∧
    (p = [] ∨ c.returned = true ∧ ∃ on, p = uart1 (publish on))
  replies : ∀ e ∈ c.log, uart1 e.events ≠ [] → contains e.line (reply e.step) ∧
    (e.step ≤ 7 → uart1 e.events = [command (stepStr e.step)])
  once : c.events.count .deviceConnected = if 7 ≤ c.step then 1 else 0
  connected : ∀ e ∈ c.log, .deviceConnected ∈ e.events → e.step = 6 ∧ contains e.line (reply 6)
  returned : c.returned = true → c.connectThread = false ∧
    (.deviceDisconnected ∈ c.events ∨ ∃ on, publish on <:+: c.events)

theorem connectStart_inv : Inv connectStart := by
  refine ⟨by decide, ⟨[], by decide, Or.inl rfl⟩, ?_, by decide, ?_, ?_⟩ <;> simp [connectStart]

theorem uart1_echo (i : Input) (l : List Event) : uart1 (echo i ++ l) = uart1 l := rfl

theorem count_echo (i : Input) (l : List Event) :
    (echo i ++ l).count .deviceConnected = l.count .deviceConnected := by
  rw [List.count_append, show (echo i).count .deviceConnected = 0 from rfl, Nat.zero_add]

theorem connectPass_inv {c : Conn} (h : Inv c) (i : Input) : Inv (connectPass c i) := by
  unfold connectPass
  by_cases hret : c.returned = true
  · rw [if_pos hret]
    exact h
  · rw [if_neg hret]
    obtain ⟨hlo, hhi⟩ := h.range
    obtain ⟨p, hsent, hp⟩ := h.sent
    have hp' : p = [] := hp.resolve_right fun hr => hret hr.1
    rw [hp', List.append_nil] at hsent
    have hcaused := react_caused i.relaySwitchIsOn i.line hhi
    have hevents : ∀ step thread returned (new : List Event),
        Conn.events ⟨step, thread, returned, c.opening, c.log ++ [⟨c.step, i.line, new⟩]⟩ = c.events ++ new := by
      intro step thread returned new
      simp [Conn.events]
    generalize react i.relaySwitchIsOn c.step i.line = r at hcaused
    have hstep := hcaused.step_le hhi
    refine ⟨by simp only; omega, ?_, fun e he hne => ?_, ?_, fun e he hc => ?_, fun hr => ?_⟩
    · rw [hevents, uart1_append, uart1_echo, hsent]
      cases hcaused with
      | sent events hle _ hcommand => exact ⟨[], by rw [hcommand, commands_succ hlo hle, List.append_nil], Or.inl rfl⟩
      | published => exact ⟨_, rfl, Or.inr ⟨rfl, _, rfl⟩⟩
      | failed => exact ⟨[], rfl, Or.inl rfl⟩
      | ignored => exact ⟨[], rfl, Or.inl rfl⟩
    · rcases List.mem_append.mp he with he | he
      · exact h.replies e he hne
      · rw [List.mem_singleton.mp he] at hne ⊢
        exact hcaused.replies hne
    · rw [hevents, List.count_append, count_echo, h.once]
      cases hcaused with
      | sent events hle _ _ hconnected =>
        rw [hconnected]
        simp only
        split <;> split <;> split <;> omega
      | published => rw [publish_connected, Nat.add_zero]
      | failed => rfl
      | ignored => rfl
    · rcases List.mem_append.mp he with he | he
      · exact h.connected e he hc
      · rw [List.mem_singleton.mp he] at hc ⊢
        have hpos := List.count_pos_iff.mpr hc
        rw [count_echo] at hpos
        exact hcaused.connected hpos
    · rw [hevents]
      cases hcaused with
      | sent => exact Bool.noConfusion hr
      | published =>
        refine ⟨rfl, Or.inr ⟨i.relaySwitchIsOn, ?_⟩⟩
        rw [← List.append_assoc]
        exact (List.suffix_append _ _).isInfix
      | failed => exact ⟨rfl, Or.inl (by simp [failedEvents])⟩
      | ignored => exact Bool.noConfusion hr

theorem connectRun_inv (inputs : List Input) : Inv (connectRun inputs) := by
  induction inputs using List.reverseRecOn with
  | nil => exact connectStart_inv
  | append_singleton inputs i ih =>
    rw [connectRun, List.foldl_append]
    exact connectPass_inv ih i

/-- For every sequence of lines: `step` is between 2 and 8 and a line increases it by at most one;
the modem is sent `stepStrs[1], ..., stepStrs[step - 1]` in this order (of each all characters but the
final line feed) and then at most one publish; what is sent on a line is sent because the line
contains the reply expected at its step; `deviceConnected` is called at most once, and on the
success line of step 6; and a thread that has returned has cleared `my_nb101_connect_thread` and has
published or called `deviceDisconnected`. -/
theorem connect_sequence (inputs : List Input) :
    (2 ≤ (connectRun inputs).step ∧ (connectRun inputs).step ≤ 8) ∧
    (∀ i, (connectPass (connectRun inputs) i).step = (connectRun inputs).step ∨
      (connectPass (connectRun inputs) i).step = (connectRun inputs).step + 1) ∧
    (∃ p, uart1 (connectRun inputs).events =
        ((stepStrs.drop 1).take ((connectRun inputs).step - 1)).map command ++ p ∧
      (p = [] ∨ ∃ on, p = uart1 (publish on))) ∧
    (∀ e ∈ (connectRun inputs).log, uart1 e.events ≠ [] → reply e.step <:+: e.line ∧
      (e.step ≤ 7 → uart1 e.events = [command (stepStr e.step)])) ∧
    (connectRun inputs).events.count .deviceConnected ≤ 1 ∧
    (∀ e ∈ (connectRun inputs).log, .deviceConnected ∈ e.events →
      e.step = 6 ∧ "QMTCONN: 0,0,0\r\n".toList <:+: e.line) ∧
    ((connectRun inputs).returned = true → (connectRun inputs).connectThread = false ∧
      (.deviceDisconnected ∈ (connectRun inputs).events ∨ ∃ on, publish on <:+: (connectRun inputs).events)) := by
  have h := connectRun_inv inputs
  refine ⟨h.range, fun i => ?_, ?_, h.replies, ?_, h.connected, h.returned⟩
  · unfold connectPass
    split
    · exact Or.inl rfl
    · have hstep := (react_caused i.relaySwitchIsOn i.line h.range.2).step_le h.range.2
      simp only
      omega
  · obtain ⟨p, hsent, hp⟩ := h.sent
    exact ⟨p, hsent, hp.imp_right fun hr => hr.2⟩
  · rw [h.once]
    split
    · exact le_rfl
    · exact Nat.zero_le 1

end RtThread.Nb101.Connect
