import RtThread.Lib.Transition
import RtThread.Nb101.Connect

/-!
# The lines from the modem (`NB101_uart1.c`)

The receive thread collects the bytes of `uart1` until they contain the end of a line. While there
is a connect thread, it copies the line to a buffer that both threads share, and releases the
semaphore the connect thread waits on; otherwise it handles the line itself. The two threads run
in any order: an action is one access of one of them to what they share.
-/

namespace RtThread.Nb101.Uart

open RtThread.Lib.Transition RtThread.Lib.Word RtThread.Nb101.Connect

def crlf : List Char := ['\r', '\n']

/-- The string in a character array: what stands before the first zero. -/
def text (array : List Char) : List Char := array.takeWhile fun ch => ch ≠ '\x00'

/-! ### Lines outside the connection sequence -/

def onPropertyStr : List Char :=
  "AT+QMTPUB=0,0,0,0,\"/sys/a1n5qqGX7PA/NB101/thing/event/property/post\"\r\n\x7b\"params\" : \x7b\"ContactState\": 1, \"Error\": 0\x7d\x7d".toList

def offPropertyStr : List Char :=
  "AT+QMTPUB=0,0,0,0,\"/sys/a1n5qqGX7PA/NB101/thing/event/property/post\"\r\n\x7b\"params\" : \x7b\"ContactState\": 0, \"Error\": 0\x7d\x7d".toList

/-- `self_post_to_aliyun` (`post_to_aliyun.c:50-66`); both texts are sent with the size of the first. -/
def selfPostToAliyun (doorStatus : Char) : List Event :=
  if doorStatus = '0' then [.writeUart1 offPropertyStr onPropertyStr.length, .writeUart1 endStr 3]
  else if doorStatus = '1' then [.writeUart1 onPropertyStr onPropertyStr.length, .writeUart1 endStr 3]
  else []

/-- What the receive thread does with a line of its own (`NB101_uart1.c:67-113`), with the state of
the relay switch afterwards. -/
def handleLine (relaySwitchIsOn : Bool) (received : List Char) (charOffset : ℕ) : List Event × Bool :=
  let doorStatus := received.getD (charOffset - 6) '\x00'
  let printed := (received.take charOffset).map fun ch => Event.kprintf [ch]
  if contains (text received) "\"deviceType\":\"DoorContact\"".toList then
    (selfPostToAliyun doorStatus ++ printed,
      if doorStatus = '0' then false else if doorStatus = '1' then true else relaySwitchIsOn)
  else if contains (text received) "NB101/user/get\",\x7b\"devicename\":\"iOS_manager1\",\"status\":1".toList then
    (publish relaySwitchIsOn ++ printed, relaySwitchIsOn)
  else (printed, relaySwitchIsOn)

/-! ### The two threads -/

/-- Where the receive thread stands (`NB101_uart1.c:41-118`): it waits for a byte, tests
`my_nb101_connect_thread`, is in `strcpy` with `i` characters copied, sets the shared offset,
releases the semaphore, or empties its own buffer. -/
inductive Receiver where
  | reading
  | checking
  | copying (i : ℕ)
  | offset
  | releasing
  | resetting
  deriving DecidableEq

/-- Where the connect thread stands: there is none, it has not reached its loop, it waits for the
semaphore, it has taken it, or it clears the shared buffer or the shared offset. -/
inductive Connector where
  | absent
  | starting
  | waiting
  | taken
  | clearing
  | clearingOffset
  deriving DecidableEq

/-- The variables of the two threads. `overflow` says that the receive thread has written behind
its buffer. The last fields only record what happened: `past` what earlier connect threads did,
`wire` the bytes since the last line end, `line` the last line, `counted` whether the connection
was up at its end, and `arrived` the lines received while it was up. -/
structure Sys where
  received : List Char
  charOffset : ℕ
  globalReceived : List Char
  globalCharOffset : ℕ
  rxSemConnect : ℕ
  connectThread : Bool
  relaySwitchIsOn : Bool
  overflow : Bool
  receiver : Receiver
  connector : Connector
  conn : Conn
  own : List Event
  past : List Entry
  wire : List Char
  line : List Char
  counted : Bool
  arrived : List (List Char)

/-- The receive thread has been started and waits for its first byte. -/
def init : Sys where
  received := List.replicate 100 '\x00'
  charOffset := 0
  globalReceived := List.replicate 100 '\x00'
  globalCharOffset := 0
  rxSemConnect := 0
  connectThread := false
  relaySwitchIsOn := false
  overflow := false
  receiver := .reading
  connector := .absent
  conn := ⟨0, false, true, [], []⟩
  own := []
  past := []
  wire := []
  line := []
  counted := false
  arrived := []

/-- A byte on the wire, seen from outside: it may end a line. -/
def arrive (s : Sys) (ch : Char) : Sys :=
  if crlf <:+ s.wire ++ [ch] then
    { s with
      wire := []
      line := s.wire ++ [ch]
      counted := s.connectThread
      arrived := if s.connectThread = true then s.arrived ++ [s.wire ++ [ch]] else s.arrived }
  else { s with wire := s.wire ++ [ch] }

/-- The byte is stored with a zero behind it, and the end of a line is looked for
(`NB101_uart1.c:55-62`). -/
def store (s : Sys) (ch : Char) : Sys :=
  if 100 ≤ s.charOffset + 1 then { s with overflow := true }
  else
    let received := (s.received.set s.charOffset ch).set (s.charOffset + 1) '\x00'
    { s with
      received := received
      charOffset := s.charOffset + 1
      receiver := if contains (text received) crlf then .checking else .reading }

/-- The receive thread once a line is complete (`NB101_uart1.c:63-118`). A line that ended before
the connection came up still counts when the receive thread finds a connect thread. -/
def receiverStep (s : Sys) : Option Sys :=
  match s.receiver with
  | .reading => none
  | .checking =>
    some (if s.connectThread = true then
      { s with
        receiver := .copying 0
        counted := true
        arrived := if s.counted = true then s.arrived else s.arrived ++ [s.line] }
    else
      { s with
        receiver := .resetting
        own := s.own ++ (handleLine s.relaySwitchIsOn s.received s.charOffset).1
        relaySwitchIsOn := (handleLine s.relaySwitchIsOn s.received s.charOffset).2 })
  | .copying i =>
    some { s with
      globalReceived := s.globalReceived.set i (s.received.getD i '\x00')
      receiver := if s.received.getD i '\x00' = '\x00' then .offset else .copying (i + 1) }
  | .offset => some { s with globalCharOffset := s.charOffset, receiver := .releasing }
  | .releasing => some { s with rxSemConnect := inc 16 s.rxSemConnect, receiver := .resetting }
  | .resetting => some { s with received := s.received.set 0 '\x00', charOffset := 0, receiver := .reading }

/-- The connect thread (`connect_aliyun_using_AT.c:48-168`). A thread that returns leaves the
shared buffer as it is. -/
def connectorStep (s : Sys) : Option Sys :=
  match s.connector with
  | .absent => none
  | .starting =>
    some { s with connector := .waiting, past := s.past ++ s.conn.log, conn := connectStart }
  | .waiting =>
    if s.rxSemConnect = 0 then none
    else some { s with rxSemConnect := s.rxSemConnect - 1, connector := .taken }
  | .taken =>
    let c := connectPass s.conn ⟨text s.globalReceived, s.globalCharOffset, s.relaySwitchIsOn⟩
    some { s with
      conn := c
      connectThread := if c.returned = true then false else s.connectThread
      connector := if c.returned = true then .absent else .clearing }
  | .clearing =>
    some { s with globalReceived := s.globalReceived.set 0 '\x00', connector := .clearingOffset }
  | .clearingOffset => some { s with globalCharOffset := 0, connector := .waiting }

/-- `connect_aliyun` (`connect_aliyun_using_AT.c:182-199`) does nothing while there is a connect thread. -/
def connectAliyun (s : Sys) : Option Sys :=
  if s.connectThread = true then none
  else some { s with connectThread := true, connector := .starting }

inductive Act where
  | byte (ch : Char)
  | receiver
  | connector
  | connectAliyun

/-- After a write behind its buffer nothing is known about the receive thread. -/
def step (s : Sys) (a : Act) : Option Sys :=
  if s.overflow = true then none
  else
    match a with
    | .byte ch => if s.receiver = .reading then some (store (arrive s ch) ch) else none
    | .receiver => receiverStep s
    | .connector => connectorStep s
    | .connectAliyun => connectAliyun s

/-- The lines that the connect threads have looked at, in order. -/
def processed (s : Sys) : List (List Char) := (s.past ++ s.conn.log).map fun e => e.line

/-- Neither thread has anything to do before the next byte arrives. -/
def Idle (s : Sys) : Prop :=
  s.receiver = .reading ∧ s.rxSemConnect = 0 ∧ s.connector ≠ .taken

instance (s : Sys) : Decidable (Idle s) := inferInstanceAs (Decidable (_ ∧ _ ∧ _))

/-- What keeps the lines apart: no byte is zero or comes when the buffer is full; the connect
thread has not returned since the line ended that the receive thread is about to hand over; and
when it starts to copy, the connect thread is done with the line before. -/
def Safe (s : Sys) (a : Act) : Prop :=
  match a with
  | .byte ch => ch ≠ '\x00' ∧ s.charOffset + 1 < 100
  | .receiver =>
    (s.receiver = .checking → s.counted = true → s.connectThread = true) ∧
    (s.receiver = .copying 0 → s.rxSemConnect = 0 ∧ (s.connector = .starting ∨ s.connector = .waiting))
  | .connector => True
  | .connectAliyun => True

instance (s : Sys) : (a : Act) → Decidable (Safe s a)
  | .byte _ => inferInstanceAs (Decidable (_ ∧ _))
  | .receiver => inferInstanceAs (Decidable ((_ → _ → _) ∧ (_ → _)))
  | .connector => inferInstanceAs (Decidable True)
  | .connectAliyun => inferInstanceAs (Decidable True)

/-! ### The buffers -/

def Holds (array w : List Char) : Prop := ∃ rest, array = w ++ '\x00' :: rest

theorem text_append_of_mem {line : List Char} (h : '\x00' ∈ line) (rest : List Char) :
    text (line ++ rest) = text line := by
  induction line with
  | nil => cases h
  | cons x line ih =>
    rcases eq_or_ne x '\x00' with rfl | hx
    · rfl
    · have hmem := (List.mem_cons.mp h).resolve_left (Ne.symm hx)
      have hcons : ∀ l, text (x :: l) = x :: text l := fun l => List.takeWhile_cons_of_pos (decide_eq_true hx)
      rw [List.cons_append, hcons, hcons, ih hmem]

theorem text_append_of_notMem {line : List Char} (h : '\x00' ∉ line) (rest : List Char) :
    text (line ++ rest) = line ++ text rest := by
  refine List.takeWhile_append_of_pos fun ch hch => decide_eq_true ?_
  rintro rfl
  exact h hch

theorem text_of_notMem {line : List Char} (h : '\x00' ∉ line) : text line = line := by
  have happend := text_append_of_notMem h []
  rwa [List.append_nil, show text [] = [] from rfl, List.append_nil] at happend

theorem Holds.text_text {array w : List Char} (h : Holds array w) : text array = text w := by
  obtain ⟨rest, he⟩ := h
  have hzero : '\x00' ∈ w ++ ['\x00'] := List.mem_append_right _ (List.mem_singleton_self _)
  rw [he, List.append_cons, text_append_of_mem hzero]
  by_cases hw : '\x00' ∈ w
  · exact text_append_of_mem hw _
  · rw [text_append_of_notMem hw, text_of_notMem hw, show text ['\x00'] = [] from rfl, List.append_nil]

theorem Holds.text_eq {array w : List Char} (h : Holds array w) (hzero : '\x00' ∉ w) : text array = w := by
  rw [h.text_text, text_of_notMem hzero]

theorem Holds.length_lt {array w : List Char} (h : Holds array w) : w.length < array.length := by
  obtain ⟨rest, rfl⟩ := h
  simp

theorem Holds.store {array w : List Char} (h : Holds array w) (ch : Char) (hroom : w.length + 1 < array.length) :
    Holds ((array.set w.length ch).set (w.length + 1) '\x00') (w ++ [ch]) := by
  obtain ⟨rest, rfl⟩ := h
  cases rest with
  | nil => simp at hroom
  | cons x rest => exact ⟨rest, by simp⟩

theorem holds_nil {array : List Char} (h : array ≠ []) : Holds (array.set 0 '\x00') [] := by
  cases array with
  | nil => exact absurd rfl h
  | cons x rest => exact ⟨rest, rfl⟩

theorem Holds.getD {array w : List Char} (h : Holds array w) {i : ℕ} (hi : i < w.length) :
    array.getD i '\x00' = w[i] := by
  obtain ⟨rest, rfl⟩ := h
  rw [List.getD_append _ _ _ _ hi, List.getD_eq_getElem _ _ hi]

theorem Holds.getD_length {array w : List Char} (h : Holds array w) : array.getD w.length '\x00' = '\x00' := by
  obtain ⟨rest, rfl⟩ := h
  simp

theorem take_prefix_set {w shared : List Char} {i : ℕ} (hi : i < w.length) (hlen : i < shared.length)
    (h : w.take i <+: shared) : w.take (i + 1) <+: shared.set i w[i] := by
  obtain ⟨g, rfl⟩ := h
  have htake : (w.take i).length = i := List.length_take_of_le hi.le
  cases g with
  | nil =>
    rw [List.append_nil, htake] at hlen
    exact absurd hlen (lt_irrefl i)
  | cons x g =>
    refine ⟨g, ?_⟩
    rw [List.set_append_right _ _ htake.le, htake, Nat.sub_self, List.set_cons_zero, List.take_succ_eq_append_getElem hi,
      List.append_assoc]
    rfl

theorem holds_of_prefix_set {w shared : List Char} (hlen : w.length < shared.length)
    (h : w <+: shared) : Holds (shared.set w.length '\x00') w := by
  obtain ⟨g, rfl⟩ := h
  cases g with
  | nil =>
    rw [List.append_nil] at hlen
    exact absurd hlen (lt_irrefl _)
  | cons x g => exact ⟨g, by simp⟩

theorem crlf_infix_concat {w : List Char} (h : ¬ crlf <:+: w) (ch : Char) :
    crlf <:+: w ++ [ch] ↔ crlf <:+ w ++ [ch] := by
  rw [List.infix_concat_iff]
  exact or_iff_left h

theorem not_crlf_infix_nil : ¬ crlf <:+: [] := by decide

/-! ### What the safe steps keep -/

/-- What the buffer of the receive thread holds: the bytes since the last line end, or the line
that is dealt with. -/
def current (s : Sys) : List Char := if s.receiver = .reading then s.wire else s.line

/-- No line waits in the shared buffer, and the connect thread has nothing to do with it. -/
def Quiet (s : Sys) : Prop := s.rxSemConnect = 0 ∧ (s.connector = .starting ∨ s.connector = .waiting)

/-- How far the copy of the line has come. -/
def Copied (s : Sys) : Prop :=
  match s.receiver with
  | .copying i => i ≤ s.line.length ∧ s.line.take i <+: s.globalReceived ∧ (0 < i → Quiet s)
  | .offset => Holds s.globalReceived s.line ∧ Quiet s
  | .releasing => Holds s.globalReceived s.line ∧ Quiet s
  | _ => True

/-- The line that the connect thread has been given and has not looked at. -/
def buffered (s : Sys) : List (List Char) :=
  if s.rxSemConnect = 1 ∨ s.connector = .taken then [text s.globalReceived] else []

/-- The line that the receive thread is handing over. -/
def underway (s : Sys) : List (List Char) :=
  match s.receiver with
  | .checking => if s.counted = true then [s.line] else []
  | .copying _ => [s.line]
  | .offset => [s.line]
  | .releasing => [s.line]
  | _ => []

structure Inv (s : Sys) : Prop where
  overflow : s.overflow = false
  received : s.received.length = 100
  shared : s.globalReceived.length = 100
  wire : '\x00' ∉ s.wire ∧ ¬ crlf <:+: s.wire
  held : Holds s.received (current s) ∧ s.charOffset = (current s).length ∧ '\x00' ∉ current s
  line : s.receiver ≠ .reading → s.wire = [] ∧ crlf <:+ s.line
  copied : Copied s
  sem : s.rxSemConnect = 0 ∨ s.rxSemConnect = 1 ∧ (s.connector = .starting ∨ s.connector = .waiting)
  thread : s.connectThread = true ↔ s.connector ≠ .absent
  returned : s.connector ≠ .absent → s.connector ≠ .starting → s.conn.returned = false
  arrived : s.arrived = processed s ++ buffered s ++ underway s
  ended : ∀ l ∈ s.arrived, crlf <:+ l

theorem init_inv : Inv init where
  overflow := rfl
  received := by decide
  shared := by decide
  wire := by decide
  held := ⟨⟨List.replicate 99 '\x00', rfl⟩, rfl, by decide⟩
  line := fun h => absurd rfl h
  copied := trivial
  sem := Or.inl rfl
  thread := by decide
  returned := fun h => absurd rfl h
  arrived := rfl
  ended := by decide

theorem Inv.reading {s : Sys} (h : Inv s) (hr : s.receiver = .reading) :
    Holds s.received s.wire ∧ s.charOffset = s.wire.length ∧ s.arrived = processed s ++ buffered s := by
  have hheld := h.held
  rw [current, if_pos hr] at hheld
  refine ⟨hheld.1, hheld.2.1, ?_⟩
  rw [h.arrived, underway, hr, List.append_nil]

theorem Inv.handing {s : Sys} (h : Inv s) (hr : s.receiver ≠ .reading) :
    Holds s.received s.line ∧ s.charOffset = s.line.length ∧ '\x00' ∉ s.line := by
  have hheld := h.held
  rwa [current, if_neg hr] at hheld

theorem Inv.byte {s : Sys} (h : Inv s) {ch : Char} (hr : s.receiver = .reading) (hch : ch ≠ '\x00')
    (hroom : s.charOffset + 1 < 100) : Inv (store (arrive s ch) ch) := by
  obtain ⟨hheld, hoffset, harrived⟩ := h.reading hr
  have hzero : '\x00' ∉ s.wire ++ [ch] := by
    simp only [List.mem_append, List.mem_singleton, not_or]
    exact ⟨h.wire.1, fun he => hch he.symm⟩
  have hnew : Holds ((s.received.set s.charOffset ch).set (s.charOffset + 1) '\x00') (s.wire ++ [ch]) := by
    rw [hoffset]
    exact hheld.store ch (by rw [h.received]; omega)
  have hlen : ((s.received.set s.charOffset ch).set (s.charOffset + 1) '\x00').length = 100 := by
    rw [List.length_set, List.length_set, h.received]
  have hcontains := crlf_infix_concat h.wire.2 ch
  have hsize : s.charOffset + 1 = (s.wire ++ [ch]).length := by rw [hoffset, List.length_append, List.length_singleton]
  by_cases hend : crlf <:+ s.wire ++ [ch]
  · have heq : store (arrive s ch) ch = { s with
        received := (s.received.set s.charOffset ch).set (s.charOffset + 1) '\x00'
        charOffset := s.charOffset + 1
        receiver := .checking
        wire := []
        line := s.wire ++ [ch]
        counted := s.connectThread
        arrived := if s.connectThread = true then s.arrived ++ [s.wire ++ [ch]] else s.arrived } := by
      rw [arrive, if_pos hend, store, if_neg (not_le.mpr hroom)]
      simp only [contains, hnew.text_eq hzero, hcontains.mpr hend, if_true]
    rw [heq]
    refine ⟨h.overflow, hlen, h.shared, ⟨List.not_mem_nil, not_crlf_infix_nil⟩, ⟨hnew, hsize, hzero⟩, fun _ => ⟨rfl, hend⟩,
      trivial, h.sem, h.thread, h.returned, ?_, ?_⟩
    · simp only [underway, harrived]
      split
      · rfl
      · exact (List.append_nil _).symm
    · simp only
      split
      · intro l hl
        rcases List.mem_append.mp hl with hl | hl
        · exact h.ended l hl
        · exact List.mem_singleton.mp hl ▸ hend
      · exact h.ended
  · have heq : store (arrive s ch) ch = { s with
        received := (s.received.set s.charOffset ch).set (s.charOffset + 1) '\x00'
        charOffset := s.charOffset + 1
        receiver := .reading
        wire := s.wire ++ [ch] } := by
      rw [arrive, if_neg hend, store, if_neg (not_le.mpr hroom)]
      simp only [contains, hnew.text_eq hzero, hcontains, hend, if_false]
    rw [heq]
    refine ⟨h.overflow, hlen, h.shared, ⟨hzero, fun hc => hend (hcontains.mp hc)⟩, ⟨hnew, hsize, hzero⟩,
      fun hne => absurd rfl hne, trivial, h.sem, h.thread, h.returned, ?_, h.ended⟩
    simp only [underway, List.append_nil]
    exact harrived

theorem Inv.check {s s' : Sys} (h : Inv s) (hr : s.receiver = .checking)
    (hsafe : s.counted = true → s.connectThread = true) (hs : receiverStep s = some s') : Inv s' := by
  have hne : s.receiver ≠ .reading := by rw [hr]; decide
  have hheld := h.handing hne
  have hline := h.line hne
  have harrived := h.arrived
  simp only [underway, hr] at harrived
  simp only [receiverStep, hr, Option.some.injEq] at hs
  subst hs
  by_cases hthread : s.connectThread = true
  · rw [if_pos hthread]
    refine ⟨h.overflow, h.received, h.shared, h.wire, hheld, fun _ => hline, ?_, h.sem, h.thread, h.returned, ?_, ?_⟩
    · exact ⟨Nat.zero_le _, List.nil_prefix, fun hpos => absurd hpos (lt_irrefl 0)⟩
    · simp only [underway]
      split
      · rename_i hcounted
        rw [harrived, if_pos hcounted]
        rfl
      · rename_i hcounted
        rw [harrived, if_neg hcounted, List.append_nil]
        rfl
    · simp only
      split
      · exact h.ended
      · intro l hl
        rcases List.mem_append.mp hl with hl | hl
        · exact h.ended l hl
        · exact List.mem_singleton.mp hl ▸ hline.2
  · rw [if_neg hthread]
    have hcounted : ¬ s.counted = true := fun hc => hthread (hsafe hc)
    rw [if_neg hcounted] at harrived
    exact ⟨h.overflow, h.received, h.shared, h.wire, hheld, fun _ => hline, trivial, h.sem, h.thread, h.returned,
      harrived, h.ended⟩

theorem Inv.copy {s s' : Sys} (h : Inv s) {i : ℕ} (hr : s.receiver = .copying i)
    (hsafe : i = 0 → Quiet s) (hs : receiverStep s = some s') : Inv s' := by
  have hne : s.receiver ≠ .reading := by rw [hr]; exact Receiver.noConfusion
  obtain ⟨hheld, hoffset, hzero⟩ := h.handing hne
  have hline := h.line hne
  have hcopied := h.copied
  simp only [Copied, hr] at hcopied
  obtain ⟨hi, htake, hpos⟩ := hcopied
  have hquiet : Quiet s := (Nat.eq_zero_or_pos i).elim hsafe hpos
  have hlen : s.line.length < s.globalReceived.length := by
    have := hheld.length_lt
    rw [h.received] at this
    rwa [h.shared]
  have hbuffered : buffered s = [] := by
    rw [buffered, if_neg]
    obtain ⟨hsem, hc | hc⟩ := hquiet <;> simp [hsem, hc]
  have harrived := h.arrived
  simp only [underway, hr, hbuffered] at harrived
  have hbuffered' : ∀ (g : List Char) (r : Receiver),
      buffered { s with globalReceived := g, receiver := r } = [] := by
    intro g r
    rw [buffered, if_neg]
    obtain ⟨hsem, hc | hc⟩ := hquiet <;> simp [hsem, hc]
  simp only [receiverStep, hr, Option.some.injEq] at hs
  subst hs
  rcases Nat.lt_or_eq_of_le hi with hlt | heq
  · have hget := hheld.getD hlt
    have hnz : s.line[i] ≠ '\x00' := fun he => hzero (he ▸ List.getElem_mem hlt)
    rw [hget, if_neg hnz]
    refine ⟨h.overflow, h.received, by rw [List.length_set, h.shared], h.wire, ⟨hheld, hoffset, hzero⟩, fun _ => hline,
      ⟨hlt, take_prefix_set hlt (lt_trans hlt hlen) htake, fun _ => hquiet⟩, h.sem, h.thread, h.returned, ?_, h.ended⟩
    rw [hbuffered']
    exact harrived
  · subst heq
    rw [hheld.getD_length, if_pos rfl]
    rw [List.take_length] at htake
    refine ⟨h.overflow, h.received, by rw [List.length_set, h.shared], h.wire, ⟨hheld, hoffset, hzero⟩, fun _ => hline,
      ⟨holds_of_prefix_set hlen htake, hquiet⟩, h.sem, h.thread, h.returned, ?_, h.ended⟩
    rw [hbuffered']
    exact harrived

theorem Inv.setOffset {s s' : Sys} (h : Inv s) (hr : s.receiver = .offset) (hs : receiverStep s = some s') : Inv s' := by
  have hne : s.receiver ≠ .reading := by rw [hr]; decide
  have hheld := h.handing hne
  have hcopied := h.copied
  have harrived := h.arrived
  simp only [Copied, hr] at hcopied
  simp only [underway, hr] at harrived
  simp only [receiverStep, hr, Option.some.injEq] at hs
  subst hs
  exact ⟨h.overflow, h.received, h.shared, h.wire, hheld, fun _ => h.line hne, hcopied, h.sem, h.thread, h.returned,
    harrived, h.ended⟩

theorem Inv.release {s s' : Sys} (h : Inv s) (hr : s.receiver = .releasing) (hs : receiverStep s = some s') : Inv s' := by
  have hne : s.receiver ≠ .reading := by rw [hr]; decide
  have hheld := h.handing hne
  have hcopied := h.copied
  have harrived := h.arrived
  simp only [Copied, hr] at hcopied
  obtain ⟨hshared, hsem, hconnector⟩ := hcopied
  have hbuffered : buffered s = [] := by
    rw [buffered, if_neg]
    rcases hconnector with hc | hc <;> simp [hsem, hc]
  simp only [underway, hr, hbuffered, List.append_nil] at harrived
  simp only [receiverStep, hr, Option.some.injEq] at hs
  subst hs
  have hinc : inc 16 s.rxSemConnect = 1 := by rw [hsem]; rfl
  refine ⟨h.overflow, h.received, h.shared, h.wire, hheld, fun _ => h.line hne, trivial, Or.inr ⟨hinc, hconnector⟩,
    h.thread, h.returned, ?_, h.ended⟩
  simp only [buffered, hinc, true_or, if_true, underway, List.append_nil, hshared.text_eq hheld.2.2]
  exact harrived

theorem Inv.reset {s s' : Sys} (h : Inv s) (hr : s.receiver = .resetting) (hs : receiverStep s = some s') : Inv s' := by
  have hne : s.receiver ≠ .reading := by rw [hr]; decide
  obtain ⟨hwire, -⟩ := h.line hne
  have harrived := h.arrived
  simp only [underway, hr] at harrived
  simp only [receiverStep, hr, Option.some.injEq] at hs
  subst hs
  have hreceived : s.received ≠ [] := fun he => by simpa [he] using h.received
  refine ⟨h.overflow, by rw [List.length_set, h.received], h.shared, h.wire, ?_, fun hc => absurd rfl hc, trivial, h.sem,
    h.thread, h.returned, harrived, h.ended⟩
  simp only [current, if_true, hwire]
  exact ⟨holds_nil hreceived, rfl, List.not_mem_nil⟩

theorem Inv.receiver {s s' : Sys} (h : Inv s) (hsafe : Safe s .receiver) (hs : receiverStep s = some s') : Inv s' := by
  obtain ⟨hcheck, hcopy⟩ := hsafe
  cases hr : s.receiver with
  | reading => simp [receiverStep, hr] at hs
  | checking => exact h.check hr (hcheck hr) hs
  | copying i => exact h.copy hr (fun hi => hcopy (hi ▸ hr)) hs
  | offset => exact h.setOffset hr hs
  | releasing => exact h.release hr hs
  | resetting => exact h.reset hr hs

theorem Inv.not_quiet {s : Sys} (h : Inv s) (hc : s.connector ≠ .starting ∧ s.connector ≠ .waiting) :
    s.rxSemConnect = 0 ∧ ¬ Quiet s := by
  refine ⟨h.sem.resolve_right fun hr => ?_, fun hq => ?_⟩
  · exact hr.2.elim hc.1 hc.2
  · exact hq.2.elim hc.1 hc.2

theorem Copied.of_not_quiet {s s' : Sys} (h : Copied s) (hq : ¬ Quiet s) (hreceiver : s'.receiver = s.receiver) :
    Copied s' := by
  unfold Copied at h ⊢
  rw [hreceiver]
  cases hr : s.receiver with
  | copying i =>
    simp only [hr] at h ⊢
    have hi : i = 0 := (Nat.eq_zero_or_pos i).resolve_right fun hpos => hq (h.2.2 hpos)
    subst hi
    exact ⟨Nat.zero_le _, List.nil_prefix, fun hpos => absurd hpos (lt_irrefl 0)⟩
  | offset =>
    simp only [hr] at h
    exact absurd h.2 hq
  | releasing =>
    simp only [hr] at h
    exact absurd h.2 hq
  | _ => trivial

theorem processed_connectPass {s : Sys} (hret : s.conn.returned = false) (i : Input) :
    (s.past ++ (connectPass s.conn i).log).map (fun e => e.line) = processed s ++ [i.line] := by
  have hlog : (connectPass s.conn i).log = s.conn.log ++ [⟨s.conn.step, i.line, echo i ++
      (react i.relaySwitchIsOn s.conn.step i.line).events⟩] := by
    simp [connectPass, hret]
  rw [hlog, processed]
  simp

theorem Inv.of_connector {s s' : Sys} (h : Inv s)
    (hsame : (s'.received, s'.charOffset, s'.receiver, s'.wire, s'.line, s'.counted, s'.arrived, s'.overflow) =
      (s.received, s.charOffset, s.receiver, s.wire, s.line, s.counted, s.arrived, s.overflow))
    (hshared : s'.globalReceived.length = 100) (hcopied : Copied s')
    (hsem : s'.rxSemConnect = 0 ∨ s'.rxSemConnect = 1 ∧ (s'.connector = .starting ∨ s'.connector = .waiting))
    (hthread : s'.connectThread = true ↔ s'.connector ≠ .absent)
    (hreturned : s'.connector ≠ .absent → s'.connector ≠ .starting → s'.conn.returned = false)
    (hlines : processed s' ++ buffered s' = processed s ++ buffered s) : Inv s' := by
  simp only [Prod.mk.injEq] at hsame
  obtain ⟨hreceived, hoffset, hreceiver, hwire, hline, hcounted, harrived, hoverflow⟩ := hsame
  have hcurrent : current s' = current s := by rw [current, current, hreceiver, hwire, hline]
  have hunderway : underway s' = underway s := by rw [underway, underway, hreceiver, hcounted, hline]
  refine ⟨hoverflow ▸ h.overflow, hreceived ▸ h.received, hshared, hwire ▸ h.wire, ?_, ?_, hcopied, hsem, hthread,
    hreturned, ?_, harrived ▸ h.ended⟩
  · rw [hcurrent, hreceived, hoffset]
    exact h.held
  · rw [hreceiver, hwire, hline]
    exact h.line
  · rw [harrived, hlines, hunderway]
    exact h.arrived

theorem Copied.of_quiet {s s' : Sys} (h : Copied s) (hq : Quiet s → Quiet s')
    (hsame : s'.receiver = s.receiver ∧ s'.line = s.line ∧ s'.globalReceived = s.globalReceived) : Copied s' := by
  obtain ⟨hreceiver, hline, hshared⟩ := hsame
  unfold Copied at h ⊢
  rw [hreceiver, hline, hshared]
  cases hr : s.receiver with
  | copying i =>
    simp only [hr] at h
    exact ⟨h.1, h.2.1, fun hpos => hq (h.2.2 hpos)⟩
  | offset =>
    simp only [hr] at h
    exact ⟨h.1, hq h.2⟩
  | releasing =>
    simp only [hr] at h
    exact ⟨h.1, hq h.2⟩
  | _ => trivial

theorem Inv.start {s s' : Sys} (h : Inv s) (hc : s.connector = .starting) (hs : connectorStep s = some s') : Inv s' := by
  simp only [connectorStep, hc, Option.some.injEq] at hs
  subst hs
  have hthread : s.connectThread = true := h.thread.mpr (by rw [hc]; decide)
  refine h.of_connector rfl h.shared (h.copied.of_quiet (fun hq => ⟨hq.1, Or.inr rfl⟩) ⟨rfl, rfl, rfl⟩)
    (h.sem.imp_right fun hr => ⟨hr.1, Or.inr rfl⟩) (iff_of_true hthread Connector.noConfusion) (fun _ _ => rfl) ?_
  have hlog : connectStart.log = [] := rfl
  simp [processed, buffered, hc, hlog]

theorem Inv.take {s s' : Sys} (h : Inv s) (hc : s.connector = .waiting) (hs : connectorStep s = some s') : Inv s' := by
  simp only [connectorStep, hc] at hs
  split at hs
  · cases hs
  · rename_i hpos
    cases hs
    have hone : s.rxSemConnect = 1 := (h.sem.resolve_left hpos).1
    have hquiet : ¬ Quiet s := fun hq => hpos hq.1
    have hthread : s.connectThread = true := h.thread.mpr (by rw [hc]; decide)
    have hret := h.returned (by rw [hc]; decide) (by rw [hc]; decide)
    refine h.of_connector rfl h.shared (h.copied.of_not_quiet hquiet rfl) (Or.inl (by rw [hone]))
      (iff_of_true hthread Connector.noConfusion) (fun _ _ => hret) ?_
    simp [processed, buffered, hone]

theorem Inv.inspect {s s' : Sys} (h : Inv s) (hc : s.connector = .taken) (hs : connectorStep s = some s') : Inv s' := by
  obtain ⟨hsem, hquiet⟩ := h.not_quiet (by rw [hc]; decide)
  have hret := h.returned (by rw [hc]; decide) (by rw [hc]; decide)
  have hthread : s.connectThread = true := h.thread.mpr (by rw [hc]; decide)
  simp only [connectorStep, hc, Option.some.injEq] at hs
  subst hs
  refine h.of_connector rfl h.shared (h.copied.of_not_quiet hquiet rfl) (Or.inl hsem) ?_ ?_ ?_
  · simp only
    split
    · simp
    · exact iff_of_true hthread Connector.noConfusion
  · simp only
    split
    · exact fun hne => absurd rfl hne
    · rename_i hr
      exact fun _ _ => Bool.eq_false_iff.mpr hr
  · have hbuffered : buffered s = [text s.globalReceived] := if_pos (Or.inr hc)
    rw [hbuffered, processed, processed_connectPass hret, buffered, if_neg, List.append_nil]
    simp only [hsem]
    split <;> decide

theorem Inv.clear {s s' : Sys} (h : Inv s) (hc : s.connector = .clearing ∨ s.connector = .clearingOffset)
    (hs : connectorStep s = some s') : Inv s' := by
  have hbusy : s.connector ≠ .starting ∧ s.connector ≠ .waiting := by rcases hc with hc | hc <;> rw [hc] <;> decide
  have hpresent : s.connector ≠ .absent := by rcases hc with hc | hc <;> rw [hc] <;> decide
  obtain ⟨hsem, hquiet⟩ := h.not_quiet hbusy
  have hret := h.returned hpresent hbusy.1
  have hthread : s.connectThread = true := h.thread.mpr hpresent
  rcases hc with hc | hc
  · simp only [connectorStep, hc, Option.some.injEq] at hs
    subst hs
    refine h.of_connector rfl (by rw [List.length_set, h.shared]) (h.copied.of_not_quiet hquiet rfl) (Or.inl hsem)
      (iff_of_true hthread Connector.noConfusion) (fun _ _ => hret) ?_
    simp [processed, buffered, hsem, hc]
  · simp only [connectorStep, hc, Option.some.injEq] at hs
    subst hs
    refine h.of_connector rfl h.shared (h.copied.of_not_quiet hquiet rfl) (Or.inl hsem)
      (iff_of_true hthread Connector.noConfusion) (fun _ _ => hret) ?_
    simp [processed, buffered, hsem, hc]

theorem Inv.connector {s s' : Sys} (h : Inv s) (hs : connectorStep s = some s') : Inv s' := by
  cases hc : s.connector with
  | absent => simp [connectorStep, hc] at hs
  | starting => exact h.start hc hs
  | waiting => exact h.take hc hs
  | taken => exact h.inspect hc hs
  | clearing => exact h.clear (Or.inl hc) hs
  | clearingOffset => exact h.clear (Or.inr hc) hs

theorem Inv.connectAliyun {s s' : Sys} (h : Inv s) (hs : connectAliyun s = some s') : Inv s' := by
  unfold Uart.connectAliyun at hs
  split at hs
  · cases hs
  · rename_i hthread
    cases hs
    have hc : s.connector = .absent := by
      by_contra hne
      exact hthread (h.thread.mpr hne)
    obtain ⟨hsem, hquiet⟩ := h.not_quiet (by rw [hc]; decide)
    refine h.of_connector rfl h.shared (h.copied.of_not_quiet hquiet rfl) (Or.inl hsem)
      (iff_of_true rfl Connector.noConfusion) (fun _ hne => absurd rfl hne) ?_
    simp [processed, buffered, hsem, hc]

theorem step_inv {s s' : Sys} {a : Act} (h : Inv s) (hsafe : Safe s a) (hs : step s a = some s') : Inv s' := by
  simp only [step, h.overflow, Bool.false_eq_true, if_false] at hs
  cases a with
  | byte ch =>
    simp only at hs
    split at hs
    · rename_i hr
      cases hs
      exact h.byte hr hsafe.1 hsafe.2
    · cases hs
  | receiver => exact h.receiver hsafe hs
  | connector => exact h.connector hs
  | connectAliyun => exact h.connectAliyun hs

/-! ### The run -/

theorem pending_le (s : Sys) : (buffered s ++ underway s).length ≤ 2 := by
  have hbuffered : (buffered s).length ≤ 1 := by
    unfold buffered
    split <;> simp
  have hunderway : (underway s).length ≤ 1 := by
    unfold underway
    split <;> try split
    all_goals simp
  rw [List.length_append]
  omega

theorem Idle.pending_eq {s : Sys} (h : Idle s) : buffered s ++ underway s = [] := by
  obtain ⟨hreceiver, hsem, htaken⟩ := h
  simp [buffered, underway, hreceiver, hsem, htaken]

theorem Inv.progress {s : Sys} (h : Inv s) (hidle : ¬ Idle s) :
    (step s .receiver).isSome = true ∨ (step s .connector).isSome = true := by
  simp only [step, h.overflow, Bool.false_eq_true, if_false]
  by_cases hreceiver : s.receiver = .reading
  · refine Or.inr ?_
    rcases h.sem with hsem | ⟨hsem, hc | hc⟩
    · have htaken : s.connector = .taken := by
        by_contra hne
        exact hidle ⟨hreceiver, hsem, hne⟩
      simp [connectorStep, htaken]
    · simp [connectorStep, hc]
    · simp [connectorStep, hc, hsem]
  · refine Or.inl ?_
    cases hr : s.receiver with
    | reading => exact absurd hr hreceiver
    | _ => simp [receiverStep, hr]

/-- In every run of the two threads whose steps are safe, the lines received while the connection
is up are the lines the connect thread has looked at, each once, in order and as they were on the
wire, followed by at most two that are on their way; while one is on its way, one of the threads
can go on. -/
theorem lines_handed_over (as : List Act) {s : Sys} (hsafe : AllSteps step Safe init as)
    (hrun : exec step init as = some s) :
    (∃ pending, s.arrived = processed s ++ pending ∧ pending.length ≤ 2 ∧ (Idle s → pending = [])) ∧
    (∀ l ∈ s.arrived, crlf <:+ l) ∧
    (¬ Idle s → (step s .receiver).isSome = true ∨ (step s .connector).isSome = true) := by
  have h : Inv s := exec_inv_of_allSteps Inv Safe (fun _ _ _ hi hs => step_inv hi hs) init_inv hsafe hrun
  refine ⟨⟨buffered s ++ underway s, ?_, pending_le s, fun hidle => hidle.pending_eq⟩, h.ended, h.progress⟩
  rw [← List.append_assoc]
  exact h.arrived

/-- The bytes of a line, and `n` steps of the receive thread on it. -/
def received (line : List Char) (n : ℕ) : List Act := line.map Act.byte ++ List.replicate n .receiver

/-- The connect thread looks at each of the two lines of the modem's first answer in time. -/
def lineByLine : List Act :=
  [.connectAliyun, .connector] ++ received ['\r', '\n'] 7 ++ List.replicate 4 .connector ++
    received ['O', 'K', '\r', '\n'] 9 ++ List.replicate 4 .connector

theorem lines_handed_over_lineByLine : ∃ s, exec step init lineByLine = some s ∧ Idle s ∧
    processed s = [['\r', '\n'], ['O', 'K', '\r', '\n']] ∧ s.arrived = processed s := by
  have hsafe : AllSteps step Safe init lineByLine := by decide
  have hsome : (exec step init lineByLine).isSome = true := by decide
  have hlast : (exec step init lineByLine).all (fun s =>
      decide (Idle s ∧ processed s = [['\r', '\n'], ['O', 'K', '\r', '\n']])) = true := by decide
  obtain ⟨s, hs⟩ := Option.isSome_iff_exists.mp hsome
  rw [hs, Option.all_some] at hlast
  obtain ⟨hidle, hprocessed⟩ := of_decide_eq_true hlast
  obtain ⟨⟨pending, harrived, -, hpending⟩, -, -⟩ := lines_handed_over lineByLine hsafe hs
  rw [hpending hidle, List.append_nil] at harrived
  exact ⟨s, hs, hidle, hprocessed, harrived⟩

/-- Both lines of the answer come before the connect thread runs: it looks at the second, and then
at an empty buffer. -/
def bothLines : List Act :=
  [.connectAliyun, .connector] ++ received ['\r', '\n'] 7 ++ received ['O', 'K', '\r', '\n'] 9 ++
    List.replicate 8 .connector

theorem lines_lost : ∃ s, exec step init bothLines = some s ∧ Idle s ∧
    s.arrived = [['\r', '\n'], ['O', 'K', '\r', '\n']] ∧ processed s = [['O', 'K', '\r', '\n'], []] := by
  have hsome : (exec step init bothLines).isSome = true := by decide
  have hlast : (exec step init bothLines).all (fun s => decide (Idle s ∧
      s.arrived = [['\r', '\n'], ['O', 'K', '\r', '\n']] ∧ processed s = [['O', 'K', '\r', '\n'], []])) = true := by
    decide
  obtain ⟨s, hs⟩ := Option.isSome_iff_exists.mp hsome
  rw [hs, Option.all_some] at hlast
  exact ⟨s, hs, of_decide_eq_true hlast⟩

end RtThread.Nb101.Uart
