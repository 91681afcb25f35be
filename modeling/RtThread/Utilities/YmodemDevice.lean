import RtThread.Lib.Ring
import RtThread.Utilities.Ymodem

/-!
# Reading a package from the device (`ymodem.c:68-112`)

The bytes come in pieces. Between two reads the receiver waits on a semaphore, which is released each time that
something arrives; a token may also be one of bytes that have been read already.
-/

namespace RtThread.Utilities.YmodemDevice

open RtThread.Lib.Ring RtThread.Utilities.Ymodem

/-- What happens while the receiver reads: bytes arrive, perhaps none, and the semaphore is released, or nothing
arrives until a wait comes to its timeout. -/
inductive Event where
  | arrive (bytes : List UInt8)
  | silence
  deriving DecidableEq, Repr

structure Device where
  buffered : List UInt8
  events : List Event

/-- `rt_device_read` of the receiver: what has arrived by now, up to `n` bytes. -/
def rtDeviceRead (dev : Device) (n : ℕ) : List UInt8 × Device :=
  match dev.events with
  | .arrive bytes :: events => ((dev.buffered ++ bytes).take n, ⟨(dev.buffered ++ bytes).drop n, events⟩)
  | _ => (dev.buffered.take n, { dev with buffered := dev.buffered.drop n })

/-- `rt_sem_take(&ctx->sem, timeout) == RT_EOK`. -/
def rtSemTake (dev : Device) : Bool × Device :=
  match dev.events with
  | .arrive _ :: _ => (true, dev)
  | .silence :: events => (false, { dev with events := events })
  | [] => (false, dev)

/-- The slow path of `_rym_read_code`. -/
def readCodeLoop : ℕ → Device → UInt8 × Device
  | 0, dev => (rymCodeNone, dev)
  | fuel + 1, dev =>
    match rtSemTake dev with
    | (false, dev) => (rymCodeNone, dev)
    | (true, dev) =>
      match rtDeviceRead dev 1 with
      | ([], dev) => readCodeLoop fuel dev
      | (code :: _, dev) => (code, dev)

/-- `_rym_read_code` (`ymodem.c:73-92`). Each round of the loop uses up an event. -/
def rymReadCode (dev : Device) : UInt8 × Device :=
  match rtDeviceRead dev 1 with
  | ([], dev) => readCodeLoop (dev.events.length + 1) dev
  | (code :: _, dev) => (code, dev)

/-- The loop of `_rym_read_data`; `readlen` bytes have been read. -/
def readDataLoop (len : ℕ) : ℕ → (ℕ → UInt8) → ℕ → Device → ℕ × (ℕ → UInt8) × Device
  | 0, buf, readlen, dev => (readlen, buf, dev)
  | fuel + 1, buf, readlen, dev =>
    let (bytes, dev) := rtDeviceRead dev (len - readlen)
    let buf := copy buf (1 + readlen) bytes
    let readlen := readlen + bytes.length
    if readlen ≥ len then (readlen, buf, dev)
    else
      match rtSemTake dev with
      | (false, dev) => (readlen, buf, dev)
      | (true, dev) => readDataLoop len fuel buf readlen dev

/-- `_rym_read_data` (`ymodem.c:95-112`). -/
def rymReadData (buf : ℕ → UInt8) (dev : Device) (len : ℕ) : ℕ × (ℕ → UInt8) × Device :=
  readDataLoop len (dev.events.length + 2) buf 0 dev

/-- The bytes that arrive before the next silence. -/
def leading : List Event → List UInt8
  | .arrive bytes :: events => bytes ++ leading events
  | _ => []

/-- The events behind the next silence. -/
def afterSilence : List Event → List Event
  | .arrive _ :: events => afterSilence events
  | .silence :: events => events
  | [] => []

def Device.coming (dev : Device) : List UInt8 := dev.buffered ++ leading dev.events

/-- All bytes that have not been read. -/
def Device.content (dev : Device) : List UInt8 :=
  dev.buffered ++ dev.events.flatMap fun e =>
    match e with
    | .arrive bytes => bytes
    | .silence => []

/-- `bytes` have been read from `dev`, before the next silence. -/
structure Consumed (dev dev' : Device) (bytes : List UInt8) : Prop where
  coming : dev.coming = bytes ++ dev'.coming
  content : dev.content = bytes ++ dev'.content

variable {dev dev' : Device} {n : ℕ}

theorem Consumed.trans {dev'' : Device} {xs ys : List UInt8} (h : Consumed dev dev' xs) (h' : Consumed dev' dev'' ys) :
    Consumed dev dev'' (xs ++ ys) := by
  constructor
  · rw [h.coming, h'.coming, List.append_assoc]
  · rw [h.content, h'.content, List.append_assoc]

theorem rtSemTake_of_leading (h : leading dev.events ≠ []) : rtSemTake dev = (true, dev) := by
  rw [rtSemTake]
  split
  · rfl
  · rename_i hevents
    rw [hevents] at h
    exact absurd rfl h
  · rename_i hevents
    rw [hevents] at h
    exact absurd rfl h

/-- The device gives as much as it has. Either an event has been used up, or the next wait is in vain. -/
theorem rtDeviceRead_spec (dev : Device) (n : ℕ) :
    ∃ bytes dev', rtDeviceRead dev n = (bytes, dev') ∧ Consumed dev dev' bytes ∧ bytes.length ≤ n ∧
      (bytes.length < n → dev'.buffered = []) ∧
        (dev'.events.length < dev.events.length ∨ leading dev'.events = []) := by
  rw [rtDeviceRead]
  split
  · rename_i bytes events hevents
    refine ⟨_, _, rfl, ⟨?_, ?_⟩, List.length_take_le _ _, fun hlt => ?_, Or.inl ?_⟩
    · rw [Device.coming, Device.coming, hevents, leading, ← List.append_assoc, ← List.append_assoc,
        List.take_append_drop]
    · rw [Device.content, Device.content, hevents, List.flatMap_cons, ← List.append_assoc, ← List.append_assoc,
        List.take_append_drop]
    · rw [List.length_take] at hlt
      exact List.drop_eq_nil_of_le (by omega)
    · rw [hevents]
      exact Nat.lt_succ_self _
  · rename_i hevents
    refine ⟨_, _, rfl, ⟨?_, ?_⟩, List.length_take_le _ _, fun hlt => ?_, Or.inr ?_⟩
    · rw [Device.coming, Device.coming, ← List.append_assoc, List.take_append_drop]
    · rw [Device.content, Device.content, ← List.append_assoc, List.take_append_drop]
    · rw [List.length_take] at hlt
      exact List.drop_eq_nil_of_le (by omega)
    · cases he : dev.events with
      | nil => rfl
      | cons e events =>
        cases e with
        | arrive bytes => exact absurd he (hevents bytes events)
        | silence => rfl

theorem copy_append (buf : ℕ → UInt8) (a : ℕ) (xs ys : List UInt8) :
    copy (copy buf a xs) (a + xs.length) ys = copy buf a (xs ++ ys) := by
  induction xs generalizing buf a with
  | nil => rfl
  | cons x xs ih =>
    rw [copy, List.cons_append, copy, ← ih, List.length_cons, Nat.add_comm xs.length, Nat.add_assoc]

theorem readDataLoop_spec {len fuel : ℕ} {buf : ℕ → UInt8} {readlen : ℕ} (hfuel : dev.events.length < fuel)
    (hle : readlen ≤ len) (hcoming : len - readlen ≤ dev.coming.length) :
    ∃ bytes dev', readDataLoop len fuel buf readlen dev = (len, copy buf (1 + readlen) bytes, dev') ∧
      Consumed dev dev' bytes ∧ bytes.length = len - readlen := by
  induction fuel generalizing dev buf readlen with
  | zero => cases hfuel
  | succ fuel ih =>
    obtain ⟨bytes, dev₁, hread, hconsumed, hbytes, hempty, hevents⟩ := rtDeviceRead_spec dev (len - readlen)
    rw [readDataLoop, hread]
    dsimp only
    split
    · rename_i hend
      obtain hlen : readlen + bytes.length = len := by omega
      exact ⟨bytes, dev₁, by rw [hlen], hconsumed, by omega⟩
    · rename_i hend
      have hlen := congrArg List.length hconsumed.coming
      rw [List.length_append] at hlen
      have hcoming₁ : dev₁.coming = leading dev₁.events := by
        rw [Device.coming, hempty (by omega), List.nil_append]
      have hmore : leading dev₁.events ≠ [] := by
        intro hnone
        rw [hcoming₁, hnone, List.length_nil] at hlen
        omega
      rw [rtSemTake_of_leading hmore]
      obtain ⟨rest, dev', hloop, hrest, hrestlen⟩ := @ih dev₁ (copy buf (1 + readlen) bytes) (readlen + bytes.length)
        (by have := hevents.resolve_right hmore; omega) (by omega) (by omega)
      refine ⟨bytes ++ rest, dev', ?_, hconsumed.trans hrest, ?_⟩
      · dsimp only
        rw [hloop, ← Nat.add_assoc, copy_append]
      · rw [List.length_append, hrestlen]
        omega

theorem rymReadData_spec {len : ℕ} {bytes more : List UInt8} (buf : ℕ → UInt8) (hcoming : dev.coming = bytes ++ more)
    (hlen : bytes.length = len) :
    ∃ dev', rymReadData buf dev len = (len, copy buf 1 bytes, dev') ∧ Consumed dev dev' bytes := by
  have hroom : len - 0 ≤ dev.coming.length := by
    rw [hcoming, List.length_append]
    omega
  obtain ⟨bytes', dev', hloop, hconsumed, hlen'⟩ :=
    @readDataLoop_spec dev len (dev.events.length + 2) buf 0 (by omega) (Nat.zero_le _) hroom
  have hsame : bytes' = bytes := (List.append_inj (hconsumed.coming.symm.trans hcoming) (by omega)).1
  rw [hsame] at hloop hconsumed
  exact ⟨dev', hloop, hconsumed⟩

theorem readCodeLoop_spec {fuel : ℕ} {code : UInt8} {more : List UInt8} (hfuel : dev.events.length < fuel)
    (hcoming : leading dev.events = code :: more) (hempty : dev.buffered = []) :
    ∃ dev', readCodeLoop fuel dev = (code, dev') ∧ Consumed dev dev' [code] := by
  induction fuel generalizing dev with
  | zero => cases hfuel
  | succ fuel ih =>
    have hmore : leading dev.events ≠ [] := by
      rw [hcoming]
      exact List.cons_ne_nil _ _
    obtain ⟨bytes, dev₁, hread, hconsumed, hbytes, hrest, hevents⟩ := rtDeviceRead_spec dev 1
    have hdev : dev.coming = code :: more := by rw [Device.coming, hempty, List.nil_append, hcoming]
    rw [readCodeLoop, rtSemTake_of_leading hmore]
    dsimp only
    rw [hread]
    cases bytes with
    | nil =>
      have hempty₁ := hrest Nat.one_pos
      have hcoming₁ : leading dev₁.events = code :: more := by
        rw [← hdev, hconsumed.coming, Device.coming, hempty₁]
        rfl
      have hused := hevents.resolve_right (by rw [hcoming₁]; exact List.cons_ne_nil _ _)
      obtain ⟨dev', hloop, hconsumed'⟩ := @ih dev₁ (by omega) hcoming₁ hempty₁
      exact ⟨dev', hloop, hconsumed.trans hconsumed'⟩
    | cons b bytes =>
      obtain rfl : bytes = [] := List.eq_nil_of_length_eq_zero (Nat.le_zero.mp (Nat.le_of_succ_le_succ hbytes))
      obtain rfl : b = code := (List.cons.inj (hconsumed.coming.symm.trans hdev)).1
      exact ⟨dev₁, rfl, hconsumed⟩

theorem rymReadCode_spec {code : UInt8} {more : List UInt8} (hcoming : dev.coming = code :: more) :
    ∃ dev', rymReadCode dev = (code, dev') ∧ Consumed dev dev' [code] := by
  obtain ⟨bytes, dev₁, hread, hconsumed, hbytes, hrest, -⟩ := rtDeviceRead_spec dev 1
  rw [rymReadCode, hread]
  cases bytes with
  | nil =>
    have hempty₁ := hrest Nat.one_pos
    have hcoming₁ : leading dev₁.events = code :: more := by
      rw [← hcoming, hconsumed.coming, Device.coming, hempty₁]
      rfl
    obtain ⟨dev', hloop, hconsumed'⟩ := readCodeLoop_spec (Nat.lt_succ_self _) hcoming₁ hempty₁
    exact ⟨dev', hloop, hconsumed.trans hconsumed'⟩
  | cons b bytes =>
    obtain rfl : bytes = [] := List.eq_nil_of_length_eq_zero (Nat.le_zero.mp (Nat.le_of_succ_le_succ hbytes))
    obtain rfl : b = code := (List.cons.inj (hconsumed.coming.symm.trans hcoming)).1
    exact ⟨dev₁, rfl, hconsumed⟩

theorem readCodeLoop_silent {events : List Event} {fuel : ℕ} (hfuel : events.length < fuel)
    (hnone : leading events = []) : readCodeLoop fuel ⟨[], events⟩ = (rymCodeNone, ⟨[], afterSilence events⟩) := by
  induction events generalizing fuel with
  | nil =>
    cases fuel with
    | zero => cases hfuel
    | succ fuel => rfl
  | cons e events ih =>
    cases fuel with
    | zero => cases hfuel
    | succ fuel =>
      cases e with
      | silence => rfl
      | arrive bytes =>
        obtain ⟨hbytes, hevents⟩ := List.append_eq_nil_iff.mp (show bytes ++ leading events = [] from hnone)
        rw [hbytes, readCodeLoop, rtSemTake]
        exact ih (Nat.lt_of_succ_lt_succ hfuel) hevents

theorem rymReadCode_silent (hnone : dev.coming = []) :
    rymReadCode dev = (rymCodeNone, ⟨[], afterSilence dev.events⟩) := by
  obtain ⟨buffered, events⟩ := dev
  obtain ⟨hbuffered, hevents⟩ := List.append_eq_nil_iff.mp (show buffered ++ leading events = [] from hnone)
  rw [hbuffered, rymReadCode]
  cases events with
  | nil => rfl
  | cons e events =>
    cases e with
    | silence => rfl
    | arrive bytes =>
      obtain ⟨hbytes, hrest⟩ := List.append_eq_nil_iff.mp (show bytes ++ leading events = [] from hevents)
      rw [hbytes]
      exact readCodeLoop_silent (Nat.lt_succ_self _) hrest

theorem content_afterSilence (hnone : dev.coming = []) :
    (⟨[], afterSilence dev.events⟩ : Device).content = dev.content := by
  obtain ⟨buffered, events⟩ := dev
  obtain ⟨hbuffered, hevents⟩ := List.append_eq_nil_iff.mp (show buffered ++ leading events = [] from hnone)
  rw [hbuffered]
  clear hbuffered hnone
  induction events with
  | nil => rfl
  | cons e events ih =>
    cases e with
    | silence => rfl
    | arrive bytes =>
      obtain ⟨hbytes, hrest⟩ := List.append_eq_nil_iff.mp (show bytes ++ leading events = [] from hevents)
      rw [hbytes]
      exact ih hrest

end RtThread.Utilities.YmodemDevice
