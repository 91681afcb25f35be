import RtThread.Kservice.Verbatim
import RtThread.Nb101.LineBuffer

/-!
# Received lines on the console (`blue_test_uart3.c`, `connect_aliyun_using_AT.c`)

Both threads pass the lines they receive to `rt_kprintf` as formats, and the receive thread of `uart3`
sends them to `uart1`.
-/

namespace RtThread.Nb101.LineBuffer

open RtThread.Lib.Word RtThread.Nb101.Connect RtThread.Kservice.Vsnprintf
open RtThread.Nb101.Uart (crlf text text_of_notMem)

/-- A line: the end of a line is at its end only. -/
structure IsLine (line : List Char) : Prop where
  nonzero : '\x00' ∉ line
  ends : crlf <:+ line
  once : ¬crlf <:+: line.dropLast

def toConsole (consoleDevice : Bool) (rtLogBuf : ℕ → Char) (args : VaList) : Event → Option (List Char)
  | .kprintf fmt => some (rtKprintf consoleDevice rtLogBuf fmt args)
  | _ => none

def toUart1 : Event → Option (List Char)
  | .writeUart1 buffer size => some (buffer.take size)
  | _ => none

variable {before line : List Char}

theorem receive_of_ends {handle : Thread → Thread} {b : Thread} {ch : Char}
    (h : crlf <:+: text (store b ch).receivedStrs) : receive handle b ch = clear (handle (store b ch)) := if_pos h

theorem receive_of_unfinished {handle : Thread → Thread} {b : Thread} {ch : Char}
    (h : ¬crlf <:+: text (store b ch).receivedStrs) : receive handle b ch = store b ch := if_neg h

theorem events_forward (b : Thread) : (clear (forward b)).events = b.events ++ [.kprintf (text b.receivedStrs),
    .writeUart1 b.receivedStrs (sub 32 b.charOffset 1), .writeUart3 b.receivedStrs (sub 32 b.charOffset 1)] := rfl

theorem usart3_concat (stream : List Char) (ch : Char) :
    usart3 (stream ++ [ch]) = receive forward (usart3 stream) ch := run_concat stream ch

theorem usart3_filled {stream : List Char} (h : Short stream) : Filled (usart3 stream) (unfinished stream) := by
  have hrun := run_inBounds id (fun _ => forward_keeps) stream
  rw [List.map_id] at hrun
  exact hrun.1 (hrun.2.mpr h)

theorem usart3_unfinished (hbefore : Short before) (hstart : LineStart before) (hline : ¬crlf <:+: text line)
    (hlen : line.length ≤ 99) :
    Short (before ++ line) ∧ (usart3 (before ++ line)).events = (usart3 before).events := by
  induction line using List.reverseRecOn with
  | nil =>
    rw [List.append_nil]
    exact ⟨hbefore, rfl⟩
  | append_singleton line ch ih =>
    have hopen : ¬crlf <:+: text line := fun h => hline (h.trans (text_mono line [ch]).isInfix)
    rw [List.length_append, List.length_singleton] at hlen
    obtain ⟨hshort, hevents⟩ := ih hopen (by omega)
    have hfilled := usart3_filled hshort
    rw [unfinished_append hstart hopen] at hfilled
    have hstored := hfilled.store ch (by omega)
    rw [← List.append_assoc, usart3_concat, short_concat, unfinished_append hstart hopen]
    refine ⟨⟨hshort, by omega⟩, ?_⟩
    rw [receive_of_unfinished (by rwa [hstored.text_eq])]
    exact hevents

theorem usart3_line (hbefore : Short before) (hstart : LineStart before) (hline : IsLine line)
    (hlen : line.length < 100) : ∃ buffer, buffer.take (line.length - 1) = line.dropLast ∧
      (usart3 (before ++ line)).events = (usart3 before).events ++
        [.kprintf line, .writeUart1 buffer (line.length - 1), .writeUart3 buffer (line.length - 1)] := by
  have hne : line ≠ [] := by
    rintro rfl
    exact absurd hline.ends (by decide)
  obtain ⟨part, ch, rfl⟩ : ∃ part ch, line = part ++ [ch] := ⟨_, _, (List.dropLast_append_getLast hne).symm⟩
  have honce := hline.once
  rw [List.dropLast_concat] at honce
  have hzero : '\x00' ∉ part := fun h => hline.nonzero (List.mem_append_left _ h)
  have hopen : ¬crlf <:+: text part := by rwa [text_of_notMem hzero]
  rw [List.length_append, List.length_singleton] at hlen
  obtain ⟨hshort, hevents⟩ := usart3_unfinished hbefore hstart hopen (by omega)
  have hfilled := usart3_filled hshort
  rw [unfinished_append hstart hopen] at hfilled
  have hstored := hfilled.store ch (by omega)
  have htext : text (store (usart3 (before ++ part)) ch).receivedStrs = part ++ [ch] := by
    rw [hstored.text_eq, text_of_notMem hline.nonzero]
  have hsize : sub 32 (store (usart3 (before ++ part)) ch).charOffset 1 = (part ++ [ch]).length - 1 := by
    rw [hstored.offset, sub_of_le] <;> rw [List.length_append, List.length_singleton] <;> omega
  refine ⟨(store (usart3 (before ++ part)) ch).receivedStrs, ?_, ?_⟩
  · obtain ⟨rest, hrest⟩ := hstored.holds
    rw [hrest, List.length_append, List.length_singleton, Nat.add_sub_cancel, List.dropLast_concat, List.append_assoc,
      List.take_left]
  · rw [← List.append_assoc, usart3_concat, receive_of_ends (by rw [htext]; exact hline.ends.isInfix), events_forward,
      htext, hsize, ← hevents]
    rfl

/-- The console shows a line as it is, whoever has received it, exactly when the line is a plain format;
what is sent to `uart1` is never the line, but the line without its last byte. -/
theorem console_verbatim_iff (hbefore : Short before) (hstart : LineStart before) (hline : IsLine line)
    (hlen : line.length < 100) :
    ∃ events, (usart3 (before ++ line)).events = (usart3 before).events ++ events ∧
      ((∀ consoleDevice rtLogBuf args, events.filterMap (toConsole consoleDevice rtLogBuf args) = [line]) ↔ Plain line) ∧
      (∀ i : Input, i.line = line →
        ((∀ consoleDevice rtLogBuf args, (echo i).filterMap (toConsole consoleDevice rtLogBuf args) = [line]) ↔
          Plain line)) ∧
      events.filterMap toUart1 = [line.dropLast] ∧ line.dropLast ≠ line := by
  obtain ⟨buffer, hbuffer, hevents⟩ := usart3_line hbefore hstart hline hlen
  have hprinted := rtKprintf_eq_iff (show line.length < consolebufSize - 1 by rw [consolebufSize]; omega) hline.nonzero
  refine ⟨_, hevents, ?_, ?_, ?_, ?_⟩
  · rw [← hprinted]
    simp only [List.filterMap_cons, List.filterMap_nil, toConsole, List.cons.injEq, and_true]
  · rintro i rfl
    rw [← hprinted]
    simp only [echo, List.filterMap_cons, List.filterMap_nil, toConsole, List.cons.injEq, and_true]
  · simp only [List.filterMap_cons, List.filterMap_nil, toUart1, hbuffer]
  · intro he
    have hlength := congrArg List.length he
    have hpos := List.length_pos_of_ne_nil (l := line) (by rintro rfl; exact absurd hline.ends (by decide))
    rw [List.length_dropLast] at hlength
    omega

theorem console_verbatim_iff_ok : ∃ events, (usart3 "OK\r\n".toList).events = events ∧
    (∀ consoleDevice rtLogBuf args, events.filterMap (toConsole consoleDevice rtLogBuf args) = ["OK\r\n".toList]) ∧
    events.filterMap toUart1 = ["OK\r".toList] := by
  obtain ⟨events, hevents, hconsole, -, huart1, -⟩ := @console_verbatim_iff [] "OK\r\n".toList short_nil
    ⟨Or.inl rfl, List.not_mem_nil⟩ ⟨by decide, by decide, by decide⟩ (by decide)
  refine ⟨events, hevents, hconsole.mpr fun before ch rest he => ?_, huart1⟩
  have hmem : '%' ∈ "OK\r\n".toList := by
    rw [he]
    exact List.mem_append_right _ List.mem_cons_self
  exact absurd hmem (by decide)

/-- A line that is a format for a number, with the number 7 where its argument would be. -/
theorem number_format_printed :
    (usart3 "20%d\r\n".toList).events.filterMap (toConsole true (fun _ => '\x00') ⟨fun _ => 7, fun _ => []⟩) =
      ["207\r\n".toList] ∧
    (usart3 "20%d\r\n".toList).events.filterMap toUart1 = ["20%d\r".toList] := by
  decide

end RtThread.Nb101.LineBuffer
