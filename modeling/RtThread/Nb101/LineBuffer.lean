import RtThread.Nb101.Uart

/-!
# The line buffers of the receive threads (`NB101_uart1.c`, `blue_test_uart3.c`)

Both threads store the bytes they read until they find the end of a line, deal with the line, and
begin with an empty buffer again. No other thread writes to this buffer, so a thread is run on the
bytes alone; whether there is a connect thread when a line of `uart1` is complete comes with its
last byte. The indexes written are recorded, whether they are in the buffer or not.
-/

namespace RtThread.Nb101.LineBuffer

open RtThread.Lib.Word RtThread.Nb101.Connect
open RtThread.Nb101.Uart (crlf text text_append_of_mem text_append_of_notMem text_of_notMem Holds holds_nil
  crlf_infix_concat)

/-- The variables of a receive thread. `written` and `copied` are the indexes at which it has written
in its buffer and, by `strcpy`, in the shared one. -/
structure Thread where
  receivedStrs : List Char
  charOffset : ℕ
  written : List ℕ
  copied : List ℕ
  events : List Event

def init : Thread := ⟨List.replicate 100 '\x00', 0, [], [], []⟩

/-- The byte, and a zero behind it. -/
def store (b : Thread) (ch : Char) : Thread :=
  { b with
    receivedStrs := (b.receivedStrs.set b.charOffset ch).set (b.charOffset + 1) '\x00'
    charOffset := b.charOffset + 1
    written := b.written ++ [b.charOffset, b.charOffset + 1] }

def clear (b : Thread) : Thread :=
  { b with receivedStrs := b.receivedStrs.set 0 '\x00', charOffset := 0, written := b.written ++ [0] }

/-- A byte has been read; `handle` is what the thread does with a line. -/
def receive (handle : Thread → Thread) (b : Thread) (ch : Char) : Thread :=
  if contains (text (store b ch).receivedStrs) crlf then clear (handle (store b ch)) else store b ch

/-- The line is a format for the console, and goes to both devices (`blue_test_uart3.c:50-54`). -/
def forward (b : Thread) : Thread :=
  { b with
    events := b.events ++ [.kprintf (text b.receivedStrs), .writeUart1 b.receivedStrs (sub 32 b.charOffset 1),
      .writeUart3 b.receivedStrs (sub 32 b.charOffset 1)] }

/-- The line is copied for the connect thread, if there is one (`NB101_uart1.c:63-67`); what the thread
does otherwise writes to no buffer. -/
def handOver (connectThread : Bool) (b : Thread) : Thread :=
  if connectThread = true then { b with copied := b.copied ++ List.range ((text b.receivedStrs).length + 1) } else b

/-- The loop of a thread, which deals with a line that ends with `a` by `handler a`. -/
def run {α : Type} (handler : α → Thread → Thread) (byte : α → Char) (inputs : List α) : Thread :=
  inputs.foldl (fun b a => receive (handler a) b (byte a)) init

/-- `my_usart3_thread_entry` on the bytes that it reads. -/
def usart3 (stream : List Char) : Thread := run (fun _ => forward) id stream

/-- `my_usart1_thread_entry` on the bytes that it reads. -/
def usart1 (inputs : List (Char × Bool)) : Thread := run (fun input => handOver input.2) Prod.fst inputs

def InBounds (b : Thread) : Prop := (∀ i ∈ b.written, i < 100) ∧ ∀ i ∈ b.copied, i < 100

/-! ### The unfinished line

Once a zero is in the buffer, `strstr` sees nothing behind it, and the line never ends. -/

def advance (line : List Char) (ch : Char) : List Char :=
  if crlf <:+: text (line ++ [ch]) then [] else line ++ [ch]

def unfinished (stream : List Char) : List Char := stream.foldl advance []

def LineStart (done : List Char) : Prop := (done = [] ∨ crlf <:+ done) ∧ '\x00' ∉ done

theorem unfinished_concat (stream : List Char) (ch : Char) :
    unfinished (stream ++ [ch]) = advance (unfinished stream) ch := by
  rw [unfinished, List.foldl_append]
  rfl

theorem text_mono (line rest : List Char) : text line <+: text (line ++ rest) := by
  by_cases h : '\x00' ∈ line
  · rw [text_append_of_mem h]
  · rw [text_of_notMem h, text_append_of_notMem h]
    exact List.prefix_append _ _

theorem crlf_suffix_of_ends {line : List Char} {ch : Char} (hline : ¬crlf <:+: text line)
    (h : crlf <:+: text (line ++ [ch])) : '\x00' ∉ line ++ [ch] ∧ crlf <:+ line ++ [ch] := by
  have hzero : '\x00' ∉ line := by
    intro hmem
    rw [text_append_of_mem hmem] at h
    exact hline h
  rw [text_of_notMem hzero] at hline
  have hch : '\x00' ∉ line ++ [ch] := by
    intro hmem
    have hlast := (List.mem_append.mp hmem).resolve_left hzero
    rw [List.mem_singleton] at hlast
    rw [← hlast, text_append_of_notMem hzero, show text ['\x00'] = [] from rfl, List.append_nil] at h
    exact hline h
  rw [text_of_notMem hch, crlf_infix_concat hline] at h
  exact ⟨hch, h⟩

theorem unfinished_spec (stream : List Char) :
    (∃ done, stream = done ++ unfinished stream ∧ LineStart done) ∧ ¬crlf <:+: text (unfinished stream) := by
  induction stream using List.reverseRecOn with
  | nil => exact ⟨⟨[], rfl, Or.inl rfl, List.not_mem_nil⟩, by decide⟩
  | append_singleton stream ch ih =>
    obtain ⟨⟨done, he, hstart, hzero⟩, hopen⟩ := ih
    rw [unfinished_concat, advance]
    split
    · rename_i hends
      obtain ⟨hzero', hsuffix⟩ := crlf_suffix_of_ends hopen hends
      refine ⟨⟨stream ++ [ch], (List.append_nil _).symm, Or.inr ?_, ?_⟩, by decide⟩
      · rw [he, List.append_assoc]
        exact hsuffix.trans (List.suffix_append _ _)
      · rw [he, List.append_assoc]
        intro hmem
        exact (List.mem_append.mp hmem).elim hzero hzero'
    · rename_i hends
      refine ⟨⟨done, ?_, hstart, hzero⟩, hends⟩
      rw [← List.append_assoc, ← he]

theorem unfinished_of_lineStart {done : List Char} (h : LineStart done) : unfinished done = [] := by
  obtain ⟨⟨before, he, hstart, -⟩, hopen⟩ := unfinished_spec done
  obtain ⟨hend, hzero⟩ := h
  have hzero' : '\x00' ∉ unfinished done := by
    intro hmem
    rw [he] at hzero
    exact hzero (List.mem_append_right _ hmem)
  rw [text_of_notMem hzero'] at hopen
  rcases hend with rfl | hend
  · rfl
  rw [he] at hend
  match hu : unfinished done with
  | [] => rfl
  | [x] =>
    rw [hu] at hend
    obtain ⟨t, ht⟩ := hend
    have hbefore : t ++ ['\r'] = before := by
      have hdrop := congrArg List.dropLast ht
      rwa [show t ++ crlf = t ++ ['\r'] ++ ['\n'] by rw [List.append_assoc]; rfl, List.dropLast_concat,
        List.dropLast_concat] at hdrop
    rw [← hbefore] at hstart
    rcases hstart with hnil | ⟨t', ht'⟩
    · exact absurd hnil (List.append_ne_nil_of_right_ne_nil _ (List.cons_ne_nil _ _))
    · have hlast := congrArg List.getLast? ht'
      rw [List.getLast?_append, List.getLast?_append] at hlast
      exact absurd (Option.some.inj hlast) (by decide)
  | x :: y :: line =>
    rw [hu] at hend hopen
    have hsuffix := List.suffix_of_suffix_length_le hend (List.suffix_append before _) (Nat.le_add_left _ _)
    exact absurd hsuffix.isInfix hopen

theorem unfinished_append {done line : List Char} (hstart : LineStart done) (hline : ¬crlf <:+: text line) :
    unfinished (done ++ line) = line := by
  induction line using List.reverseRecOn with
  | nil => rw [List.append_nil, unfinished_of_lineStart hstart]
  | append_singleton line ch ih =>
    have hbefore : ¬crlf <:+: text line := fun h => hline (h.trans (text_mono line [ch]).isInfix)
    rw [← List.append_assoc, unfinished_concat, ih hbefore, advance, if_neg hline]

/-! ### What is written -/

/-- From every start of a line that has no zero before it, fewer than 99 bytes without the end of a line are
followed by another byte; behind a zero, the end of a line does not count. -/
def Short (stream : List Char) : Prop :=
  ∀ done line ch rest, stream = done ++ line ++ ch :: rest → LineStart done → ¬crlf <:+: text line →
    line.length < 99

theorem short_iff_unfinished {stream : List Char} :
    Short stream ↔ ∀ before ch rest, stream = before ++ ch :: rest → (unfinished before).length < 99 := by
  constructor
  · intro h before ch rest he
    obtain ⟨⟨done, hdone, hstart⟩, hopen⟩ := unfinished_spec before
    exact h done (unfinished before) ch rest (by rw [← hdone, he]) hstart hopen
  · intro h done line ch rest he hstart hline
    have hlen := h (done ++ line) ch rest he
    rwa [unfinished_append hstart hline] at hlen

theorem short_nil : Short [] := by
  intro done line ch rest he
  exact absurd he.symm (List.append_ne_nil_of_right_ne_nil _ (List.cons_ne_nil _ _))

theorem short_concat {stream : List Char} {ch : Char} :
    Short (stream ++ [ch]) ↔ Short stream ∧ (unfinished stream).length < 99 := by
  simp only [short_iff_unfinished]
  constructor
  · intro h
    refine ⟨fun before ch' rest he => h before ch' (rest ++ [ch]) ?_, h stream ch [] rfl⟩
    rw [he, List.append_assoc, List.cons_append]
  · rintro ⟨hshort, hlen⟩ before ch' rest he
    rcases List.eq_nil_or_concat rest with rfl | ⟨rest, ch'', rfl⟩
    · rw [List.append_singleton_inj] at he
      rwa [← he.1]
    · rw [List.concat_eq_append, ← List.cons_append, ← List.append_assoc, List.append_singleton_inj] at he
      exact hshort before ch' rest he.1

/-- The buffer holds the bytes of the line, with a zero behind them. -/
structure Filled (b : Thread) (line : List Char) : Prop where
  size : b.receivedStrs.length = 100
  holds : Holds b.receivedStrs line
  offset : b.charOffset = line.length

/-- What a thread does with a line leaves its buffer as it is. -/
structure Keeps (handle : Thread → Thread) : Prop where
  filled : ∀ {b line}, Filled b line → Filled (handle b) line
  inBounds : ∀ {b line}, Filled b line → (InBounds (handle b) ↔ InBounds b)
  of_handle : ∀ {b}, InBounds (handle b) → InBounds b

variable {b : Thread} {line : List Char} {ch : Char} {handle : Thread → Thread}

theorem init_filled : Filled init [] where
  size := List.length_replicate
  holds := ⟨List.replicate 99 '\x00', rfl⟩
  offset := rfl

theorem init_inBounds : InBounds init :=
  ⟨fun _ hi => absurd hi List.not_mem_nil, fun _ hi => absurd hi List.not_mem_nil⟩

theorem store_inBounds (ch : Char) : InBounds (store b ch) ↔ InBounds b ∧ b.charOffset < 99 := by
  simp only [InBounds, store, List.mem_append, List.mem_cons, List.not_mem_nil, or_false]
  constructor
  · rintro ⟨hwritten, hcopied⟩
    have hlast := hwritten (b.charOffset + 1) (Or.inr (Or.inr rfl))
    exact ⟨⟨fun i hi => hwritten i (Or.inl hi), hcopied⟩, by omega⟩
  · rintro ⟨⟨hwritten, hcopied⟩, hroom⟩
    refine ⟨fun i hi => ?_, hcopied⟩
    rcases hi with hi | rfl | rfl
    · exact hwritten i hi
    all_goals omega

theorem clear_inBounds : InBounds (clear b) ↔ InBounds b := by
  simp only [InBounds, clear, List.mem_append, List.mem_singleton]
  constructor
  · rintro ⟨hwritten, hcopied⟩
    exact ⟨fun i hi => hwritten i (Or.inl hi), hcopied⟩
  · rintro ⟨hwritten, hcopied⟩
    refine ⟨fun i hi => ?_, hcopied⟩
    rcases hi with hi | rfl
    · exact hwritten i hi
    · decide

theorem Filled.store (h : Filled b line) (ch : Char) (hroom : line.length < 99) : Filled (store b ch) (line ++ [ch]) where
  size := by rw [LineBuffer.store, List.length_set, List.length_set, h.size]
  holds := by
    have hstored := h.holds.store ch (by rw [h.size]; omega)
    rwa [← h.offset] at hstored
  offset := by rw [LineBuffer.store, h.offset, List.length_append, List.length_singleton]

theorem Filled.clear (h : Filled b line) : Filled (clear b) [] where
  size := by rw [LineBuffer.clear, List.length_set, h.size]
  holds := holds_nil (List.ne_nil_of_length_pos (by rw [h.size]; decide))
  offset := rfl

theorem Filled.text_eq (h : Filled b line) : text b.receivedStrs = text line := h.holds.text_text

theorem Filled.receive (h : Filled b line) (hkeeps : Keeps handle) (hroom : line.length < 99) :
    Filled (receive handle b ch) (advance line ch) := by
  have hstored := h.store ch hroom
  simp only [LineBuffer.receive, advance, contains, hstored.text_eq]
  split
  · exact (hkeeps.filled hstored).clear
  · exact hstored

theorem receive_inBounds (h : Filled b line) (hkeeps : Keeps handle) :
    InBounds (receive handle b ch) ↔ InBounds b ∧ line.length < 99 := by
  rw [← h.offset, ← store_inBounds ch, receive]
  split
  · rw [clear_inBounds]
    constructor
    · exact hkeeps.of_handle
    · intro hstored
      have hroom := ((store_inBounds ch).mp hstored).2
      rw [h.offset] at hroom
      exact (hkeeps.inBounds (h.store ch hroom)).mpr hstored
  · exact Iff.rfl

theorem inBounds_of_receive (hkeeps : Keeps handle) (h : InBounds (receive handle b ch)) : InBounds b := by
  rw [receive] at h
  split at h
  · exact ((store_inBounds ch).mp (hkeeps.of_handle (clear_inBounds.mp h))).1
  · exact ((store_inBounds ch).mp h).1

theorem run_concat {α : Type} {handler : α → Thread → Thread} {byte : α → Char} (inputs : List α) (a : α) :
    run handler byte (inputs ++ [a]) = receive (handler a) (run handler byte inputs) (byte a) := by
  rw [run, List.foldl_append]
  rfl

theorem run_inBounds {α : Type} {handler : α → Thread → Thread} (byte : α → Char) (hkeeps : ∀ a, Keeps (handler a))
    (inputs : List α) :
    (InBounds (run handler byte inputs) → Filled (run handler byte inputs) (unfinished (inputs.map byte))) ∧
    (InBounds (run handler byte inputs) ↔ Short (inputs.map byte)) := by
  induction inputs using List.reverseRecOn with
  | nil => exact ⟨fun _ => init_filled, iff_of_true init_inBounds short_nil⟩
  | append_singleton inputs a ih =>
    obtain ⟨hfilled, hshort⟩ := ih
    rw [run_concat, List.map_append, List.map_singleton, unfinished_concat, short_concat, ← hshort]
    constructor
    · intro h
      have hb := inBounds_of_receive (hkeeps a) h
      exact (hfilled hb).receive (hkeeps a) ((receive_inBounds (hfilled hb) (hkeeps a)).mp h).2
    · constructor
      · intro h
        exact (receive_inBounds (hfilled (inBounds_of_receive (hkeeps a) h)) (hkeeps a)).mp h
      · intro h
        exact (receive_inBounds (hfilled h.1) (hkeeps a)).mpr h

theorem forward_keeps : Keeps forward where
  filled h := ⟨h.size, h.holds, h.offset⟩
  inBounds _ := Iff.rfl
  of_handle h := h

theorem handOver_inBounds : InBounds (handOver true b) ↔
    InBounds b ∧ ∀ i ∈ List.range ((text b.receivedStrs).length + 1), i < 100 := by
  simp only [InBounds, handOver, if_true, List.forall_mem_append, and_assoc]

theorem handOver_keeps (connectThread : Bool) : Keeps (handOver connectThread) := by
  cases connectThread with
  | false => exact ⟨fun h => h, fun _ => Iff.rfl, fun h => h⟩
  | true =>
    refine ⟨fun h => ⟨h.size, h.holds, h.offset⟩, fun {b line} h => ?_, fun h => (handOver_inBounds.mp h).1⟩
    refine handOver_inBounds.trans (and_iff_left fun i hi => ?_)
    have htext : (text line).length ≤ line.length := (List.takeWhile_prefix _).length_le
    have hline := h.holds.length_lt
    rw [h.text_eq, List.mem_range] at hi
    rw [h.size] at hline
    omega

/-- On every stream of bytes, each of the threads stays inside the buffers exactly when every line of the
stream up to its first zero, and what follows the last of them, is short enough. -/
theorem line_buffers_in_bounds_iff (stream : List Char) (inputs : List (Char × Bool)) :
    (InBounds (usart3 stream) ↔ Short stream) ∧ (InBounds (usart1 inputs) ↔ Short (inputs.map Prod.fst)) := by
  have h3 := (run_inBounds id (fun _ => forward_keeps) stream).2
  have h1 := (run_inBounds Prod.fst (fun input => handOver_keeps input.2) inputs).2
  rw [List.map_id] at h3
  exact ⟨h3, h1⟩

/-- 100 bytes without the end of a line; and a zero, which hides the ends of the lines behind it. -/
theorem long_line_overflows : ¬InBounds (usart3 (List.replicate 100 'a')) ∧
    ¬InBounds (usart1 (List.replicate 100 ('a', true))) ∧
    ¬InBounds (usart3 ('\x00' :: (List.replicate 50 crlf).flatten)) := by
  have hletters : ¬Short (List.replicate 100 'a') := by
    intro h
    refine absurd (h [] (List.replicate 99 'a') 'a' [] rfl ⟨Or.inl rfl, List.not_mem_nil⟩ fun hends => ?_) (by decide)
    have hmem := (hends.trans (List.takeWhile_prefix _).isInfix).subset (List.mem_cons_self : '\r' ∈ crlf)
    exact absurd (List.eq_of_mem_replicate hmem) (by decide)
  have hzero : ¬Short ('\x00' :: (List.replicate 50 crlf).flatten) := by
    intro h
    exact absurd (h [] ('\x00' :: (List.replicate 49 crlf).flatten) '\r' ['\n'] (by decide)
      ⟨Or.inl rfl, List.not_mem_nil⟩ (by decide)) (by decide)
  refine ⟨fun h => hletters ?_, fun h => hletters ?_, fun h => hzero ?_⟩
  · exact ((run_inBounds id (fun _ => forward_keeps) _).2.mp h)
  · have hshort := (run_inBounds Prod.fst (fun input => handOver_keeps input.2) _).2.mp h
    rwa [List.map_replicate] at hshort
  · exact ((run_inBounds id (fun _ => forward_keeps) _).2.mp h)

end RtThread.Nb101.LineBuffer
