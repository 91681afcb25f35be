import RtThread.Ipc.Mailbox

/-!
# Runs of threads on a mailbox

The mailbox is a bounded queue, and no wake-up is lost: as long as a thread waits on a
side, at least as many threads have been woken on that side, and have not checked again
yet, as there are mails (for receivers) or free cells (for senders).
-/

namespace RtThread.Ipc.Mailbox

open RtThread.Lib RtThread.Lib.Word RtThread.Lib.Transition RtThread.Ipc.Base

variable {T V : Type*}

/-- How many calls of a side can go through now. -/
def RtMailbox.slack (mb : RtMailbox T V) : Side → ℕ
  | .receiver => mb.entry
  | .sender => mb.size - mb.entry

def Sys.calls (s : Sys T V) (t : T) (side : Side) : Prop :=
  ∃ f, s.frame t = some f ∧ f.call.side = side

/-- The thread was made ready by a send or a receive and has not checked again yet. -/
def Sys.woken (s : Sys T V) (t : T) (side : Side) : Prop :=
  s.calls t side ∧ s.state.suspended t = false ∧ (s.state.thread t).error = .eok

structure RingOk (mb : RtMailbox T V) (accepted received : List V) : Prop where
  size_pos : 0 < mb.size
  size_lt : mb.size < 2 ^ 16
  entry_le : mb.entry ≤ mb.size
  out_lt : mb.outOffset < mb.size
  in_eq : mb.inOffset = (mb.outOffset + mb.entry) % mb.size
  fifo : accepted = received ++ Ring.contents mb.msgPool mb.size mb.outOffset mb.entry

structure Inv (s : Sys T V) : Prop where
  ring : RingOk s.state.mb s.accepted s.received
  nodup : ∀ side, (s.state.mb.suspend side).Nodup
  waiting : ∀ side, ∀ t ∈ s.state.mb.suspend side,
    s.calls t side ∧ s.state.suspended t = true ∧ (s.state.thread t).error = .eok
  wakes : ∀ side, s.state.mb.suspend side ≠ [] → ∃ ws : List T, ws.Nodup ∧
    (∀ t ∈ ws, s.woken t side) ∧ s.state.mb.slack side ≤ ws.length

/-! ### The ring -/

theorem RingOk.lists {mb : RtMailbox T V} {accepted received : List V}
    (h : RingOk mb accepted received) (suspend : Side → List T) :
    RingOk { mb with suspend := suspend } accepted received :=
  ⟨h.size_pos, h.size_lt, h.entry_le, h.out_lt, h.in_eq, h.fifo⟩

theorem RingOk.store {mb : RtMailbox T V} {accepted received : List V}
    (h : RingOk mb accepted received) (hfull : mb.entry ≠ mb.size) (v : V) :
    RingOk { mb with
      msgPool := Function.update mb.msgPool mb.inOffset v
      inOffset := if mb.size ≤ inc 16 mb.inOffset then 0 else inc 16 mb.inOffset
      entry := inc 16 mb.entry } (accepted ++ [v]) received := by
  have hlt : mb.entry < mb.size := lt_of_le_of_ne h.entry_le hfull
  have hin : mb.inOffset < mb.size := by
    rw [h.in_eq]
    exact Nat.mod_lt _ h.size_pos
  have hsize := h.size_lt
  have hinc : inc 16 mb.entry = mb.entry + 1 := inc_of_lt (by omega)
  have hinc' : inc 16 mb.inOffset = mb.inOffset + 1 := inc_of_lt (by omega)
  rw [hinc, hinc']
  refine ⟨h.size_pos, h.size_lt, hlt, h.out_lt, ?_, ?_⟩
  · show Ring.next mb.size mb.inOffset = _
    rw [h.in_eq]
    exact Ring.next_add h.size_pos
  · show accepted ++ [v] = received ++ Ring.contents (Function.update mb.msgPool mb.inOffset v)
      mb.size mb.outOffset (mb.entry + 1)
    rw [h.in_eq, Ring.contents_push mb.msgPool hlt, h.fifo, List.append_assoc]

theorem RingOk.take {mb : RtMailbox T V} {accepted received : List V}
    (h : RingOk mb accepted received) (hempty : mb.entry ≠ 0) :
    RingOk { mb with
      outOffset := if mb.size ≤ inc 16 mb.outOffset then 0 else inc 16 mb.outOffset
      entry := dec 16 mb.entry } accepted (received ++ [mb.msgPool mb.outOffset]) := by
  obtain ⟨n, hn⟩ := Nat.exists_eq_succ_of_ne_zero hempty
  have hsize := h.size_lt
  have hout := h.out_lt
  have hentry := h.entry_le
  have hdec : dec 16 mb.entry = n := by
    rw [dec_of_pos (by omega)]
    omega
  have hinc : inc 16 mb.outOffset = mb.outOffset + 1 := inc_of_lt (by omega)
  rw [hdec, hinc]
  refine ⟨h.size_pos, h.size_lt, ?_, Ring.next_lt h.out_lt, ?_, ?_⟩
  · show n ≤ mb.size
    omega
  · show mb.inOffset = (Ring.next mb.size mb.outOffset + n) % mb.size
    rw [h.in_eq, Ring.next_eq_mod h.out_lt, Nat.mod_add_mod, hn, Nat.succ_eq_add_one]
    congr 1
    omega
  · show accepted = received ++ [mb.msgPool mb.outOffset] ++
      Ring.contents mb.msgPool mb.size (Ring.next mb.size mb.outOffset) n
    rw [h.fifo, hn, Ring.contents_cons mb.msgPool h.out_lt, List.append_assoc]
    rfl

/-! ### What a step can do -/

variable [DecidableEq T]

/-- The thread can run: it is outside of a call, or ready again in one. -/
def Sys.running (s : Sys T V) (t : T) : Prop := s.frame t = none ∨ s.state.suspended t = false

/-- After a call of thread `t` has gone through, or a send from an interrupt, that makes a
thread of the side `side` ready: at most `t` has left its call, and not one of that side. -/
def Leaves (s : Sys T V) (t : T) (side : Side) (frame : T → Option (Frame V)) : Prop :=
  (∀ u, u ≠ t → frame u = s.frame u) ∧
    (frame t = s.frame t ∨ frame t = none ∧ s.running t ∧ ¬s.calls t side)

inductive Effect (s : Sys T V) : Sys T V → Prop where
  | store {t v frame} (hleave : Leaves s t .receiver frame) (hfull : s.state.mb.entry ≠ s.state.mb.size) :
      Effect s { s with state := rtMbStore s.state v, frame := frame, accepted := s.accepted ++ [v] }
  | take {t frame} (hleave : Leaves s t .sender frame) (hempty : s.state.mb.entry ≠ 0) :
      Effect s { s with state := rtMbTake s.state, frame := frame,
                        received := s.received ++ [s.state.mb.msgPool s.state.mb.outOffset] }
  | wait {t call timeout tickDelta} (hrun : s.running t)
      (hside : ∀ side, s.calls t side → side = call.side)
      (hblocked : s.state.mb.slack call.side = 0) :
      Effect s { s with state := suspendOn (s.state.setError t .eok) call.side t timeout,
                        frame := Function.update s.frame t (some ⟨call, timeout, tickDelta⟩) }
  | leave {t thread} (hrun : s.running t)
      (hlast : ∀ side, s.woken t side → s.state.mb.slack side = 0)
      (hthread : ∀ u, u ≠ t → thread u = s.state.thread u) :
      Effect s { s with state := { s.state with thread := thread },
                        frame := Function.update s.frame t none }
  | timeout {t} (hsusp : s.state.suspended t = true) :
      Effect s { s with state := rtThreadTimeout s.state t }
  | tick {tick} : Effect s { s with state := { s.state with tick := tick } }

theorem send_leaves {s : Sys T V} {t : T} (hrun : s.running t)
    (hside : ∀ side, s.calls t side → side = .sender) :
    Leaves s t .receiver (Function.update s.frame t none) :=
  ⟨fun _ hu => Function.update_of_ne hu _ _,
    Or.inr ⟨Function.update_self .., hrun, fun hc => nomatch hside _ hc⟩⟩

theorem recv_leaves {s : Sys T V} {t : T} (hrun : s.running t)
    (hside : ∀ side, s.calls t side → side = .receiver) :
    Leaves s t .sender (Function.update s.frame t none) :=
  ⟨fun _ hu => Function.update_of_ne hu _ _,
    Or.inr ⟨Function.update_self .., hrun, fun hc => nomatch hside _ hc⟩⟩

theorem setError_of_ne (s : State T V) {t u : T} (hu : u ≠ t) (e : RtErr) :
    (s.setError t e).thread u = s.thread u := Function.update_of_ne hu _ _

theorem pass_effect {s : Sys T V} {t : T} {call : Call V} (timeout : ℤ) (tickDelta : ℕ)
    (hrun : s.running t) (hside : ∀ side, s.calls t side → side = call.side) :
    Effect s (s.record t call timeout (call.pass s.state t timeout tickDelta)) := by
  cases call with
  | send v =>
    simp only [Call.pass, rtMbSendPass]
    split
    · rename_i hfull
      have hslack : s.state.mb.slack .sender = 0 := by simp [RtMailbox.slack, hfull]
      split
      · refine Effect.leave hrun (fun side hw => ?_) fun u hu => setError_of_ne _ hu _
        rw [hside side hw.1]
        exact hslack
      · exact Effect.wait hrun hside hslack
    · rename_i hfull
      exact Effect.store (send_leaves hrun hside) hfull
  | recv =>
    simp only [Call.pass, rtMbRecvPass]
    split
    · rename_i hempty
      have hslack : s.state.mb.slack .receiver = 0 := hempty
      split
      · refine Effect.leave hrun (fun side hw => ?_) fun u hu => ?_
        · rw [hside side hw.1]
          exact hslack
        · exact (setError_of_ne _ hu _).trans (setError_of_ne _ hu _)
      · exact Effect.wait hrun hside hslack
    · rename_i hempty
      exact Effect.take (recv_leaves hrun hside) hempty

theorem first_effect {s : Sys T V} {t : T} (call : Call V) (timeout : ℤ) (hidle : s.frame t = none) :
    Effect s (s.record t call timeout (call.first s.state t timeout)) := by
  have hno : ∀ side, ¬s.calls t side := by
    rintro side ⟨f, hf, -⟩
    rw [hidle] at hf
    cases hf
  have hpass : ∀ timeout, Effect s (s.record t call timeout (call.pass s.state t timeout 0)) :=
    fun timeout => pass_effect timeout 0 (Or.inl hidle) fun side hc => absurd hc (hno side)
  have hleave := Effect.leave (Or.inl hidle) (fun side hw => absurd hw.1 (hno side)) fun _ _ => rfl
  cases call with
  | send v =>
    simp only [Call.first, rtMbSendWait]
    split
    · exact hleave
    · exact hpass timeout
  | recv =>
    simp only [Call.first, rtMbRecv]
    split
    · exact hleave
    · exact hpass timeout

theorem interruptSend_effect {s s' : Sys T V} {t : T} {v : V}
    (h : step s (.interruptSend t v) = some s') : Effect s s' := by
  simp only [step, rtMbSend, rtMbSendWait, rtMbSendPass, and_true] at h
  by_cases hfull : s.state.mb.entry = s.state.mb.size
  · simp only [if_pos hfull, Option.some.injEq] at h
    subst h
    exact Effect.tick
  · simp only [if_neg hfull, Option.some.injEq] at h
    subst h
    exact Effect.store (t := t) ⟨fun _ _ => rfl, Or.inl rfl⟩ hfull

theorem resume_effect {s s' : Sys T V} {t : T} (h : step s (.resume t) = some s') : Effect s s' := by
  simp only [step] at h
  split at h
  · cases h
  · rename_i f hf
    split at h
    · cases h
    · rename_i hsusp
      have hrun : s.running t := Or.inr (Bool.not_eq_true _ ▸ hsusp)
      have hside : ∀ side, s.calls t side → side = f.call.side := by
        rintro side ⟨f', hf', rfl⟩
        rw [hf] at hf'
        cases hf'
        rfl
      split at h
      · rename_i herr
        simp only [Option.some.injEq] at h
        subst h
        have hleave := Effect.leave hrun (fun side hw => absurd hw.2.2 herr) fun _ _ => rfl
        unfold Sys.record
        split
        · rename_i heq _
          exact absurd (Outcome.returned.inj heq) herr
        · exact hleave
        · rename_i heq
          cases heq
        · rename_i heq
          cases heq
      · simp only [Option.some.injEq] at h
        subst h
        exact pass_effect _ _ hrun hside

theorem step_effect {s s' : Sys T V} {a : Act T V} (h : step s a = some s') : Effect s s' := by
  cases a with
  | call t call timeout =>
    simp only [step] at h
    split at h
    · cases h
    · rename_i hidle
      cases h
      exact first_effect call timeout hidle
  | resume t => exact resume_effect h
  | interruptSend t v => exact interruptSend_effect h
  | timeout t =>
    simp only [step, Option.ite_none_right_eq_some, Option.some.injEq] at h
    obtain ⟨⟨hsusp, -⟩, rfl⟩ := h
    exact Effect.timeout hsusp
  | tick =>
    cases h
    exact Effect.tick

/-! ### The invariant -/

omit [DecidableEq T] in
theorem Inv.not_mem {s : Sys T V} (h : Inv s) {t : T} (hrun : s.running t) (side : Side) :
    t ∉ s.state.mb.suspend side := by
  intro hmem
  obtain ⟨⟨f, hf, -⟩, hsusp, -⟩ := h.waiting side t hmem
  rcases hrun with hidle | hready
  · rw [hidle] at hf
    cases hf
  · rw [hready] at hsusp
    cases hsusp

omit [DecidableEq T] in
theorem Inv.side_unique {s : Sys T V} (h : Inv s) {t : T} {side d : Side}
    (hm : t ∈ s.state.mb.suspend side) (hn : t ∈ s.state.mb.suspend d) : d = side := by
  obtain ⟨⟨f, hf, rfl⟩, -⟩ := h.waiting side t hm
  obtain ⟨⟨f', hf', rfl⟩, -⟩ := h.waiting d t hn
  rw [hf] at hf'
  cases hf'
  rfl

omit [DecidableEq T] in
theorem Leaves.frame_eq {s : Sys T V} (h : Inv s) {t : T} {side : Side} {frame : T → Option (Frame V)}
    (hl : Leaves s t side frame) {d : Side} {u : T} (hu : u ∈ s.state.mb.suspend d) :
    frame u = s.frame u := by
  by_cases hut : u = t
  · subst hut
    rcases hl.2 with hsame | ⟨-, hrun, -⟩
    · exact hsame
    · exact absurd hu (h.not_mem hrun d)
  · exact hl.1 u hut

omit [DecidableEq T] in
theorem Leaves.frame_eq_of_calls {s : Sys T V} {t : T} {side : Side} {frame : T → Option (Frame V)}
    (hl : Leaves s t side frame) {u : T} (hu : s.calls u side) : frame u = s.frame u := by
  by_cases hut : u = t
  · subst hut
    rcases hl.2 with hsame | ⟨-, -, hno⟩
    · exact hsame
    · exact absurd hu hno
  · exact hl.1 u hut

omit [DecidableEq T] in
theorem calls_congr {s s' : Sys T V} {t : T} {side : Side} (h : s'.frame t = s.frame t)
    (hc : s.calls t side) : s'.calls t side := by
  obtain ⟨f, hf, hside⟩ := hc
  exact ⟨f, h.trans hf, hside⟩

theorem wakes_erase {s : Sys T V} {side : Side} {ws : List T} (hnd : ws.Nodup)
    (hws : ∀ u ∈ ws, s.woken u side) (t : T) :
    (ws.erase t).Nodup ∧ (∀ u ∈ ws.erase t, u ≠ t ∧ s.woken u side) ∧
      ws.length ≤ (ws.erase t).length + 1 := by
  refine ⟨hnd.erase t, fun u hu => ?_, ?_⟩
  · obtain ⟨hut, hmem⟩ := hnd.mem_erase_iff.mp hu
    exact ⟨hut, hws u hmem⟩
  · have := List.length_erase_add_one (a := t) (l := ws)
    by_cases hmem : t ∈ ws
    · rw [this hmem]
    · rw [List.erase_of_not_mem hmem]
      omega

/-- A call goes through: the side `side` gets one more mail or cell, and a wake-up when a
thread waits there; the other side has one less. -/
theorem Inv.pass {s : Sys T V} (h : Inv s) {t : T} {side : Side} {frame : T → Option (Frame V)}
    (hl : Leaves s t side frame) {mb : RtMailbox T V} {accepted received : List V}
    (hsusp : mb.suspend = s.state.mb.suspend) (hslack : mb.slack side = s.state.mb.slack side + 1)
    (hother : ∀ d, d ≠ side → mb.slack d + 1 = s.state.mb.slack d)
    (hring : RingOk mb accepted received) :
    Inv ⟨resumeOne { s.state with mb := mb } side, frame, accepted, received⟩ := by
  cases hlist : s.state.mb.suspend side with
  | nil =>
    have heq : resumeOne { s.state with mb := mb } side = { s.state with mb := mb } := by
      simp only [resumeOne, hsusp, hlist]
    rw [heq]
    refine ⟨hring, ?_, fun d u hu => ?_, fun d hd => ?_⟩
    · simpa only [hsusp] using h.nodup
    · simp only [hsusp] at hu
      obtain ⟨hc, hrest⟩ := h.waiting d u hu
      exact ⟨calls_congr (hl.frame_eq h hu) hc, hrest⟩
    · simp only [hsusp] at hd
      have hne : d ≠ side := by
        rintro rfl
        exact hd hlist
      obtain ⟨ws, hnd, hws, hle⟩ := h.wakes d hd
      obtain ⟨hnd', hws', hlen⟩ := wakes_erase hnd hws t
      refine ⟨ws.erase t, hnd', fun u hu => ?_, ?_⟩
      · obtain ⟨hut, hc, hrest⟩ := hws' u hu
        exact ⟨calls_congr (hl.1 u hut) hc, hrest⟩
      · have := hother d hne
        show mb.slack d ≤ _
        omega
  | cons w rest =>
    have hw : w ∈ s.state.mb.suspend side := by
      rw [hlist]
      exact List.mem_cons_self
    obtain ⟨hwcalls, hwsusp, hwerr⟩ := h.waiting side w hw
    have hnd := h.nodup side
    rw [hlist, List.nodup_cons] at hnd
    have heq : resumeOne { s.state with mb := mb } side =
        { s.state with
          mb := { mb with suspend := Function.update s.state.mb.suspend side rest }
          thread := Function.update s.state.thread w (s.state.thread w).resume
          suspended := Function.update s.state.suspended w false } := by
      simp only [resumeOne, hsusp, hlist]
    rw [heq]
    have herr : ∀ u, (Function.update s.state.thread w (s.state.thread w).resume u).error =
        (s.state.thread u).error := by
      intro u
      by_cases huw : u = w
      · simp [huw, Thread.resume]
      · simp [huw]
    have hmem : ∀ d u, u ∈ Function.update s.state.mb.suspend side rest d →
        u ≠ w ∧ u ∈ s.state.mb.suspend d := by
      intro d u hu
      by_cases hd : d = side
      · subst hd
        rw [Function.update_self] at hu
        refine ⟨?_, by rw [hlist]; exact List.mem_cons_of_mem _ hu⟩
        rintro rfl
        exact hnd.1 hu
      · rw [Function.update_of_ne hd] at hu
        refine ⟨?_, hu⟩
        rintro rfl
        exact hd (h.side_unique hw hu)
    have hwoken : ∀ d u, frame u = s.frame u → s.woken u d →
        Sys.woken ⟨{ s.state with
          mb := { mb with suspend := Function.update s.state.mb.suspend side rest }
          thread := Function.update s.state.thread w (s.state.thread w).resume
          suspended := Function.update s.state.suspended w false }, frame, accepted, received⟩ u d := by
      rintro d u hf ⟨hc, hready, he⟩
      refine ⟨calls_congr hf hc, ?_, (herr u).trans he⟩
      by_cases huw : u = w
      · rw [huw]
        exact Function.update_self ..
      · exact (Function.update_of_ne huw _ _).trans hready
    refine ⟨hring.lists _, fun d => ?_, fun d u hu => ?_, fun d hd => ?_⟩
    · by_cases hd : d = side
      · subst hd
        simpa only [Function.update_self] using hnd.2
      · simpa only [Function.update_of_ne hd] using h.nodup d
    · obtain ⟨huw, hu⟩ := hmem d u hu
      obtain ⟨hc, hs, he⟩ := h.waiting d u hu
      exact ⟨calls_congr (hl.frame_eq h hu) hc, (Function.update_of_ne huw _ _).trans hs,
        (herr u).trans he⟩
    · by_cases hds : d = side
      · subst hds
        obtain ⟨ws, hndw, hws, hle⟩ := h.wakes d (by rw [hlist]; exact List.cons_ne_nil _ _)
        have hwnot : w ∉ ws := fun hm => by
          have := (hws w hm).2.1
          rw [hwsusp] at this
          cases this
        refine ⟨w :: ws, List.nodup_cons.mpr ⟨hwnot, hndw⟩, fun u hu => ?_, ?_⟩
        · rcases List.mem_cons.mp hu with rfl | hu
          · exact ⟨calls_congr (hl.frame_eq h hw) hwcalls, Function.update_self ..,
              (herr u).trans hwerr⟩
          · exact hwoken d u (hl.frame_eq_of_calls (hws u hu).1) (hws u hu)
        · show mb.slack d ≤ _
          rw [List.length_cons]
          omega
      · have hd' : s.state.mb.suspend d ≠ [] := by
          simpa only [Function.update_of_ne hds] using hd
        obtain ⟨ws, hndw, hws, hle⟩ := h.wakes d hd'
        obtain ⟨hnd', hws', hlen⟩ := wakes_erase hndw hws t
        refine ⟨ws.erase t, hnd', fun u hu => ?_, ?_⟩
        · exact hwoken d u (hl.1 u (hws' u hu).1) (hws' u hu).2
        · have := hother d hds
          show mb.slack d ≤ _
          omega

theorem Inv.wait {s : Sys T V} (h : Inv s) {t : T} {call : Call V} {timeout : ℤ} {tickDelta : ℕ}
    (hrun : s.running t) (hside : ∀ side, s.calls t side → side = call.side)
    (hblocked : s.state.mb.slack call.side = 0) :
    Inv { s with state := suspendOn (s.state.setError t .eok) call.side t timeout,
                 frame := Function.update s.frame t (some ⟨call, timeout, tickDelta⟩) } := by
  have hothers : ∀ {u}, u ≠ t →
      (suspendOn (s.state.setError t .eok) call.side t timeout).suspended u = s.state.suspended u ∧
      ((suspendOn (s.state.setError t .eok) call.side t timeout).thread u).error =
        (s.state.thread u).error := by
    intro u hu
    exact ⟨Function.update_of_ne hu _ _, by simp [suspendOn, hu, setError_of_ne]⟩
  refine ⟨h.ring.lists _, fun d => ?_, fun d u hu => ?_, fun d hd => ?_⟩
  · by_cases hd : d = call.side
    · rw [hd]
      simp only [suspendOn, Function.update_self]
      exact nodup_rtIpcListSuspend.mpr ⟨h.not_mem hrun _, h.nodup _⟩
    · simpa only [suspendOn, State.setError, Function.update_of_ne hd] using h.nodup d
  · by_cases hut : u = t
    · subst hut
      have hd : d = call.side := by
        by_contra hd
        simp only [suspendOn, Function.update_of_ne hd] at hu
        exact h.not_mem hrun d hu
      refine ⟨⟨_, Function.update_self .., hd.symm⟩, Function.update_self .., ?_⟩
      simp [suspendOn, State.setError, Thread.suspend]
    · have hold : u ∈ s.state.mb.suspend d := by
        by_cases hd : d = call.side
        · rw [hd] at hu ⊢
          simp only [suspendOn, Function.update_self] at hu
          exact (mem_rtIpcListSuspend.mp hu).resolve_left hut
        · simpa only [suspendOn, State.setError, Function.update_of_ne hd] using hu
      obtain ⟨hc, hs, he⟩ := h.waiting d u hold
      exact ⟨calls_congr (Function.update_of_ne hut _ _) hc, (hothers hut).1.trans hs,
        (hothers hut).2.trans he⟩
  · by_cases hds : d = call.side
    · exact ⟨[], List.nodup_nil, nofun, by rw [hds]; exact hblocked.le⟩
    · simp only [suspendOn, Function.update_of_ne hds] at hd
      obtain ⟨ws, hnd, hws, hle⟩ := h.wakes d hd
      refine ⟨ws, hnd, fun u hu => ?_, hle⟩
      have hut : u ≠ t := by
        rintro rfl
        exact hds (hside d (hws u hu).1)
      obtain ⟨hc, hs, he⟩ := hws u hu
      exact ⟨calls_congr (Function.update_of_ne hut _ _) hc, (hothers hut).1.trans hs,
        (hothers hut).2.trans he⟩

theorem Inv.leave {s : Sys T V} (h : Inv s) {t : T} {thread : T → Thread} (hrun : s.running t)
    (hlast : ∀ side, s.woken t side → s.state.mb.slack side = 0)
    (hthread : ∀ u, u ≠ t → thread u = s.state.thread u) :
    Inv { s with state := { s.state with thread := thread },
                 frame := Function.update s.frame t none } := by
  refine ⟨h.ring, h.nodup, fun d u hu => ?_, fun d hd => ?_⟩
  · have hut : u ≠ t := by
      rintro rfl
      exact h.not_mem hrun d hu
    obtain ⟨hc, hs, he⟩ := h.waiting d u hu
    exact ⟨calls_congr (Function.update_of_ne hut _ _) hc, hs,
      (congrArg Thread.error (hthread u hut)).trans he⟩
  · obtain ⟨ws, hnd, hws, hle⟩ := h.wakes d hd
    by_cases hmem : t ∈ ws
    · exact ⟨[], List.nodup_nil, nofun, (hlast d (hws t hmem)).le⟩
    · refine ⟨ws, hnd, fun u hu => ?_, hle⟩
      have hut : u ≠ t := by
        rintro rfl
        exact hmem hu
      obtain ⟨hc, hs, he⟩ := hws u hu
      exact ⟨calls_congr (Function.update_of_ne hut _ _) hc, hs,
      (congrArg Thread.error (hthread u hut)).trans he⟩

theorem Inv.timeout {s : Sys T V} (h : Inv s) {t : T} (hsusp : s.state.suspended t = true) :
    Inv { s with state := rtThreadTimeout s.state t } := by
  have hothers : ∀ {u}, u ≠ t → (rtThreadTimeout s.state t).suspended u = s.state.suspended u ∧
      (rtThreadTimeout s.state t).thread u = s.state.thread u :=
    fun hu => ⟨Function.update_of_ne hu _ _, Function.update_of_ne hu _ _⟩
  refine ⟨h.ring.lists _, fun d => (h.nodup d).erase t, fun d u hu => ?_, fun d hd => ?_⟩
  · obtain ⟨hut, hu⟩ := (h.nodup d).mem_erase_iff.mp hu
    obtain ⟨hc, hs, he⟩ := h.waiting d u hu
    exact ⟨hc, (hothers hut).1.trans hs, (congrArg Thread.error (hothers hut).2).trans he⟩
  · have hne : s.state.mb.suspend d ≠ [] := by
      intro hnil
      simp [rtThreadTimeout, hnil] at hd
    obtain ⟨ws, hnd, hws, hle⟩ := h.wakes d hne
    refine ⟨ws, hnd, fun u hu => ?_, hle⟩
    obtain ⟨hc, hs, he⟩ := hws u hu
    have hut : u ≠ t := by
      rintro rfl
      rw [hsusp] at hs
      cases hs
    exact ⟨hc, (hothers hut).1.trans hs, (congrArg Thread.error (hothers hut).2).trans he⟩

theorem effect_inv {s s' : Sys T V} (h : Inv s) (e : Effect s s') : Inv s' := by
  have hsize := h.ring.size_lt
  have hle := h.ring.entry_le
  cases e with
  | @store t v frame hleave hfull =>
    have hinc : inc 16 s.state.mb.entry = s.state.mb.entry + 1 := inc_of_lt (by omega)
    refine h.pass hleave rfl hinc (fun d hd => ?_) (h.ring.store hfull v)
    cases d with
    | receiver => exact absurd rfl hd
    | sender =>
      simp only [RtMailbox.slack, hinc]
      omega
  | @take t frame hleave hempty =>
    have hdec : dec 16 s.state.mb.entry = s.state.mb.entry - 1 := dec_of_pos (by omega)
    refine h.pass hleave rfl ?_ (fun d hd => ?_) (h.ring.take hempty)
    · simp only [RtMailbox.slack, hdec]
      omega
    · cases d with
      | receiver =>
        simp only [RtMailbox.slack, hdec]
        omega
      | sender => exact absurd rfl hd
  | wait hrun hside hblocked => exact h.wait hrun hside hblocked
  | leave hrun hlast hthread => exact h.leave hrun hlast hthread
  | timeout hsusp => exact h.timeout hsusp
  | tick => exact ⟨h.ring, h.nodup, h.waiting, h.wakes⟩

omit [DecidableEq T] in
theorem start_inv {size : ℕ} (hpos : 1 ≤ size) (hsize : size ≤ 65535) (pool : ℕ → V) (flag : IpcFlag)
    (thread : T → Thread) (tick : ℕ) : Inv (start (rtMbInit pool size flag) thread tick) := by
  have hmod : size % 2 ^ 16 = size := Nat.mod_eq_of_lt (by omega)
  refine ⟨⟨?_, ?_, Nat.zero_le _, ?_, ?_, rfl⟩, fun _ => List.nodup_nil, nofun,
    fun _ hd => absurd rfl hd⟩
  · simp only [start, rtMbInit, hmod]
    omega
  · exact Nat.mod_lt _ (by decide)
  · simp only [start, rtMbInit, hmod]
    omega
  · simp only [start, rtMbInit, Nat.zero_mod, Nat.add_zero]

theorem run_inv {s s' : Sys T V} {acts : List (Act T V)} (h : Inv s)
    (hrun : exec step s acts = some s') : Inv s' :=
  exec_inv Inv (fun _ _ _ h hs => effect_inv h (step_effect hs)) h hrun

/-- In every run on a mailbox of 1 to 65535 mails: the offsets and the count of mails fit
together, the received values are a prefix of the accepted ones, and when no thread is
between its wake-up and its next check, a receiver waits only in front of an empty mailbox
and a sender only in front of a full one. -/
theorem mailbox_fifo {size : ℕ} (hpos : 1 ≤ size) (hsize : size ≤ 65535) {pool : ℕ → V}
    {flag : IpcFlag} {thread : T → Thread} {tick : ℕ} {acts : List (Act T V)} {s : Sys T V}
    (hrun : exec step (start (rtMbInit pool size flag) thread tick) acts = some s) :
    s.state.mb.entry ≤ s.state.mb.size ∧
    s.state.mb.inOffset = (s.state.mb.outOffset + s.state.mb.entry) % s.state.mb.size ∧
    s.received <+: s.accepted ∧
    ((∀ t side, ¬s.woken t side) →
      (∀ t ∈ s.state.mb.suspend .receiver, s.state.mb.entry = 0) ∧
      (∀ t ∈ s.state.mb.suspend .sender, s.state.mb.entry = s.state.mb.size)) := by
  have h := run_inv (start_inv hpos hsize pool flag thread tick) hrun
  refine ⟨h.ring.entry_le, h.ring.in_eq, ?_, fun hquiet => ?_⟩
  · rw [h.ring.fifo]
    exact List.prefix_append _ _
  · have hslack : ∀ d, ∀ t ∈ s.state.mb.suspend d, s.state.mb.slack d = 0 := by
      intro d t ht
      obtain ⟨ws, -, hws, hle⟩ := h.wakes d (List.ne_nil_of_mem ht)
      cases ws with
      | nil => exact Nat.le_zero.mp hle
      | cons u ws => exact absurd (hws u List.mem_cons_self) (hquiet u d)
    refine ⟨hslack .receiver, fun t ht => ?_⟩
    have hzero : s.state.mb.size - s.state.mb.entry = 0 := hslack .sender t ht
    have hle := h.ring.entry_le
    omega

/-- Thread `false` waits for a mail, is woken by a send of `true` and gets it; with the only
cell full again, its own send waits. -/
def fullAgainRun : List (Act Bool ℕ) :=
  [.call false .recv 10, .call true (.send 7) 0, .tick, .resume false, .interruptSend true 8,
    .call false (.send 9) (-1)]

theorem mailbox_fifo_fullAgain :
    ∃ s, exec step (start (rtMbInit (fun _ => 0) 1 .fifo) (fun _ => rtThreadInit 5) 0)
        fullAgainRun = some s ∧
      s.received <+: s.accepted ∧ false ∈ s.state.mb.suspend .sender ∧
      s.state.mb.entry = s.state.mb.size := by
  have h := @mailbox_fifo Bool ℕ _ 1 (by decide) (by decide) (fun _ => 0) .fifo
    (fun _ => rtThreadInit 5) 0 fullAgainRun _ rfl
  refine ⟨_, rfl, h.2.2.1, by decide, (h.2.2.2 ?_).2 false (by decide)⟩
  rintro (_ | _) side ⟨⟨f, hf, -⟩, hs, -⟩
  · cases hs
  · cases hf

end RtThread.Ipc.Mailbox
