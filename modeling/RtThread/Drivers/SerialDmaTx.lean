import RtThread.Drivers.DataQueueRuns

/-!
# Transmission by DMA (`serial.c:499-531`, `1205-1233`)

Any number of threads write through the data queue of the device, and the interrupt at the end of
a transfer takes the next buffer from the queue. A writer pushes its buffer, then looks whether the
hardware is active, and starts it with its own buffer if it is not; other writers and interrupts
come between these three steps.
-/

namespace RtThread.Drivers.SerialDmaTx

open RtThread.Lib.Transition RtThread.Lib.Word RtThread.Ipc.Base RtThread.Drivers.DataQueue

/-- Where a call of `_serial_dma_tx` stands: behind the push, or behind the end of the section that
has set `activated`. -/
inductive Writer (B : Type*) where
  | checking (data : B)
  | starting (data : B)

/-- `struct rt_serial_tx_dma` with the hardware and what has happened: `dma` is the buffer that is
being sent; `completed` has the buffer reported to `tx_complete` and the one that was last handed to
`dma_transmit` when the interrupt came, for each interrupt. -/
structure Sys (B T : Type*) where
  activated : Bool
  dataQueue : State B T
  writer : T → Option (Writer B)
  dma : Option B
  pushed : List B
  popped : List B
  handed : List B
  completed : List (Option B × Option B)

/-- The device after `rt_serial_open` (`serial.c:667-680`). -/
def start {B T : Type*} (queue : ℕ → B) (thread : T → Thread) : Sys B T :=
  ⟨false, rtDataQueueInit queue 8 4 thread, fun _ => none, none, [], [], [], []⟩

variable {B T : Type*} [DecidableEq T]

def Sys.setWriter (s : Sys B T) (t : T) (w : Option (Writer B)) : Sys B T :=
  { s with writer := Function.update s.writer t w }

/-- `dma_transmit` of the driver. -/
def Sys.dmaTransmit (s : Sys B T) (data : B) : Sys B T := { s with dma := some data, handed := s.handed ++ [data] }

/-- The end of the handler: the next buffer is sent (`serial.c:1216-1232`). -/
def Sys.sendNext (s : Sys B T) : Sys B T :=
  match rtDataQueuePeak s.dataQueue with
  | some data => { s with activated := true }.dmaTransmit data
  | none => { s with activated := false }

/-- `rt_hw_serial_isr`, `RT_SERIAL_EVENT_TX_DMADONE`; when the queue is empty, `last_data_ptr` is not
written. -/
def Sys.dmaDone (s : Sys B T) (t : T) : Sys B T :=
  match rtDataQueuePopPass s.dataQueue t 0 with
  | (queue, .popped data) =>
    { s with
      dataQueue := queue
      dma := none
      popped := s.popped ++ [data]
      completed := s.completed ++ [(some data, s.handed.getLast?)] }.sendNext
  | (queue, _) =>
    { s with
      dataQueue := queue
      dma := none
      completed := s.completed ++ [(none, s.handed.getLast?)] }.sendNext

inductive Act (B T : Type*) where
  | push (t : T) (data : B)
  | check (t : T)
  | transmit (t : T)
  | dmaDone (t : T)

/-- One step. The data queue never fills: there is room for what is pushed. -/
def step (s : Sys B T) : Act B T → Option (Sys B T)
  | .push t data =>
    if (s.writer t).isNone = true ∧ s.pushed.length < s.popped.length + s.dataQueue.dq.size then
      match rtDataQueuePushPass s.dataQueue t data (-1) with
      | (queue, .pushed _) =>
        some ({ s with dataQueue := queue, pushed := s.pushed ++ [data] }.setWriter t (some (.checking data)))
      | _ => none
    else none
  | .check t =>
    match s.writer t with
    | some (.checking data) =>
      if s.activated = true then some (s.setWriter t none)
      else some ({ s with activated := true }.setWriter t (some (.starting data)))
    | _ => none
  | .transmit t =>
    match s.writer t with
    | some (.starting data) => some ((s.setWriter t none).dmaTransmit data)
    | _ => none
  | .dmaDone t => if s.dma.isSome = true then some (s.dmaDone t) else none

/-- What is handed to the hardware is what was pushed, in order and once; when no call is running
and the hardware rests, it is all of it; and each completion is that of the last buffer handed
over. -/
structure InOrder (s : Sys B T) : Prop where
  order : s.handed <+: s.pushed
  all : (∀ t, s.writer t = none) → s.dma = none → s.handed = s.pushed
  reported : ∀ c ∈ s.completed, c.1 = c.2 ∧ c.1.isSome = true

/-- The buffer of a writer that is about to look at the hardware. -/
def checked : Option (Writer B) → Option B
  | some (.checking data) => some data
  | _ => none

/-- A writer that finds the hardware inactive has its buffer at the front of the queue. -/
def AtFront (s : Sys B T) : Act B T → Prop
  | .check t => s.activated = false → ∀ data ∈ checked (s.writer t), rtDataQueuePeak s.dataQueue = some data
  | _ => True

instance AtFront.decidable [DecidableEq B] (s : Sys B T) : (a : Act B T) → Decidable (AtFront s a)
  | .check t => inferInstanceAs (Decidable
      (s.activated = false → ∀ data ∈ checked (s.writer t), rtDataQueuePeak s.dataQueue = some data))
  | .push _ _ => isTrue trivial
  | .transmit _ => isTrue trivial
  | .dmaDone _ => isTrue trivial

/-! ### The three phases -/

/-- The hardware is inactive; if there is something to send, a writer is about to look. -/
structure Idle (s : Sys B T) : Prop where
  inactive : s.activated = false
  dma : s.dma = none
  handed : s.handed = s.popped
  starting : ∀ t data, s.writer t ≠ some (.starting data)
  pending : s.pushed.length ≠ s.popped.length → ∃ t, s.writer t ≠ none

/-- A writer is about to start the hardware with the buffer at the front of the queue. -/
structure Starting (s : Sys B T) : Prop where
  active : s.activated = true
  dma : s.dma = none
  handed : s.handed = s.popped
  front : ∃ t data, s.writer t = some (.starting data) ∧ s.pushed[s.popped.length]? = some data ∧
    ∀ t' data', s.writer t' = some (.starting data') → t' = t

/-- The buffer at the front of the queue is being sent. -/
structure Sending (s : Sys B T) : Prop where
  active : s.activated = true
  starting : ∀ t data, s.writer t ≠ some (.starting data)
  front : ∃ data, s.dma = some data ∧ s.handed = s.popped ++ [data] ∧ s.pushed[s.popped.length]? = some data

structure Inv (s : Sys B T) : Prop where
  holds : Holds 8 s.dataQueue.dq s.pushed s.popped
  reported : ∀ c ∈ s.completed, c.1 = c.2 ∧ c.1.isSome = true
  phase : Idle s ∨ Starting s ∨ Sending s

variable {s s' : Sys B T}

omit [DecidableEq T] in
theorem prefix_concat_getElem {l l' : List B} {b : B} (h : l <+: l') (hb : l'[l.length]? = some b) : l ++ [b] <+: l' := by
  obtain ⟨rest, rfl⟩ := h
  rw [List.getElem?_append_right le_rfl, Nat.sub_self] at hb
  cases rest with
  | nil => cases hb
  | cons c rest =>
    cases hb
    exact ⟨rest, by simp⟩

omit [DecidableEq T] in
theorem Inv.inOrder (h : Inv s) : InOrder s := by
  refine ⟨?_, fun hw hd => ?_, h.reported⟩
  · rcases h.phase with hp | hp | hp
    · rw [hp.handed]
      exact h.holds.front
    · rw [hp.handed]
      exact h.holds.front
    · obtain ⟨data, -, hhanded, hfront⟩ := hp.front
      rw [hhanded]
      exact prefix_concat_getElem h.holds.front hfront
  · rcases h.phase with hp | hp | hp
    · rw [hp.handed]
      refine h.holds.front.eq_of_length ?_
      by_contra hne
      obtain ⟨t, ht⟩ := hp.pending fun he => hne he.symm
      exact ht (hw t)
    · obtain ⟨t, data, ht, -⟩ := hp.front
      rw [hw t] at ht
      cases ht
    · obtain ⟨data, hdma, -⟩ := hp.front
      rw [hd] at hdma
      cases hdma

/-! ### Steps -/

omit [DecidableEq T] in
/-- While fewer than eight items are in the queue, the test of the code finds room, also when only one
of the indices has passed 65535. -/
theorem room_of_lt {dq : RtDataQueue B T} {pushed popped : List B} (h : Holds 8 dq pushed popped)
    (hlt : pushed.length < popped.length + 8) : ¬full dq ∧ Room dq := by
  have hle := h.le
  unfold full Room wrappedItems
  rw [h.put_eq, h.get_eq, h.size_eq]
  omega

theorem setWriter_starting {t : T} {w : Option (Writer B)} (hw : ∀ data, w ≠ some (.starting data)) {t' : T} {data : B}
    (h : (s.setWriter t w).writer t' = some (.starting data)) : s.writer t' = some (.starting data) := by
  simp only [Sys.setWriter] at h
  by_cases he : t' = t
  · rw [he, Function.update_self] at h
    exact absurd h (hw data)
  · rwa [Function.update_of_ne he] at h

theorem push_cases {t : T} {data : B} (h : Holds 8 s.dataQueue.dq s.pushed s.popped)
    (hstep : step s (.push t data) = some s') :
    s.writer t = none ∧ ∃ queue, s' = { s with dataQueue := queue, pushed := s.pushed ++ [data] }.setWriter t (some (.checking data)) ∧
      Holds 8 queue.dq (s.pushed ++ [data]) s.popped := by
  simp only [step] at hstep
  split at hstep
  · rename_i hguard
    rw [h.size_eq] at hguard
    obtain ⟨hnot, hroom⟩ := room_of_lt h hguard.2
    obtain ⟨hsz, hget, hput, hqueue⟩ := store_dq s.dataQueue data
    have hpass : rtDataQueuePushPass s.dataQueue t data (-1) = (store s.dataQueue data, .pushed data) := if_neg hnot
    rw [hpass] at hstep
    cases hstep
    exact ⟨Option.isNone_iff_eq_none.mp hguard.1, _, rfl, h.push (by decide) (by decide) hnot hroom hsz hget hput hqueue⟩
  · cases hstep

theorem push_inv {t : T} {data : B} (h : Inv s) (hstep : step s (.push t data) = some s') : Inv s' := by
  obtain ⟨hnone, queue, rfl, hholds⟩ := push_cases h.holds hstep
  have hfront {b : B} (hb : s.pushed[s.popped.length]? = some b) : (s.pushed ++ [data])[s.popped.length]? = some b := by
    obtain ⟨hlt, -⟩ := List.getElem?_eq_some_iff.mp hb
    rw [List.getElem?_append_left hlt]
    exact hb
  refine ⟨hholds, h.reported, ?_⟩
  rcases h.phase with hp | hp | hp
  · refine Or.inl ⟨hp.inactive, hp.dma, hp.handed, fun t' d hw => ?_, fun _ => ⟨t, ?_⟩⟩
    · exact hp.starting t' d (setWriter_starting (fun _ he => by cases he) hw)
    · simp [Sys.setWriter]
  · obtain ⟨t', d, hw, hb, huniq⟩ := hp.front
    have hne : t' ≠ t := fun he => by rw [he, hnone] at hw; cases hw
    refine Or.inr (Or.inl ⟨hp.active, hp.dma, hp.handed, t', d, ?_, hfront hb, fun t'' d' hw' => ?_⟩)
    · simp only [Sys.setWriter]
      rw [Function.update_of_ne hne]
      exact hw
    · exact huniq t'' d' (setWriter_starting (fun _ he => by cases he) hw')
  · obtain ⟨d, hdma, hhanded, hb⟩ := hp.front
    refine Or.inr (Or.inr ⟨hp.active, fun t' d' hw => ?_, d, hdma, hhanded, hfront hb⟩)
    exact hp.starting t' d' (setWriter_starting (fun _ he => by cases he) hw)

omit [DecidableEq T] in
theorem peak_eq (h : Holds 8 s.dataQueue.dq s.pushed s.popped) :
    rtDataQueuePeak s.dataQueue = s.pushed[s.popped.length]? := by
  unfold rtDataQueuePeak
  by_cases he : s.dataQueue.dq.getIndex = s.dataQueue.dq.putIndex
  · have hlen := (h.empty_iff (by decide)).mp he
    rw [if_pos he, List.getElem?_eq_none hlen.le]
  · rw [if_neg he]
    exact (h.getElem (by decide) he).symm

theorem check_inv {t : T} (h : Inv s) (hfront : AtFront s (.check t)) (hstep : step s (.check t) = some s') : Inv s' := by
  simp only [step] at hstep
  split at hstep
  · rename_i data hw
    split at hstep
    · rename_i hact
      cases hstep
      refine ⟨h.holds, h.reported, ?_⟩
      rcases h.phase with hp | hp | hp
      · rw [hp.inactive] at hact
        cases hact
      · obtain ⟨t', d, hw', hb, huniq⟩ := hp.front
        have hne : t' ≠ t := fun he => by rw [he, hw] at hw'; cases hw'
        refine Or.inr (Or.inl ⟨hp.active, hp.dma, hp.handed, t', d, ?_, hb, fun t'' d' hw'' => ?_⟩)
        · simp only [Sys.setWriter]
          rw [Function.update_of_ne hne]
          exact hw'
        · exact huniq t'' d' (setWriter_starting (fun _ he => by cases he) hw'')
      · refine Or.inr (Or.inr ⟨hp.active, fun t' d' hw' => ?_, hp.front⟩)
        exact hp.starting t' d' (setWriter_starting (fun _ he => by cases he) hw')
    · rename_i hact
      cases hstep
      have hinactive := Bool.eq_false_of_not_eq_true hact
      have hdata := hfront hinactive data (by rw [hw]; rfl)
      rw [peak_eq h.holds] at hdata
      refine ⟨h.holds, h.reported, Or.inr (Or.inl ?_)⟩
      rcases h.phase with hp | hp | hp
      · refine ⟨rfl, hp.dma, hp.handed, t, data, by simp [Sys.setWriter], hdata, fun t' d hw' => ?_⟩
        by_contra hne
        simp only [Sys.setWriter] at hw'
        rw [Function.update_of_ne hne] at hw'
        exact hp.starting t' d hw'
      · exact absurd hp.active hact
      · exact absurd hp.active hact
  · cases hstep

theorem transmit_inv {t : T} (h : Inv s) (hstep : step s (.transmit t) = some s') : Inv s' := by
  simp only [step] at hstep
  split at hstep
  · rename_i data hw
    cases hstep
    refine ⟨h.holds, h.reported, Or.inr (Or.inr ?_)⟩
    rcases h.phase with hp | hp | hp
    · exact absurd hw (hp.starting t data)
    · obtain ⟨t', d, hw', hb, huniq⟩ := hp.front
      have he := huniq t data hw
      rw [← he, hw] at hw'
      cases hw'
      refine ⟨hp.active, fun t'' d' hw'' => ?_, data, rfl, congrArg (· ++ [data]) hp.handed, hb⟩
      by_cases heq : t'' = t
      · simp [Sys.dmaTransmit, Sys.setWriter, heq] at hw''
      · have hold := setWriter_starting (s := s) (t := t) (w := none) (fun _ he => by cases he) hw''
        exact heq ((huniq t'' d' hold).trans he.symm)
    · exact absurd hw (hp.starting t data)
  · cases hstep

theorem dmaDone_inv {t : T} (h : Inv s) (hstep : step s (.dmaDone t) = some s') : Inv s' := by
  obtain ⟨hdma, heq⟩ := Option.ite_none_right_eq_some.mp hstep
  cases heq
  rcases h.phase with hp | hp | hp
  · rw [hp.dma] at hdma
    cases hdma
  · rw [hp.dma] at hdma
    cases hdma
  · obtain ⟨data, -, hhanded, hb⟩ := hp.front
    have hne : s.dataQueue.dq.getIndex ≠ s.dataQueue.dq.putIndex := by
      intro he
      rw [← peak_eq h.holds, rtDataQueuePeak, if_pos he] at hb
      cases hb
    have hitem : s.dataQueue.dq.queue (s.dataQueue.dq.getIndex % s.dataQueue.dq.size) = data := by
      rw [← peak_eq h.holds, rtDataQueuePeak, if_neg hne] at hb
      exact Option.some.inj hb
    obtain ⟨hsz, hget, hput, hqueue⟩ := fetch_dq s.dataQueue
    have hholds := h.holds.pop (by decide) hne hsz hget hput hqueue
    have hpass : rtDataQueuePopPass s.dataQueue t 0 = (fetch s.dataQueue, .popped data) := by
      rw [rtDataQueuePopPass, if_neg hne, hitem]
    have hlast : s.handed.getLast? = some data := by rw [hhanded, List.getLast?_concat]
    have hreported : ∀ c ∈ s.completed ++ [(some data, s.handed.getLast?)], c.1 = c.2 ∧ c.1.isSome = true := by
      intro c hc
      rcases List.mem_append.mp hc with hc | hc
      · exact h.reported c hc
      · rw [List.mem_singleton.mp hc, hlast]
        exact ⟨rfl, rfl⟩
    rw [hitem] at hholds
    unfold Sys.dmaDone
    rw [hpass]
    simp only [Sys.sendNext]
    have hpeak := peak_eq (s := { s with dataQueue := fetch s.dataQueue, popped := s.popped ++ [data] }) hholds
    simp only at hpeak
    rw [hpeak]
    cases hnext : s.pushed[(s.popped ++ [data]).length]? with
    | none =>
      refine ⟨hholds, hreported, Or.inl ⟨rfl, rfl, hhanded, hp.starting, fun hlen => ?_⟩⟩
      have hge := List.getElem?_eq_none_iff.mp hnext
      have hle := hholds.le
      exact absurd (le_antisymm hge hle) hlen
    | some d =>
      exact ⟨hholds, hreported, Or.inr (Or.inr ⟨rfl, hp.starting, d, rfl, congrArg (· ++ [d]) hhanded, hnext⟩)⟩

theorem step_inv {a : Act B T} (h : Inv s) (hfront : AtFront s a) (hstep : step s a = some s') : Inv s' := by
  cases a with
  | push t data => exact push_inv h hstep
  | check t => exact check_inv h hfront hstep
  | transmit t => exact transmit_inv h hstep
  | dmaDone t => exact dmaDone_inv h hstep

omit [DecidableEq T] in
theorem start_inv (queue : ℕ → B) (thread : T → Thread) : Inv (start queue thread) where
  holds :=
    { size_eq := rfl
      put_eq := rfl
      get_eq := rfl
      le := le_rfl
      bound := Nat.zero_le _
      cells := fun i _ v hv => by cases hv
      front := List.prefix_rfl }
  reported c hc := absurd hc List.not_mem_nil
  phase := Or.inl ⟨rfl, rfl, rfl, fun _ _ h => (by cases h), fun h => absurd rfl h⟩

/-- In every run in which a writer that finds the hardware inactive has its buffer at the front of
the queue, the buffers are sent in order. -/
theorem dma_tx_in_order {queue : ℕ → B} {thread : T → Thread} {acts : List (Act B T)} {s : Sys B T}
    (hfront : AllSteps step AtFront (start queue thread) acts) (hrun : exec step (start queue thread) acts = some s) :
    InOrder s :=
  (exec_inv_of_allSteps Inv AtFront (fun _ _ _ h hC hstep => step_inv h hC hstep) (start_inv queue thread)
    hfront hrun).inOrder

/-- The second writer comes while the first buffer is being sent. -/
def twoWriters : List (Act ℕ ℕ) :=
  [.push 0 10, .check 0, .transmit 0, .push 1 20, .check 1, .dmaDone 0, .dmaDone 0]

theorem dma_tx_in_order_twoWriters :
    ∃ s, exec step (start (fun _ => 0) fun t => rtThreadInit t) twoWriters = some s ∧ s.handed = [10, 20] ∧
      s.completed = [(some 10, some 10), (some 20, some 20)] ∧ InOrder s :=
  ⟨_, rfl, rfl, rfl, @dma_tx_in_order ℕ ℕ _ (fun _ => 0) (fun t => rtThreadInit t) twoWriters _ (by decide) rfl⟩

/-- The second writer overtakes the first between its push and its look at the hardware. -/
def overtaken : List (Act ℕ ℕ) :=
  [.push 0 10, .push 1 20, .check 1, .transmit 1, .check 0, .dmaDone 0, .dmaDone 0]

/-- The buffer 20 is sent twice and 10 never, and the first completion reported is that of 10. -/
theorem dma_tx_overtaken :
    ∃ s, exec step (start (fun _ => 0) fun t => rtThreadInit t) overtaken = some s ∧ s.pushed = [10, 20] ∧
      s.handed = [20, 20] ∧ s.completed = [(some 10, some 20), (some 20, some 20)] ∧ ¬InOrder s := by
  refine ⟨_, rfl, rfl, rfl, rfl, fun h => ?_⟩
  exact absurd (h.reported (some 10, some 20) List.mem_cons_self).1 (by decide)

end RtThread.Drivers.SerialDmaTx
