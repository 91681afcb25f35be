import RtThread.Ipc.MessageQueueSlots

/-!
# A message queue is a deque

The functions of the code carry out the operations on the slots, so every run keeps the
invariant; what the receives deliver is what the deque gives them.
-/

namespace RtThread.Ipc.MessageQueue

open RtThread.Lib.Word RtThread.Lib.Transition RtThread.Lib.Chain RtThread.Lib.Pool
open RtThread.Ipc.Base

variable {T : Type*} [DecidableEq T]

/-! ### The functions on the slots -/

@[simp] theorem resumeOne_core (s : State T) : (resumeOne s).core = s.core := by
  unfold resumeOne
  split <;> rfl

@[simp] theorem resumeAll_core (s : State T) : (resumeAll s).core = s.core := rfl

omit [DecidableEq T] in
theorem releaseAll_spec {q : List ℕ} : ∀ {fuel : ℕ} {s : State T} {free : List ℕ}, q.length < fuel →
    Linked s.core.next s.core.head q → Linked s.core.next s.core.free free →
    s.core.tail = q.getLast? → (free ++ q).Nodup →
    ∃ s', releaseAll fuel s = some s' ∧
      s'.core = { s.core with head := none, tail := none, free := s'.core.free, next := s'.core.next } ∧
      Linked s'.core.next s'.core.free (q.reverse ++ free) ∧
      ∀ j, j ∉ q → s'.core.next j = s.core.next j := by
  induction q with
  | nil =>
    intro fuel s free hfuel hchain hfree htail hnd
    obtain ⟨fuel, rfl⟩ := Nat.exists_eq_succ_of_ne_zero (Nat.ne_of_gt hfuel)
    have hhead : s.mq.msgQueueHead = none := hchain
    have htail' : s.mq.msgQueueTail = none := htail
    refine ⟨s, by simp only [releaseAll, hhead], ?_, hfree, fun _ _ => rfl⟩
    simp only [State.core, hhead, htail']
  | cons i q ih =>
    intro fuel s free hfuel hchain hfree htail hnd
    obtain ⟨fuel, rfl⟩ := Nat.exists_eq_succ_of_ne_zero (Nat.ne_of_gt (Nat.zero_lt_of_lt hfuel))
    have hhead : s.mq.msgQueueHead = some i := hchain.1
    have hndq := List.nodup_append.mp hnd
    have hiq : i ∉ q := (List.nodup_cons.mp hndq.2.1).1
    have hifree : i ∉ free := fun hi => hndq.2.2 i hi i List.mem_cons_self rfl
    obtain ⟨s', hrel, hcore, hchain', hnext⟩ := @ih fuel
      (MessageQueue.putFree { s with mq := { s.mq with
        msgQueueHead := s.next i
        msgQueueTail := if s.mq.msgQueueTail = some i then none else s.mq.msgQueueTail } } i)
      (i :: free) (Nat.lt_of_succ_lt_succ hfuel) (hchain.2.update hiq _) (hfree.push hifree)
      (by
        show (if s.core.tail = some i then none else s.core.tail) = q.getLast?
        rw [htail]
        exact getLast?_of_cons hndq.2.1)
      (List.perm_middle.nodup_iff.mp hnd)
    refine ⟨s', ?_, ?_, ?_, fun j hj => ?_⟩
    · simp only [releaseAll, hhead]
      exact hrel
    · rw [hcore]
      rfl
    · rw [List.reverse_cons, List.append_assoc]
      exact hchain'
    · have hji : j ≠ i := fun heq => hj (heq ▸ List.mem_cons_self)
      rw [hnext j fun hjq => hj (List.mem_cons_of_mem i hjq)]
      exact Function.update_of_ne hji _ _

/-! ### Runs -/

def Sys.Shaped (s : Sys T) (free q : List ℕ) : Prop :=
  Shape s.state.core s.frame (Deque.run s.log) s.delivered free q

def Inv (s : Sys T) : Prop := ∃ free q, s.Shaped free q

omit [DecidableEq T] in
theorem rtMqInitLoop_chain (next : ℕ → Option ℕ) (n : ℕ) :
    Linked (rtMqInitLoop next n).1 (rtMqInitLoop next n).2 (List.range n).reverse := by
  induction n with
  | zero => rfl
  | succ n ih =>
    rw [List.range_succ, List.reverse_append]
    exact ih.push (by simp)

omit [DecidableEq T] in
theorem start_inv (k : ℕ) (next : ℕ → Option ℕ) (data : ℕ → ℕ → UInt8) (msgSize poolSize : ℕ)
    (flag : IpcFlag) (thread : T → Thread) (tick : ℕ) :
    Inv (start (rtMqInit k next data msgSize poolSize flag thread tick)) := by
  refine ⟨_, [], rtMqInitLoop_chain next _, rfl, rfl, ?_, Nat.mod_lt _ (by decide), rfl,
    List.Forall₂.nil, nofun, nofun, shares_of_perm_range (List.Perm.refl _)⟩
  rw [List.append_nil]
  exact shares_of_perm_range (List.reverse_perm _)

def Sys.Free (s : Sys T) (t : T) : Prop := slots s.frame t = none ∧ tickets s.frame t = none

omit [DecidableEq T] in
theorem free_of_none {s : Sys T} {t : T} (h : s.frame t = none) : s.Free t := by
  simp [Sys.Free, slots, tickets, h]

omit [DecidableEq T] in
theorem free_of_waiting {s : Sys T} {t : T} {size : ℕ} {timeout : ℤ} {tickDelta : ℕ}
    (h : s.frame t = some (.waiting size timeout tickDelta)) : s.Free t := by
  simp [Sys.Free, slots, tickets, h, Frame.slot, Frame.ticket]

theorem Inv.setNone {s : Sys T} (h : Inv s) {t : T} (ht : s.Free t) {st : State T}
    (hst : st.core = s.state.core) : Inv ({ s with state := st }.setFrame t none) := by
  obtain ⟨free, q, h⟩ := h
  refine ⟨free, q, ?_⟩
  show Shape st.core _ _ _ free q
  rw [hst]
  exact Shape.idle h ht.1 ht.2 nofun

theorem recvPass_inv {s : Sys T} (h : Inv s) {t : T} (ht : s.Free t) {size tickDelta : ℕ}
    {timeout : ℤ} {r : State T × Outcome} (hr : rtMqRecvPass s.state t timeout tickDelta = some r) :
    Inv (s.recordRecv t size timeout r) := by
  simp only [rtMqRecvPass] at hr
  split at hr
  · split at hr
    · cases hr
      exact h.setNone ht rfl
    · cases hr
      obtain ⟨free, q, h⟩ := h
      exact ⟨free, q, Shape.idle h ht.1 ht.2 fun g hg => ⟨_, _, _, (Option.some.inj hg).symm⟩⟩
  · simp only [unlinkHead, Option.map_map, Option.map_eq_some_iff] at hr
    obtain ⟨msg, hhead, rfl⟩ := hr
    obtain ⟨free, q, h⟩ := h
    obtain ⟨q', h'⟩ := Shape.unlink h ht.1 ht.2 (i := msg) hhead size
    refine ⟨free, q', ?_⟩
    show Shape _ _ (Deque.run (s.log ++ [.recv])) _ free q'
    rw [run_snoc]
    exact h'

theorem recv_inv {s : Sys T} (h : Inv s) {t : T} (ht : s.Free t) {size : ℕ} {timeout : ℤ}
    {r : State T × Outcome} (hr : rtMqRecv s.state t timeout = some r) :
    Inv (s.recordRecv t size timeout r) := by
  simp only [rtMqRecv] at hr
  split at hr
  · cases hr
    exact h.setNone ht rfl
  · exact recvPass_inv h ht hr

theorem send_inv {s s' : Sys T} (h : Inv s) {t : T} {urgent : Bool} {buffer : List UInt8}
    (hs : step s (.send t urgent buffer) = some s') : Inv s' := by
  simp only [step, Option.ite_none_right_eq_some] at hs
  obtain ⟨⟨hidle, -⟩, hs⟩ := hs
  have hnone : s.frame t = none := Option.isNone_iff_eq_none.mp hidle
  simp only [takeFree] at hs
  split at hs
  · rename_i st msg htake
    cases hs
    split at htake
    · cases htake
    · rename_i hsize
      split at htake
      · cases htake
      · rename_i msg' hfree
        cases htake
        obtain ⟨free, q, h⟩ := h
        obtain ⟨free', h'⟩ := Shape.takeFree h hnone hfree urgent (Nat.le_of_not_lt hsize)
        exact ⟨free', q, h'⟩
  · rename_i st out hout htake
    cases hs
    split at htake
    · cases htake
      exact h
    · split at htake
      · cases htake
        exact h
      · cases htake
        exact absurd rfl (hout _)

theorem copy_inv {s s' : Sys T} (h : Inv s) {t : T} (hs : s.copy t = some s') : Inv s' := by
  obtain ⟨free, q, h⟩ := h
  unfold Sys.copy at hs
  split at hs
  · rename_i urgent msg buffer hf
    cases hs
    refine ⟨free, q, ?_⟩
    cases urgent with
    | true => exact Shape.copySend h hf (fun _ _ => rfl) nofun
    | false =>
      exact Shape.copySend h hf (fun j hj => Function.update_of_ne hj _ _)
        fun _ => Function.update_self ..
  · rename_i msg size ticket hf
    cases hs
    exact ⟨free, q, Shape.deliver h hf⟩
  · cases hs

theorem finish_inv {s s' : Sys T} (h : Inv s) {t : T} (hs : s.finish t = some s') : Inv s' := by
  obtain ⟨free, q, h⟩ := h
  unfold Sys.finish at hs
  split at hs
  · rename_i msg buffer hf
    cases hs
    refine ⟨free, msg :: q, ?_⟩
    have h' := Shape.linkHead h hf
    rw [← run_snoc] at h'
    show Shape (urgentLink s.state msg).core _ _ _ _ _
    rw [urgentLink, resumeOne_core]
    exact h'
  · rename_i msg buffer hf
    cases hs
    refine ⟨free, q ++ [msg], ?_⟩
    have h' := Shape.linkTail h hf
    rw [← run_snoc] at h'
    show Shape (sendLink s.state msg).core _ _ _ _ _
    rw [sendLink, resumeOne_core]
    exact h'
  · rename_i msg size ticket hf
    cases hs
    exact ⟨msg :: free, q, Shape.putFree h hf⟩
  · cases hs

theorem resume_inv {s s' : Sys T} (h : Inv s) {t : T} (hs : s.resume t = some s') : Inv s' := by
  unfold Sys.resume at hs
  split at hs
  · rename_i size timeout tickDelta hf
    split at hs
    · cases hs
    · split at hs
      · cases hs
        exact h.setNone (free_of_waiting hf) rfl
      · simp only [Option.map_eq_some_iff] at hs
        obtain ⟨r, hr, rfl⟩ := hs
        exact recvPass_inv h (free_of_waiting hf) hr
  · cases hs

theorem rtMqReset_spec {s : Sys T} {free q : List ℕ} (h : s.Shaped free q) :
    ∃ st, rtMqReset s.state = some st ∧
      Shape st.core s.frame ((Deque.run s.log).apply .reset) s.delivered (q.reverse ++ free) [] := by
  have hle := h.shares.length_le
  rw [List.length_append] at hle
  have hfuel : q.length < s.state.mq.maxMsgs + 1 := by
    show q.length < s.state.core.maxMsgs + 1
    omega
  obtain ⟨st, hst, hcore, hchain, hnext⟩ :=
    @releaseAll_spec _ q _ (resumeAll s.state) free hfuel h.chain h.freeList h.tail h.shares.nodup
  refine ⟨{ st with mq := { st.mq with entry := 0 } }, by simp only [rtMqReset, hst, Option.map_some], ?_⟩
  have hcore' : ({ st with mq := { st.mq with entry := 0 } } : State T).core =
      { s.state.core with head := none, tail := none, free := st.core.free, next := st.core.next,
                          entry := 0 } := by
    rw [resumeAll_core] at hcore
    exact congrArg (fun c : Core => { c with entry := 0 }) hcore
  rw [hcore']
  exact Shape.reset h hchain hnext

theorem step_inv {s s' : Sys T} {a : Act T} (h : Inv s) (hs : step s a = some s') : Inv s' := by
  cases a with
  | send t urgent buffer => exact send_inv h hs
  | recv t size timeout =>
    simp only [step, Option.ite_none_right_eq_some, Option.map_eq_some_iff] at hs
    obtain ⟨⟨hidle, -⟩, r, hr, rfl⟩ := hs
    exact recv_inv h (free_of_none (Option.isNone_iff_eq_none.mp hidle)) hr
  | resume t => exact resume_inv h hs
  | copy t => exact copy_inv h hs
  | finish t => exact finish_inv h hs
  | timeout t =>
    simp only [step, Option.ite_none_right_eq_some, Option.some.injEq] at hs
    obtain ⟨-, rfl⟩ := hs
    exact h
  | reset =>
    obtain ⟨free, q, h⟩ := h
    obtain ⟨st, hst, hshape⟩ := rtMqReset_spec h
    simp only [step, hst, Option.map_some, Option.some.injEq] at hs
    subst hs
    refine ⟨q.reverse ++ free, [], ?_⟩
    rw [← run_snoc] at hshape
    exact hshape
  | tick =>
    cases hs
    exact h

omit [DecidableEq T] in
theorem Sys.Shaped.unlinkHead_isSome {s : Sys T} {free q : List ℕ} (h : s.Shaped free q)
    (hentry : s.state.mq.entry ≠ 0) : (unlinkHead s.state).isSome = true := by
  have hlen : s.state.mq.entry = q.length := h.entry
  cases q with
  | nil => exact absurd hlen hentry
  | cons i q =>
    have hhead : s.state.mq.msgQueueHead = some i := h.chain.1
    simp only [unlinkHead, hhead, Option.map_some, Option.isSome_some]

/-- In every state of every run: each slot is in the free list, in the chain or held by one
operation; `entry` is the length of the chain and the tail its last slot; the chain stores
the messages of the deque; each finished copy of a receive has the first bytes of the
message that the deque gave it, and each message given is copied once or still to be
copied; and no section dereferences a null link or loops for ever. -/
theorem mq_refines_deque {k : ℕ} {next : ℕ → Option ℕ} {data : ℕ → ℕ → UInt8} {msgSize poolSize : ℕ}
    {flag : IpcFlag} {thread : T → Thread} {tick : ℕ} {acts : List (Act T)} {s : Sys T}
    (hrun : exec step (start (rtMqInit k next data msgSize poolSize flag thread tick)) acts = some s) :
    ∃ free q, Linked s.state.next s.state.mq.msgQueueFree free ∧
      Linked s.state.next s.state.mq.msgQueueHead q ∧
      Shares (free ++ q) (slots s.frame) s.state.mq.maxMsgs ∧
      s.state.mq.entry = q.length ∧ s.state.mq.msgQueueTail = q.getLast? ∧
      List.Forall₂ (Stores s.state.core) q (Deque.run s.log).queue ∧
      (∀ x ∈ s.delivered, ∃ p, (Deque.run s.log).given[x.ticket]? = some p ∧
        Delivers s.state.mq.msgSize x p) ∧
      Shares (s.delivered.map Delivery.ticket) (tickets s.frame) (Deque.run s.log).given.length ∧
      (∀ t timeout tickDelta, (rtMqRecvPass s.state t timeout tickDelta).isSome = true) ∧
      (rtMqReset s.state).isSome = true := by
  obtain ⟨free, q, h⟩ := exec_inv Inv (fun _ _ _ => step_inv) (start_inv k next data msgSize poolSize
    flag thread tick) hrun
  refine ⟨free, q, h.freeList, h.chain, h.shares, h.entry, h.tail, h.stores, h.delivers, h.numbers,
    fun t timeout tickDelta => ?_, ?_⟩
  · unfold rtMqRecvPass
    split
    · split <;> rfl
    · rename_i hentry
      rw [Option.isSome_map]
      exact h.unlinkHead_isSome hentry
  · obtain ⟨st, hst, -⟩ := rtMqReset_spec h
    rw [hst]
    rfl

/-- Agent 0 waits for a message, agent 1 sends three bytes and wakes it, agent 2 sends an
urgent message while agent 0 copies two bytes, and the queue is reset. -/
def overlapRun : List (Act ℕ) :=
  [.recv 0 2 (-1), .send 1 false [1, 2, 3], .copy 1, .finish 1, .resume 0, .send 2 true [9], .copy 0,
    .copy 2, .finish 2, .finish 0, .reset]

theorem mq_refines_deque_overlap :
    ∃ s, exec step (start (rtMqInit 2 (fun _ => none) (fun _ _ => 0) 4 24 .fifo
        (fun t : ℕ => rtThreadInit t) 0)) overlapRun = some s ∧
      s.delivered = [⟨0, 2, [1, 2]⟩] ∧ s.state.mq.maxMsgs = 3 ∧
      ∃ free q, Shares (free ++ q) (slots s.frame) s.state.mq.maxMsgs ∧
        s.state.mq.entry = q.length := by
  obtain ⟨free, q, -, -, hshares, hentry, -⟩ := @mq_refines_deque ℕ _ 2 (fun _ => none) (fun _ _ => 0)
    4 24 .fifo (fun t => rtThreadInit t) 0 overlapRun _ rfl
  exact ⟨_, rfl, by decide, by decide, free, q, hshares, hentry⟩

end RtThread.Ipc.MessageQueue
