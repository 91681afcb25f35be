import RtThread.Ipc.MessageQueueRuns

/-!
# The slots of a message queue

The invariant of the runs on a message queue (`Shape`), stated for the part of the state
that holds the slots and two lists: the free list and the chain of messages. Each section
of the code is one operation on the shape.
-/

namespace RtThread.Ipc.MessageQueue

open RtThread.Lib.Word RtThread.Lib.Transition RtThread.Lib.Chain RtThread.Lib.Pool
open RtThread.Ipc.Base

variable {T : Type*}

structure Core where
  msgSize : ℕ
  maxMsgs : ℕ
  entry : ℕ
  head : Option ℕ
  tail : Option ℕ
  free : Option ℕ
  next : ℕ → Option ℕ
  data : ℕ → ℕ → UInt8

def State.core (s : State T) : Core :=
  ⟨s.mq.msgSize, s.mq.maxMsgs, s.mq.entry, s.mq.msgQueueHead, s.mq.msgQueueTail, s.mq.msgQueueFree,
    s.next, s.data⟩

def Stores (c : Core) (i : ℕ) (p : List UInt8) : Prop :=
  p.length ≤ c.msgSize ∧ ∀ j, j < p.length → p[j]? = some (c.data i j)

/-- The receive has copied the first bytes of the message `p`, as many as it asked for and
the message has. -/
def Delivers (msgSize : ℕ) (d : Delivery) (p : List UInt8) : Prop :=
  d.bytes.length = min d.size msgSize ∧
    d.bytes.take (min p.length d.size) = p.take (min p.length d.size)

def Frame.slot : Frame → Option ℕ
  | .sending _ msg _ _ => some msg
  | .waiting _ _ _ => none
  | .receiving msg _ _ _ => some msg

def Frame.ticket : Frame → Option ℕ
  | .receiving _ _ ticket false => some ticket
  | _ => none

def slots (frame : T → Option Frame) (t : T) : Option ℕ := (frame t).bind Frame.slot

def tickets (frame : T → Option Frame) (t : T) : Option ℕ := (frame t).bind Frame.ticket

def FrameOk (c : Core) (given : List (List UInt8)) : Frame → Prop
  | .sending urgent msg buffer copied => buffer.length ≤ c.msgSize ∧
      (copied = true → Stores c msg buffer ∧ (urgent = false → c.next msg = none))
  | .waiting _ _ _ => True
  | .receiving msg _ ticket _ => ∃ p, given[ticket]? = some p ∧ Stores c msg p

structure Shape (c : Core) (frame : T → Option Frame) (d : Deque) (delivered : List Delivery)
    (free q : List ℕ) : Prop where
  freeList : Linked c.next c.free free
  chain : Linked c.next c.head q
  tail : c.tail = q.getLast?
  shares : Shares (free ++ q) (slots frame) c.maxMsgs
  max_lt : c.maxMsgs < 2 ^ 16
  entry : c.entry = q.length
  stores : List.Forall₂ (Stores c) q d.queue
  frames : ∀ t f, frame t = some f → FrameOk c d.given f
  delivers : ∀ x ∈ delivered, ∃ p, d.given[x.ticket]? = some p ∧ Delivers c.msgSize x p
  numbers : Shares (delivered.map Delivery.ticket) (tickets frame) d.given.length

/-! ### Small facts -/

theorem getElem?_snoc_of_some {α : Type*} {l : List α} {k : ℕ} {a b : α} (h : l[k]? = some a) :
    (l ++ [b])[k]? = some a := by
  rw [List.getElem?_append_left (List.getElem?_eq_some_iff.mp h).1]
  exact h

theorem Stores.congr {c c' : Core} {i : ℕ} {p : List UInt8} (h : Stores c i p)
    (hsize : c'.msgSize = c.msgSize) (hdata : c'.data i = c.data i) : Stores c' i p :=
  ⟨hsize ▸ h.1, fun j hj => by rw [hdata]; exact h.2 j hj⟩

theorem forall₂_stores_congr {c c' : Core} {q : List ℕ} {ps : List (List UInt8)}
    (h : List.Forall₂ (Stores c) q ps) (hsize : c'.msgSize = c.msgSize)
    (hdata : ∀ i ∈ q, c'.data i = c.data i) : List.Forall₂ (Stores c') q ps := by
  induction h with
  | nil => exact List.Forall₂.nil
  | @cons i p q ps hip hrest ih =>
    exact List.Forall₂.cons (hip.congr hsize (hdata i List.mem_cons_self))
      (ih fun j hj => hdata j (List.mem_cons_of_mem i hj))

theorem getLast?_of_cons {i : ℕ} {q : List ℕ} (hnd : (i :: q).Nodup) :
    (if (i :: q).getLast? = some i then none else (i :: q).getLast?) = q.getLast? := by
  cases q with
  | nil => simp
  | cons j q =>
    have hlast : (i :: j :: q).getLast? = (j :: q).getLast? := by simp
    rw [hlast, if_neg]
    intro hi
    exact (List.nodup_cons.mp hnd).1 (List.mem_of_getLast? hi)

theorem FrameOk.mono {c c' : Core} {given given' : List (List UInt8)} {f : Frame}
    (h : FrameOk c given f) (hsize : c'.msgSize = c.msgSize)
    (hkeep : ∀ i, f.slot = some i → c'.data i = c.data i ∧ c'.next i = c.next i)
    (hgiven : ∀ (k : ℕ) p, given[k]? = some p → given'[k]? = some p) : FrameOk c' given' f := by
  cases f with
  | sending urgent msg buffer copied =>
    obtain ⟨hdata, hnext⟩ := hkeep msg rfl
    refine ⟨hsize ▸ h.1, fun hc => ⟨(h.2 hc).1.congr hsize hdata, fun hu => ?_⟩⟩
    rw [hnext]
    exact (h.2 hc).2 hu
  | waiting size timeout tickDelta => trivial
  | receiving msg size ticket copied =>
    obtain ⟨p, hp, hst⟩ := h
    exact ⟨p, hgiven ticket p hp, hst.congr hsize (hkeep msg rfl).1⟩

variable [DecidableEq T]

theorem slots_update (frame : T → Option Frame) (t : T) (f : Option Frame) :
    slots (Function.update frame t f) = Function.update (slots frame) t (f.bind Frame.slot) := by
  funext u
  by_cases hut : u = t
  · simp [slots, hut]
  · simp [slots, hut]

theorem tickets_update (frame : T → Option Frame) (t : T) (f : Option Frame) :
    tickets (Function.update frame t f) = Function.update (tickets frame) t (f.bind Frame.ticket) := by
  funext u
  by_cases hut : u = t
  · simp [tickets, hut]
  · simp [tickets, hut]

/-- The frames after a step of the agent `t` that changes at most one slot `i`, which no
other agent holds. -/
theorem frames_update {c c' : Core} {given given' : List (List UInt8)} {frame : T → Option Frame}
    (h : ∀ u f, frame u = some f → FrameOk c given f) {t : T} {f' : Option Frame}
    (hown : ∀ f, f' = some f → FrameOk c' given' f) (hsize : c'.msgSize = c.msgSize)
    (hkeep : ∀ u i, u ≠ t → slots frame u = some i → c'.data i = c.data i ∧ c'.next i = c.next i)
    (hgiven : ∀ (k : ℕ) p, given[k]? = some p → given'[k]? = some p) :
    ∀ u f, Function.update frame t f' u = some f → FrameOk c' given' f := by
  intro u f hf
  by_cases hut : u = t
  · rw [hut, Function.update_self] at hf
    exact hown f hf
  · rw [Function.update_of_ne hut] at hf
    refine (h u f hf).mono hsize (fun i hi => hkeep u i hut ?_) hgiven
    simp [slots, hf, hi]

theorem slots_keep {frame : T → Option Frame} {t : T} {f : Option Frame}
    (hf : f.bind Frame.slot = slots frame t) : slots (Function.update frame t f) = slots frame := by
  rw [slots_update, hf, Function.update_eq_self]

theorem tickets_keep {frame : T → Option Frame} {t : T} {f : Option Frame}
    (hf : f.bind Frame.ticket = tickets frame t) :
    tickets (Function.update frame t f) = tickets frame := by
  rw [tickets_update, hf, Function.update_eq_self]

/-! ### The operations -/

section Operations

variable {c : Core} {frame : T → Option Frame} {d : Deque} {delivered : List Delivery}
  {free q : List ℕ} {t : T} {i : ℕ}

omit [DecidableEq T] in
theorem Shape.not_mem (h : Shape c frame d delivered free q) (hi : slots frame t = some i) :
    i ∉ free ∧ i ∉ q := by
  have hmem := h.shares.held_not_mem t i hi
  rw [List.mem_append] at hmem
  exact not_or.mp hmem

omit [DecidableEq T] in
theorem Shape.other_slot (h : Shape c frame d delivered free q) (hi : slots frame t = some i)
    {u : T} (hut : u ≠ t) {j : ℕ} (hj : slots frame u = some j) : j ≠ i := by
  rintro rfl
  exact hut (h.shares.held_inj u t j hj hi)

omit [DecidableEq T] in
theorem slots_of_frame {f : Frame} (hf : frame t = some f) : slots frame t = f.slot := by
  simp [slots, hf]

omit [DecidableEq T] in
theorem tickets_of_frame {f : Frame} (hf : frame t = some f) : tickets frame t = f.ticket := by
  simp [tickets, hf]

theorem Shape.idle (h : Shape c frame d delivered free q) {f : Option Frame}
    (hslot : slots frame t = none) (hticket : tickets frame t = none)
    (hf : ∀ g, f = some g → ∃ size timeout tickDelta, g = .waiting size timeout tickDelta) :
    Shape c (Function.update frame t f) d delivered free q := by
  have hslot' : f.bind Frame.slot = slots frame t := by
    cases f with
    | none => exact hslot.symm
    | some g =>
      obtain ⟨size, timeout, tickDelta, rfl⟩ := hf g rfl
      exact hslot.symm
  have hticket' : f.bind Frame.ticket = tickets frame t := by
    cases f with
    | none => exact hticket.symm
    | some g =>
      obtain ⟨size, timeout, tickDelta, rfl⟩ := hf g rfl
      exact hticket.symm
  refine ⟨h.freeList, h.chain, h.tail, by rw [slots_keep hslot']; exact h.shares, h.max_lt, h.entry,
    h.stores, ?_, h.delivers, by rw [tickets_keep hticket']; exact h.numbers⟩
  refine frames_update h.frames (fun g hg => ?_) rfl (fun _ _ _ _ => ⟨rfl, rfl⟩) fun _ _ hk => hk
  obtain ⟨size, timeout, tickDelta, rfl⟩ := hf g hg
  trivial

theorem Shape.takeFree (h : Shape c frame d delivered free q) (hidle : frame t = none)
    (hfree : c.free = some i) (urgent : Bool) {buffer : List UInt8}
    (hbuf : buffer.length ≤ c.msgSize) :
    ∃ free', Shape { c with free := c.next i }
      (Function.update frame t (some (.sending urgent i buffer false))) d delivered free' q := by
  have hchain := h.freeList
  rw [hfree] at hchain
  obtain ⟨free', rfl, hchain'⟩ := hchain.exists_cons
  have hslot : slots frame t = none := by simp [slots, hidle]
  have hticket : tickets frame t = none := by simp [tickets, hidle]
  refine ⟨free', hchain', h.chain, h.tail, ?_, h.max_lt, h.entry,
    forall₂_stores_congr h.stores rfl fun _ _ => rfl, ?_, h.delivers, ?_⟩
  · rw [slots_update]
    exact h.shares.hold hslot (List.Perm.refl _)
  · refine frames_update h.frames (fun g hg => ?_) rfl (fun _ _ _ _ => ⟨rfl, rfl⟩) fun _ _ hk => hk
    cases hg
    exact ⟨hbuf, nofun⟩
  · rw [tickets_keep (f := some (.sending urgent i buffer false)) hticket.symm]
    exact h.numbers

theorem Shape.copySend (h : Shape c frame d delivered free q) {urgent : Bool}
    {buffer : List UInt8} (hf : frame t = some (.sending urgent i buffer false))
    {next : ℕ → Option ℕ} (hnext : ∀ j, j ≠ i → next j = c.next j)
    (hnull : urgent = false → next i = none) :
    Shape { c with data := Function.update c.data i fun j => buffer.getD j (c.data i j), next := next }
      (Function.update frame t (some (.sending urgent i buffer true))) d delivered free q := by
  have hslot : slots frame t = some i := slots_of_frame hf
  have hticket : tickets frame t = none := tickets_of_frame hf
  obtain ⟨hfree, hq⟩ := h.not_mem hslot
  have hne : ∀ {l : List ℕ}, i ∉ l → ∀ j ∈ l, j ≠ i := by
    rintro l hl j hj rfl
    exact hl hj
  refine ⟨Linked.congr (fun j hj => hnext j (hne hfree j hj)) h.freeList,
    Linked.congr (fun j hj => hnext j (hne hq j hj)) h.chain, h.tail, ?_, h.max_lt, h.entry, ?_, ?_,
    h.delivers, ?_⟩
  · rw [slots_keep (f := some (.sending urgent i buffer true)) hslot.symm]
    exact h.shares
  · exact forall₂_stores_congr h.stores rfl fun j hj => Function.update_of_ne (hne hq j hj) _ _
  · refine frames_update h.frames (fun g hg => ?_) rfl (fun u j hut hj => ?_) fun _ _ hk => hk
    · cases hg
      have hbuf := (h.frames t _ hf).1
      refine ⟨hbuf, fun _ => ⟨⟨hbuf, fun j hj => ?_⟩, hnull⟩⟩
      simp [hj]
    · have hji := h.other_slot hslot hut hj
      exact ⟨Function.update_of_ne hji _ _, hnext j hji⟩
  · rw [tickets_keep (f := some (.sending urgent i buffer true)) hticket.symm]
    exact h.numbers

omit [DecidableEq T] in
theorem inc_length {slots' : T → Option ℕ} {q' : List ℕ} {n : ℕ}
    (hs : Shares (free ++ q') slots' n) (hn : n < 2 ^ 16) (hlen : q'.length = q.length + 1) :
    inc 16 q.length = q'.length := by
  have hle := hs.length_le
  rw [List.length_append] at hle
  rw [hlen]
  exact inc_of_lt (by omega)

theorem Shape.linkTail (h : Shape c frame d delivered free q) {buffer : List UInt8}
    (hf : frame t = some (.sending false i buffer true)) :
    Shape { c with
        next := match c.tail with
          | some tail => Function.update c.next tail (some i)
          | none => c.next
        tail := some i
        head := if c.head = none then some i else c.head
        entry := inc 16 c.entry }
      (Function.update frame t none) (d.apply (.send buffer)) delivered free (q ++ [i]) := by
  have hslot : slots frame t = some i := slots_of_frame hf
  have hticket : tickets frame t = none := tickets_of_frame hf
  obtain ⟨hfree, hq⟩ := h.not_mem hslot
  obtain ⟨hbuf, hcopied⟩ := h.frames t _ hf
  obtain ⟨hstores, hnull⟩ := hcopied rfl
  have hnull := hnull rfl
  have hnd := List.nodup_append.mp h.shares.nodup
  have hshares : Shares (free ++ (q ++ [i])) (Function.update (slots frame) t none) c.maxMsgs := by
    refine h.shares.release hslot ?_
    rw [← List.append_assoc]
    exact List.perm_append_singleton _ _
  -- what the link in the last slot of the chain changes
  have hkeep : ∀ j, j ∉ q → (match c.tail with
      | some tail => Function.update c.next tail (some i)
      | none => c.next) j = c.next j := by
    intro j hj
    rw [h.tail]
    cases hlast : q.getLast? with
    | none => rfl
    | some z =>
      refine Function.update_of_ne ?_ _ _
      rintro rfl
      exact hj (List.mem_of_getLast? hlast)
  refine ⟨Linked.congr (fun j hj => hkeep j fun hjq => hnd.2.2 j hj j hjq rfl) h.freeList, ?_, ?_, ?_,
    h.max_lt, ?_, ?_, ?_, h.delivers, ?_⟩
  · have hchain := h.chain
    cases q with
    | nil =>
      have hhead : c.head = none := hchain
      have htail : c.tail = none := h.tail
      simp [Linked, hhead, htail, hnull]
    | cons a l =>
      have hhead : c.head = some a := hchain.1
      obtain ⟨z, hz⟩ : ∃ z, (a :: l).getLast? = some z := ⟨_, List.getLast?_eq_some_getLast (by simp)⟩
      have htail : c.tail = some z := h.tail.trans hz
      simp only [hhead, htail, if_neg (Option.some_ne_none a)]
      rw [← hhead]
      exact Linked.snoc hnull hchain hnd.2.1 hz hq
  · simp
  · rw [slots_update]
    exact hshares
  · show inc 16 c.entry = _
    rw [h.entry]
    exact inc_length hshares h.max_lt (by simp)
  · refine List.rel_append (forall₂_stores_congr h.stores rfl fun _ _ => rfl) ?_
    exact List.Forall₂.cons (hstores.congr rfl rfl) List.Forall₂.nil
  · refine frames_update h.frames (fun _ hf => by cases hf) rfl (fun u j hut hj => ⟨rfl, ?_⟩) fun _ _ hk => hk
    exact hkeep j (h.not_mem hj).2
  · rw [tickets_keep (f := none) hticket.symm]
    exact h.numbers

theorem Shape.linkHead (h : Shape c frame d delivered free q) {buffer : List UInt8}
    (hf : frame t = some (.sending true i buffer true)) :
    Shape { c with
        next := Function.update c.next i c.head
        head := some i
        tail := if c.tail = none then some i else c.tail
        entry := inc 16 c.entry }
      (Function.update frame t none) (d.apply (.urgent buffer)) delivered free (i :: q) := by
  have hslot : slots frame t = some i := slots_of_frame hf
  have hticket : tickets frame t = none := tickets_of_frame hf
  obtain ⟨hfree, hq⟩ := h.not_mem hslot
  obtain ⟨hstores, -⟩ := (h.frames t _ hf).2 rfl
  have hshares : Shares (free ++ i :: q) (Function.update (slots frame) t none) c.maxMsgs :=
    h.shares.release hslot List.perm_middle
  refine ⟨h.freeList.update hfree _, h.chain.push hq, ?_, ?_, h.max_lt, ?_, ?_, ?_, h.delivers, ?_⟩
  · show (if c.tail = none then some i else c.tail) = (i :: q).getLast?
    rw [h.tail]
    cases q with
    | nil => rfl
    | cons a l => simp
  · rw [slots_update]
    exact hshares
  · show inc 16 c.entry = _
    rw [h.entry]
    exact inc_length hshares h.max_lt rfl
  · exact List.Forall₂.cons (hstores.congr rfl rfl)
      (forall₂_stores_congr h.stores rfl fun _ _ => rfl)
  · refine frames_update h.frames (fun _ hf => by cases hf) rfl (fun u j hut hj => ⟨rfl, ?_⟩) fun _ _ hk => hk
    exact Function.update_of_ne (h.other_slot hslot hut hj) _ _
  · rw [tickets_keep (f := none) hticket.symm]
    exact h.numbers

theorem Shape.unlink (h : Shape c frame d delivered free q) (hslot : slots frame t = none)
    (hticket : tickets frame t = none) (hhead : c.head = some i) (size : ℕ) :
    ∃ q', Shape { c with
        head := c.next i
        tail := if c.tail = some i then none else c.tail
        entry := dec 16 c.entry }
      (Function.update frame t (some (.receiving i size d.given.length false))) (d.apply .recv)
      delivered free q' := by
  have hchain := h.chain
  rw [hhead] at hchain
  obtain ⟨q', rfl, hchain'⟩ := hchain.exists_cons
  obtain ⟨p, ps, hp, hps, hqueue⟩ := List.forall₂_cons_left_iff.mp h.stores
  have happly : d.apply .recv = ⟨ps, d.given ++ [p]⟩ := by
    simp only [Deque.apply, hqueue]
  have hnd := (List.nodup_append.mp h.shares.nodup).2.1
  rw [happly]
  refine ⟨q', h.freeList, hchain', ?_, ?_, h.max_lt, ?_, forall₂_stores_congr hps rfl fun _ _ => rfl, ?_,
    fun x hx => ?_, ?_⟩
  · show (if c.tail = some i then none else c.tail) = q'.getLast?
    rw [h.tail]
    exact getLast?_of_cons hnd
  · rw [slots_update]
    exact h.shares.hold hslot List.perm_middle
  · show dec 16 c.entry = q'.length
    rw [h.entry, List.length_cons, dec_of_pos (by omega)]
    omega
  · refine frames_update h.frames (fun g hg => ?_) rfl (fun _ _ _ _ => ⟨rfl, rfl⟩)
      fun k p' hk => getElem?_snoc_of_some hk
    cases hg
    exact ⟨p, by simp, hp.congr rfl rfl⟩
  · obtain ⟨p', hp', hdel⟩ := h.delivers x hx
    exact ⟨p', getElem?_snoc_of_some hp', hdel⟩
  · rw [tickets_update, List.length_append]
    exact h.numbers.grow hticket

theorem delivers_of_stores {p : List UInt8} (hp : Stores c i p) (k size : ℕ) :
    Delivers c.msgSize ⟨k, size,
      (List.range (if c.msgSize < size then c.msgSize else size)).map (c.data i)⟩ p := by
  have hmin : (if c.msgSize < size then c.msgSize else size) = min size c.msgSize := by
    split <;> omega
  rw [hmin]
  refine ⟨by simp, List.ext_getElem? fun j => ?_⟩
  have hlen := hp.1
  rw [List.getElem?_take, List.getElem?_take]
  by_cases hj : j < min p.length size
  · rw [if_pos hj, if_pos hj, hp.2 j (by omega), List.getElem?_map, List.getElem?_range (by omega)]
    rfl
  · rw [if_neg hj, if_neg hj]

theorem Shape.deliver (h : Shape c frame d delivered free q) {size k : ℕ}
    (hf : frame t = some (.receiving i size k false)) :
    Shape c (Function.update frame t (some (.receiving i size k true))) d
      (⟨k, size, (List.range (if c.msgSize < size then c.msgSize else size)).map (c.data i)⟩ :: delivered)
      free q := by
  have hslot : slots frame t = some i := slots_of_frame hf
  have hticket : tickets frame t = some k := tickets_of_frame hf
  have hframe := h.frames t _ hf
  obtain ⟨p, hgiven, hp⟩ := hframe
  refine ⟨h.freeList, h.chain, h.tail, ?_, h.max_lt, h.entry, h.stores, ?_, fun x hx => ?_, ?_⟩
  · rw [slots_keep (f := some (.receiving i size k true)) hslot.symm]
    exact h.shares
  · refine frames_update h.frames (fun g hg => ?_) rfl (fun _ _ _ _ => ⟨rfl, rfl⟩) fun _ _ hk => hk
    cases hg
    exact ⟨p, hgiven, hp⟩
  · rcases List.mem_cons.mp hx with rfl | hx
    · exact ⟨p, hgiven, delivers_of_stores hp k size⟩
    · exact h.delivers x hx
  · rw [tickets_update]
    exact h.numbers.release hticket (List.Perm.refl _)

theorem Shape.putFree (h : Shape c frame d delivered free q) {size k : ℕ}
    (hf : frame t = some (.receiving i size k true)) :
    Shape { c with next := Function.update c.next i c.free, free := some i }
      (Function.update frame t none) d delivered (i :: free) q := by
  have hslot : slots frame t = some i := slots_of_frame hf
  have hticket : tickets frame t = none := tickets_of_frame hf
  obtain ⟨hfree, hq⟩ := h.not_mem hslot
  refine ⟨h.freeList.push hfree, h.chain.update hq _, h.tail, ?_, h.max_lt, h.entry,
    forall₂_stores_congr h.stores rfl fun _ _ => rfl, ?_, h.delivers, ?_⟩
  · rw [slots_update]
    exact h.shares.release hslot (List.Perm.refl _)
  · refine frames_update h.frames (fun _ hf => by cases hf) rfl (fun u j hut hj => ⟨rfl, ?_⟩) fun _ _ hk => hk
    exact Function.update_of_ne (h.other_slot hslot hut hj) _ _
  · rw [tickets_keep (f := none) hticket.symm]
    exact h.numbers

omit [DecidableEq T] in
theorem Shape.reset (h : Shape c frame d delivered free q) {next : ℕ → Option ℕ} {f : Option ℕ}
    (hchain : Linked next f (q.reverse ++ free)) (hnext : ∀ j, j ∉ q → next j = c.next j) :
    Shape { c with head := none, tail := none, free := f, next := next, entry := 0 } frame
      (d.apply .reset) delivered (q.reverse ++ free) [] := by
  refine ⟨hchain, rfl, rfl, ?_, h.max_lt, rfl, List.Forall₂.nil, fun u g hg => ?_, h.delivers, h.numbers⟩
  · refine h.shares.perm ?_
    rw [List.append_nil]
    exact ((List.reverse_perm q).append_right free).trans List.perm_append_comm
  · refine (h.frames u g hg).mono rfl (fun j hj => ⟨rfl, ?_⟩) fun _ _ hk => hk
    have hu : slots frame u = some j := (slots_of_frame hg).trans hj
    exact hnext j (h.not_mem hu).2

end Operations

end RtThread.Ipc.MessageQueue
