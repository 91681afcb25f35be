import RtThread.Drivers.Device

/-!
# Opening and closing a serial device (`serial.c:537-776`)

The receive and the transmit side each have a FIFO that is allocated when it is absent and freed
according to `open_flag`. The operations of the hardware succeed and do not show in the state.
-/

namespace RtThread.Drivers.SerialOpen

open RtThread.Lib.Flags RtThread.Lib.Transition RtThread.Lib.Word RtThread.Drivers.Device

def flagStream : BitVec 16 := 0x040
def flagIntRx : BitVec 16 := 0x100
def flagDmaRx : BitVec 16 := 0x200
def flagIntTx : BitVec 16 := 0x400
def flagDmaTx : BitVec 16 := 0x800

inductive FifoKind where
  | rxFifo
  | rxDma
  | txFifo
  | txDma
  deriving DecidableEq, Repr

/-- An allocated FIFO; `id` tells the allocations apart. -/
structure Fifo where
  id : ℕ
  kind : FifoKind
  deriving DecidableEq, Repr

/-- `struct rt_serial_device` behind its device, with the FIFOs that are allocated. -/
structure Serial where
  serialRx : Option Fifo
  serialTx : Option Fifo
  heap : List Fifo
  next : ℕ
  deriving DecidableEq, Repr

/-- The flags of one side, and what it allocates for them. -/
structure Side where
  intFlag : BitVec 16
  dmaFlag : BitVec 16
  intKind : FifoKind
  dmaKind : FifoKind

def rxSide (bufsz : ℕ) : Side := ⟨flagIntRx, flagDmaRx, .rxFifo, if bufsz = 0 then .rxDma else .rxFifo⟩

def txSide : Side := ⟨flagIntTx, flagDmaTx, .txFifo, .txDma⟩

/-- What the code for one side works on. -/
structure SideState where
  openFlag : BitVec 16
  fifo : Option Fifo
  heap : List Fifo
  next : ℕ

def SideState.malloc (v : SideState) (kind : FifoKind) (flag : BitVec 16) : SideState :=
  ⟨v.openFlag ||| flag, some ⟨v.next, kind⟩, ⟨v.next, kind⟩ :: v.heap, v.next + 1⟩

def SideState.free (v : SideState) (flag : BitVec 16) : SideState :=
  ⟨v.openFlag &&& ~~~flag, none, v.fifo.elim v.heap v.heap.erase, v.next⟩

/-- `rt_serial_open` for one side (`serial.c:583-646`, `648-693`); `dma` is `RT_SERIAL_USING_DMA`. -/
def openSide (dma : Bool) (side : Side) (oflag : BitVec 16) (v : SideState) : SideState :=
  match v.fifo with
  | none =>
    if has oflag side.intFlag = true then v.malloc side.intKind side.intFlag
    else if dma = true ∧ has oflag side.dmaFlag = true then v.malloc side.dmaKind side.dmaFlag
    else { v with fifo := none }
  | some _ =>
    if has oflag side.intFlag = true then { v with openFlag := v.openFlag ||| side.intFlag }
    else if dma = true ∧ has oflag side.dmaFlag = true then { v with openFlag := v.openFlag ||| side.dmaFlag }
    else v

/-- `rt_serial_close` for one side (`serial.c:711-747`, `749-774`). -/
def closeSide (dma : Bool) (side : Side) (v : SideState) : SideState :=
  if has v.openFlag side.intFlag = true then v.free side.intFlag
  else if dma = true ∧ has v.openFlag side.dmaFlag = true then v.free side.dmaFlag
  else v

/-- Both sides in turn. -/
def onSides (dev : RtDevice Serial) (openFlag : BitVec 16) (rx tx : SideState → SideState) : RtDevice Serial :=
  let r := rx ⟨openFlag, dev.driver.serialRx, dev.driver.heap, dev.driver.next⟩
  let t := tx ⟨r.openFlag, dev.driver.serialTx, r.heap, r.next⟩
  { dev with openFlag := t.openFlag, driver := ⟨r.fifo, t.fifo, t.heap, t.next⟩ }

/-- `rt_serial_init` (`serial.c:537-555`). -/
def rtSerialInit (dev : RtDevice Serial) : RtDevice Serial × ℤ :=
  ({ dev with driver := { dev.driver with serialRx := none, serialTx := none } }, rtEok)

/-- The open flags are among the flags of the device. -/
def supported (flag oflag : BitVec 16) : Bool :=
  [flagDmaRx, flagDmaTx, flagIntRx, flagIntTx].all fun f => !has oflag f || has flag f

/-- `rt_serial_open` (`serial.c:557-699`). -/
def rtSerialOpen (dma : Bool) (bufsz : ℕ) (dev : RtDevice Serial) (oflag : BitVec 16) : RtDevice Serial × ℤ :=
  if supported dev.flag oflag = true then
    let streamFlag := if has oflag flagStream = true ∨ has dev.openFlag flagStream = true then flagStream else 0
    let dev := onSides dev (oflag &&& 0xff) (openSide dma (rxSide bufsz) oflag) (openSide dma txSide oflag)
    ({ dev with openFlag := dev.openFlag ||| streamFlag }, rtEok)
  else (dev, -rtEio)

/-- `rt_serial_close` (`serial.c:701-776`). -/
def rtSerialClose (dma : Bool) (bufsz : ℕ) (dev : RtDevice Serial) : RtDevice Serial × ℤ :=
  if 1 < dev.refCount then (dev, rtEok)
  else (onSides dev dev.openFlag (closeSide dma (rxSide bufsz)) (closeSide dma txSide), rtEok)

def serialOps (dma : Bool) (bufsz : ℕ) : RtDeviceOps Serial :=
  ⟨some rtSerialInit, some (rtSerialOpen dma bufsz), some (rtSerialClose dma bufsz)⟩

inductive Act where
  | opened (oflag : BitVec 16)
  | closed
  deriving DecidableEq, Repr

def step (dma : Bool) (bufsz : ℕ) (dev : RtDevice Serial) : Act → Option (RtDevice Serial)
  | .opened oflag => (rtDeviceOpen (serialOps dma bufsz) dev oflag).map Prod.fst
  | .closed => some (rtDeviceClose (serialOps dma bufsz) dev).1

/-- A device as `rt_hw_serial_register` leaves it. -/
def registered (flag : BitVec 16) : RtDevice Serial := ⟨flag, oflagClose, 0, ⟨none, none, [], 0⟩⟩

def flagsRx : BitVec 16 := flagIntRx ||| flagDmaRx
def flagsTx : BitVec 16 := flagIntTx ||| flagDmaTx

/-- The FIFOs are there as `open_flag` says, the device that is closed has none, and the FIFOs that
are allocated are the ones in use. -/
structure Consistent (dev : RtDevice Serial) : Prop where
  rx_iff : 0 < dev.refCount → (dev.driver.serialRx.isSome = true ↔ has dev.openFlag flagsRx = true)
  tx_iff : 0 < dev.refCount → (dev.driver.serialTx.isSome = true ↔ has dev.openFlag flagsTx = true)
  closed : dev.refCount = 0 → dev.driver.serialRx = none ∧ dev.driver.serialTx = none
  heap : dev.driver.heap.Perm (dev.driver.serialRx.toList ++ dev.driver.serialTx.toList)

/-! ### One side -/

variable {dma : Bool} {side : Side} {oflag : BitVec 16} {v : SideState} {rest : List Fifo}

/-- The open flags ask for a FIFO of the side. -/
def asks (dma : Bool) (side : Side) (oflag : BitVec 16) : Bool :=
  has oflag side.intFlag || (dma && has oflag side.dmaFlag)

/-- The flag that is set in `open_flag`. -/
def mode (dma : Bool) (side : Side) (oflag : BitVec 16) : BitVec 16 :=
  if has oflag side.intFlag = true then side.intFlag
  else if dma = true ∧ has oflag side.dmaFlag = true then side.dmaFlag
  else 0

theorem openSide_cases (dma : Bool) (side : Side) (oflag : BitVec 16) (v : SideState) :
    (v.fifo = none ∧ asks dma side oflag = true ∧
      ∃ kind, openSide dma side oflag v = v.malloc kind (mode dma side oflag)) ∨
    ((v.fifo.isSome = true ∨ asks dma side oflag = false) ∧
      openSide dma side oflag v = { v with openFlag := v.openFlag ||| mode dma side oflag }) := by
  obtain ⟨openFlag, fifo, heap, next⟩ := v
  unfold openSide asks mode
  by_cases hint : has oflag side.intFlag = true
  · simp only [if_pos hint]
    cases fifo with
    | none => exact Or.inl ⟨rfl, by rw [hint, Bool.true_or], _, rfl⟩
    | some f => exact Or.inr ⟨Or.inl rfl, rfl⟩
  · simp only [if_neg hint]
    by_cases hdma : dma = true ∧ has oflag side.dmaFlag = true
    · simp only [if_pos hdma]
      cases fifo with
      | none => exact Or.inl ⟨rfl, by rw [hdma.1, hdma.2, Bool.true_and, Bool.or_true], _, rfl⟩
      | some f => exact Or.inr ⟨Or.inl rfl, rfl⟩
    · have hnot : (has oflag side.intFlag || (dma && has oflag side.dmaFlag)) = false := by
        rw [Bool.eq_false_of_not_eq_true hint, Bool.false_or]
        exact Bool.eq_false_of_not_eq_true fun h => hdma ((Bool.and_eq_true _ _).mp h)
      simp only [if_neg hdma, BitVec.ofNat_eq_ofNat, BitVec.or_zero]
      cases fifo with
      | none => exact Or.inr ⟨Or.inr hnot, rfl⟩
      | some f => exact Or.inr ⟨Or.inl rfl, rfl⟩

theorem openSide_flag : (openSide dma side oflag v).openFlag = v.openFlag ||| mode dma side oflag := by
  rcases openSide_cases dma side oflag v with ⟨-, -, kind, heq⟩ | ⟨-, heq⟩ <;> rw [heq]
  rfl

theorem openSide_isSome :
    (openSide dma side oflag v).fifo.isSome = (v.fifo.isSome || asks dma side oflag) := by
  rcases openSide_cases dma side oflag v with ⟨hf, ha, kind, heq⟩ | ⟨h, heq⟩ <;> rw [heq]
  · rw [ha, Bool.or_true]
    rfl
  · rcases h with h | h <;> simp [h]

theorem openSide_heap (h : v.heap.Perm (v.fifo.toList ++ rest)) :
    (openSide dma side oflag v).heap.Perm ((openSide dma side oflag v).fifo.toList ++ rest) := by
  rcases openSide_cases dma side oflag v with ⟨hf, ha, kind, heq⟩ | ⟨-, heq⟩ <;> rw [heq]
  · rw [hf] at h
    exact h.cons _
  · exact h

/-- A side is closed when `open_flag` says whether it has a FIFO. -/
theorem closeSide_spec (hiff : v.fifo.isSome = true ↔ has v.openFlag (side.intFlag ||| side.dmaFlag) = true)
    (hdma : dma = false → has v.openFlag side.dmaFlag = false) (h : v.heap.Perm (v.fifo.toList ++ rest)) :
    (closeSide dma side v).fifo = none ∧ (closeSide dma side v).heap.Perm rest := by
  have hfree (flag : BitVec 16) : (v.free flag).fifo = none ∧ (v.free flag).heap.Perm rest := by
    refine ⟨rfl, ?_⟩
    unfold SideState.free
    cases hf : v.fifo with
    | none =>
      rw [hf] at h
      exact h
    | some f =>
      rw [hf] at h
      have herase := h.erase f
      rwa [Option.toList_some, List.singleton_append, List.erase_cons_head] at herase
  unfold closeSide
  by_cases hint : has v.openFlag side.intFlag = true
  · rw [if_pos hint]
    exact hfree _
  · rw [if_neg hint]
    by_cases hd : dma = true ∧ has v.openFlag side.dmaFlag = true
    · rw [if_pos hd]
      exact hfree _
    · rw [if_neg hd]
      have hnone : v.fifo = none := by
        rw [← Option.not_isSome_iff_eq_none, hiff, has_or_right, Bool.eq_false_of_not_eq_true hint, Bool.false_or]
        intro hf
        cases dma with
        | false =>
          rw [hdma rfl] at hf
          cases hf
        | true => exact hd ⟨rfl, hf⟩
      rw [hnone] at h
      exact ⟨hnone, h⟩

theorem closeSide_has {f : BitVec 16} (hint : ~~~side.intFlag &&& f = f) (hdma : ~~~side.dmaFlag &&& f = f) :
    has (closeSide dma side v).openFlag f = has v.openFlag f := by
  unfold closeSide
  split
  · rw [SideState.free, has_and, hint]
  · split
    · rw [SideState.free, has_and, hdma]
    · rfl

theorem has_mode_self (h : has (side.intFlag) (side.intFlag ||| side.dmaFlag) = true)
    (h' : has (side.dmaFlag) (side.intFlag ||| side.dmaFlag) = true) :
    has (mode dma side oflag) (side.intFlag ||| side.dmaFlag) = asks dma side oflag := by
  unfold mode asks
  by_cases hint : has oflag side.intFlag = true
  · rw [if_pos hint, hint, h, Bool.true_or]
  · rw [if_neg hint, Bool.eq_false_of_not_eq_true hint, Bool.false_or]
    by_cases hdma : dma = true ∧ has oflag side.dmaFlag = true
    · rw [if_pos hdma, hdma.1, hdma.2, h', Bool.true_and]
    · rw [if_neg hdma, has_zero_left]
      exact (Bool.eq_false_of_not_eq_true fun h => hdma ((Bool.and_eq_true _ _).mp h)).symm

theorem has_mode_other {f : BitVec 16} (h : has side.intFlag f = false) (h' : dma = true → has side.dmaFlag f = false) :
    has (mode dma side oflag) f = false := by
  unfold mode
  split
  · exact h
  · split
    · rename_i hd
      exact h' hd.1
    · exact has_zero_left f

/-! ### The device -/

/-- The bits of `open_flag` after an open: those of the two modes, above the low byte. -/
theorem open_has {stream f : BitVec 16} (rx tx : BitVec 16) (hlow : 0xff &&& f = 0) (hstream : stream = flagStream ∨ stream = 0) :
    has ((((oflag &&& 0xff ||| rx) ||| tx) ||| stream) ||| oflagOpen) f = (has rx f || has tx f) := by
  have hopen : has oflagOpen f = false := by
    rw [show oflagOpen = 0xff &&& oflagOpen by decide, BitVec.and_comm, has_and, hlow, has_zero_right]
  have hst : has stream f = false := by
    rcases hstream with rfl | rfl
    · rw [show flagStream = 0xff &&& flagStream by decide, BitVec.and_comm, has_and, hlow, has_zero_right]
    · exact has_zero_left f
  simp only [has_or, has_and, hlow, hopen, hst, has_zero_right, Bool.false_or, Bool.or_false]

variable {bufsz : ℕ} {dev dev' : RtDevice Serial}

/-- The FIFOs that are allocated are the ones in use. -/
def InUse (d : Serial) : Prop := d.heap.Perm (d.serialRx.toList ++ d.serialTx.toList)

/-- What an open that is accepted does to the device. -/
structure Opened (dma : Bool) (bufsz : ℕ) (oflag : BitVec 16) (dev dev' : RtDevice Serial) : Prop where
  has_eq : ∀ f, 0xff &&& f = 0 → has dev'.openFlag f = (has (mode dma (rxSide bufsz) oflag) f || has (mode dma txSide oflag) f)
  rx_isSome : dev'.driver.serialRx.isSome = (dev.driver.serialRx.isSome || asks dma (rxSide bufsz) oflag)
  tx_isSome : dev'.driver.serialTx.isSome = (dev.driver.serialTx.isSome || asks dma txSide oflag)
  heap : InUse dev.driver → InUse dev'.driver

theorem rtSerialOpen_of_supported (hs : supported dev.flag oflag = true) :
    (rtSerialOpen dma bufsz dev oflag).2 = rtEok ∧ (rtSerialOpen dma bufsz dev oflag).1.refCount = dev.refCount ∧
    (rtSerialOpen dma bufsz dev oflag).1.flag = dev.flag ∧
    ∀ n, Opened dma bufsz oflag dev { (rtSerialOpen dma bufsz dev oflag).1 with
      openFlag := (rtSerialOpen dma bufsz dev oflag).1.openFlag ||| oflagOpen
      refCount := n } := by
  simp only [rtSerialOpen, if_pos hs, onSides]
  refine ⟨trivial, trivial, trivial, fun n => ⟨fun f hf => ?_, openSide_isSome, openSide_isSome, fun hheap => ?_⟩⟩
  · simp only [openSide_flag]
    refine open_has _ _ hf ?_
    split
    · exact Or.inl rfl
    · exact Or.inr rfl
  · have hrx := @openSide_heap dma (rxSide bufsz) oflag
      ⟨oflag &&& 0xff, dev.driver.serialRx, dev.driver.heap, dev.driver.next⟩ _ hheap
    unfold InUse
    generalize openSide dma (rxSide bufsz) oflag
      ⟨oflag &&& 0xff, dev.driver.serialRx, dev.driver.heap, dev.driver.next⟩ = r at hrx ⊢
    have htx := @openSide_heap dma txSide oflag ⟨r.openFlag, dev.driver.serialTx, r.heap, r.next⟩ _
      (hrx.trans List.perm_append_comm)
    exact htx.trans List.perm_append_comm

/-- The driver opens the device: it has the modes that are asked for, and no one else has the device
alone. -/
def Accepts (dev : RtDevice Serial) (oflag : BitVec 16) : Prop :=
  supported dev.flag oflag = true ∧ ¬(has dev.flag flagStandalone = true ∧ has dev.openFlag oflagOpen = true)

instance (dev : RtDevice Serial) (oflag : BitVec 16) : Decidable (Accepts dev oflag) :=
  inferInstanceAs (Decidable (_ ∧ _))

structure Inv (dma : Bool) (dev : RtDevice Serial) : Prop where
  bound : dev.refCount < 256
  fresh : has dev.flag flagActivated = false → dev.driver.serialRx = none ∧ dev.driver.serialTx = none
  rx_dma : dma = false → has dev.openFlag flagDmaRx = false
  tx_dma : dma = false → has dev.openFlag flagDmaTx = false

theorem activated_has (x : BitVec 16) {f : BitVec 16} (hf : has flagActivated f = false) :
    has (x ||| flagActivated) f = has x f := by
  rw [has_or, hf, Bool.or_false]

theorem activated_supported (flag oflag : BitVec 16) : supported (flag ||| flagActivated) oflag = supported flag oflag := by
  unfold supported
  simp only [List.all_cons, List.all_nil, activated_has flag (show has flagActivated flagDmaRx = false by decide),
    activated_has flag (show has flagActivated flagDmaTx = false by decide),
    activated_has flag (show has flagActivated flagIntRx = false by decide),
    activated_has flag (show has flagActivated flagIntTx = false by decide)]

theorem activate_eq (hI : Inv dma dev) : ∃ flag, activate (serialOps dma bufsz) dev = ({ dev with flag := flag }, rtEok) ∧
    has flag flagActivated = true ∧ supported flag oflag = supported dev.flag oflag ∧
    has flag flagStandalone = has dev.flag flagStandalone := by
  unfold activate
  by_cases ha : has dev.flag flagActivated = true
  · rw [if_pos ha]
    exact ⟨dev.flag, rfl, ha, rfl, rfl⟩
  · obtain ⟨hrx, htx⟩ := hI.fresh (Bool.eq_false_of_not_eq_true ha)
    refine ⟨dev.flag ||| flagActivated, ?_, ?_, activated_supported .., activated_has _ (by decide)⟩
    · obtain ⟨flag, openFlag, refCount, ⟨rx, tx, heap, next⟩⟩ := dev
      simp only at hrx htx
      rw [if_neg ha, hrx, htx]
      rfl
    · rw [has_or, show has flagActivated flagActivated = true by decide, Bool.or_true]

theorem open_cases {o : RtDevice Serial × Except ℤ ℤ} (hI : Inv dma dev)
    (h : rtDeviceOpen (serialOps dma bufsz) dev oflag = some o) :
    has o.1.flag flagActivated = true ∧
    ((¬Accepts dev oflag ∧ ∃ flag, o.1 = { dev with flag := flag }) ∨
    (Accepts dev oflag ∧ o.1.refCount = dev.refCount + 1 ∧ dev.refCount + 1 < 256 ∧ Opened dma bufsz oflag dev o.1)) := by
  obtain ⟨flag, hact, hset, hsup, hstand⟩ := @activate_eq dma oflag bufsz dev hI
  unfold rtDeviceOpen Accepts at *
  rw [hact] at h
  simp only [ne_eq, not_true_eq_false, if_false, hstand] at h
  split at h
  · rename_i hbusy
    cases h
    exact ⟨hset, Or.inl ⟨fun ha => ha.2 hbusy, flag, rfl⟩⟩
  · rename_i hfree
    by_cases hs : supported dev.flag oflag = true
    · obtain ⟨hok, href, hflag, hopened⟩ := @rtSerialOpen_of_supported dma oflag bufsz
        { dev with flag := flag } (hsup.trans hs)
      simp only [callOpen, serialOps, hok] at h
      rw [if_pos (by decide)] at h
      split at h
      · rename_i hne
        cases h
        rw [href] at hne
        have hinc : inc 8 dev.refCount = dev.refCount + 1 :=
          inc_of_lt (lt_of_le_of_ne hI.bound fun he => hne (inc_max he))
        have hlt := inc_lt 8 dev.refCount
        refine ⟨(congrArg (has · flagActivated) hflag).trans hset, Or.inr ⟨⟨hs, hfree⟩, ?_, ?_, ?_⟩⟩
        · exact (congrArg (inc 8) href).trans hinc
        · rw [← hinc]
          exact hlt
        · obtain ⟨h1, h2, h3, h4⟩ := hopened (inc 8 (rtSerialOpen dma bufsz { dev with flag := flag } oflag).1.refCount)
          exact ⟨h1, h2, h3, h4⟩
      · cases h
    · have hno : rtSerialOpen dma bufsz { dev with flag := flag } oflag = ({ dev with flag := flag }, -rtEio) :=
        if_neg fun hs' => hs (hsup.symm.trans hs')
      simp only [callOpen, serialOps, hno] at h
      rw [if_neg (by decide)] at h
      cases h
      exact ⟨hset, Or.inl ⟨fun ha => hs ha.1, flag, rfl⟩⟩

/-- The last close frees what `open_flag` says. -/
theorem rtSerialClose_spec (hI : Inv dma dev) (hc : Consistent dev) (hone : dev.refCount = 1) (n : ℕ) (hn : n ≤ 1) :
    (rtSerialClose dma bufsz { dev with refCount := n }).2 = rtEok ∧
    (rtSerialClose dma bufsz { dev with refCount := n }).1.flag = dev.flag ∧
    (rtSerialClose dma bufsz { dev with refCount := n }).1.refCount = n ∧
    (rtSerialClose dma bufsz { dev with refCount := n }).1.driver.serialRx = none ∧
    (rtSerialClose dma bufsz { dev with refCount := n }).1.driver.serialTx = none ∧
    (rtSerialClose dma bufsz { dev with refCount := n }).1.driver.heap = [] := by
  have hpos : 0 < dev.refCount := by omega
  unfold rtSerialClose
  rw [if_neg (Nat.not_lt.mpr hn)]
  simp only [onSides]
  have hrx := @closeSide_spec dma (rxSide bufsz)
    ⟨dev.openFlag, dev.driver.serialRx, dev.driver.heap, dev.driver.next⟩ dev.driver.serialTx.toList
    (hc.rx_iff hpos) hI.rx_dma hc.heap
  have htxflag {f : BitVec 16} (h : ~~~flagIntRx &&& f = f) (h' : ~~~flagDmaRx &&& f = f) :=
    @closeSide_has dma (rxSide bufsz) ⟨dev.openFlag, dev.driver.serialRx, dev.driver.heap, dev.driver.next⟩ f h h'
  have htx := @closeSide_spec dma txSide
    ⟨(closeSide dma (rxSide bufsz) ⟨dev.openFlag, dev.driver.serialRx, dev.driver.heap, dev.driver.next⟩).openFlag,
      dev.driver.serialTx,
      (closeSide dma (rxSide bufsz) ⟨dev.openFlag, dev.driver.serialRx, dev.driver.heap, dev.driver.next⟩).heap,
      (closeSide dma (rxSide bufsz) ⟨dev.openFlag, dev.driver.serialRx, dev.driver.heap, dev.driver.next⟩).next⟩ []
    ((hc.tx_iff hpos).trans (by rw [htxflag (by decide) (by decide)]; rfl))
    (fun hd => (htxflag (by decide) (by decide)).trans (hI.tx_dma hd))
    (hrx.2.trans (List.append_nil _ ▸ List.Perm.refl _))
  exact ⟨trivial, trivial, trivial, hrx.1, htx.1, htx.2.eq_nil⟩

theorem close_cases (hI : Inv dma dev) (hc : Consistent dev) :
    (dev.refCount = 0 ∧ (rtDeviceClose (serialOps dma bufsz) dev).1 = dev) ∨
    (1 < dev.refCount ∧ (rtDeviceClose (serialOps dma bufsz) dev).1 = { dev with refCount := dev.refCount - 1 }) ∨
    (dev.refCount = 1 ∧
      (rtDeviceClose (serialOps dma bufsz) dev).1.flag = dev.flag ∧
      (rtDeviceClose (serialOps dma bufsz) dev).1.refCount = 0 ∧
      (rtDeviceClose (serialOps dma bufsz) dev).1.openFlag = oflagClose ∧
      (rtDeviceClose (serialOps dma bufsz) dev).1.driver.serialRx = none ∧
      (rtDeviceClose (serialOps dma bufsz) dev).1.driver.serialTx = none ∧
      (rtDeviceClose (serialOps dma bufsz) dev).1.driver.heap = []) := by
  unfold rtDeviceClose
  by_cases hzero : dev.refCount = 0
  · rw [if_pos hzero]
    exact Or.inl ⟨hzero, rfl⟩
  · rw [if_neg hzero, dec_of_pos (Nat.pos_of_ne_zero hzero)]
    by_cases hone : dev.refCount = 1
    · obtain ⟨hok, hflag, href, hrx, htx, hheap⟩ := @rtSerialClose_spec dma bufsz dev hI hc hone 0 (Nat.zero_le 1)
      have hcall : succeeded (callClose (serialOps dma bufsz) { dev with refCount := 0 }).2 = true :=
        congrArg succeeded hok
      simp only [hone, Nat.sub_self, ne_eq, not_true_eq_false, if_false, if_pos hcall]
      exact Or.inr (Or.inr ⟨trivial, hflag, href, trivial, hrx, htx, hheap⟩)
    · simp only
      rw [if_pos (by omega)]
      exact Or.inr (Or.inl ⟨by omega, rfl⟩)

/-- An open of a device that has a FIFO asks for it again. -/
def Reopens (dma : Bool) (bufsz : ℕ) (dev : RtDevice Serial) : Act → Prop
  | .opened oflag => Accepts dev oflag →
      (dev.driver.serialRx.isSome = true → asks dma (rxSide bufsz) oflag = true) ∧
      (dev.driver.serialTx.isSome = true → asks dma txSide oflag = true)
  | .closed => True

theorem rx_mode_has {f : BitVec 16} (h : has flagIntRx f = false) (h' : dma = true → has flagDmaRx f = false) :
    has (mode dma (rxSide bufsz) oflag) f = false := has_mode_other h h'

theorem tx_mode_has {f : BitVec 16} (h : has flagIntTx f = false) (h' : dma = true → has flagDmaTx f = false) :
    has (mode dma txSide oflag) f = false := has_mode_other h h'

theorem Opened.has_rx (h : Opened dma bufsz oflag dev dev') : has dev'.openFlag flagsRx = asks dma (rxSide bufsz) oflag := by
  rw [h.has_eq _ (by decide), tx_mode_has (by decide) (fun _ => by decide), Bool.or_false]
  exact @has_mode_self dma (rxSide bufsz) oflag (show has flagIntRx flagsRx = true by decide)
    (show has flagDmaRx flagsRx = true by decide)

theorem Opened.has_tx (h : Opened dma bufsz oflag dev dev') : has dev'.openFlag flagsTx = asks dma txSide oflag := by
  rw [h.has_eq _ (by decide), rx_mode_has (by decide) (fun _ => by decide), Bool.false_or]
  exact has_mode_self (by decide) (by decide)

theorem or_iff_self {a b : Bool} : ((a || b) = true ↔ b = true) ↔ (a = true → b = true) := by
  cases a <;> cases b <;> decide

theorem step_inv {a : Act} (hI : Inv dma dev) (hc : Consistent dev) (hstep : step dma bufsz dev a = some dev') :
    Inv dma dev' := by
  cases a with
  | opened oflag =>
    obtain ⟨o, ho, rfl⟩ := Option.map_eq_some_iff.mp hstep
    obtain ⟨hact, ⟨-, flag, heq⟩ | ⟨-, href, hlt, hopened⟩⟩ := open_cases hI ho
    · rw [heq] at hact ⊢
      exact ⟨hI.bound, fun hf => absurd hact (by rw [hf]; decide), hI.rx_dma, hI.tx_dma⟩
    · refine ⟨href.trans_lt hlt, fun hf => absurd hact (by rw [hf]; decide), fun hd => ?_, fun hd => ?_⟩
      · rw [hopened.has_eq _ (by decide), rx_mode_has (by decide) (by simp [hd]), tx_mode_has (by decide) (by simp [hd]),
          Bool.or_false]
      · rw [hopened.has_eq _ (by decide), rx_mode_has (by decide) (by simp [hd]), tx_mode_has (by decide) (by simp [hd]),
          Bool.or_false]
  | closed =>
    cases hstep
    have hb := hI.bound
    rcases @close_cases dma bufsz dev hI hc with ⟨-, heq⟩ | ⟨-, heq⟩ | ⟨-, hflag, href, hopen, hrx, htx, -⟩
    · rw [heq]
      exact hI
    · rw [heq]
      exact ⟨by simp only; omega, hI.fresh, hI.rx_dma, hI.tx_dma⟩
    · refine ⟨by omega, fun _ => ⟨hrx, htx⟩, fun _ => ?_, fun _ => ?_⟩ <;> rw [hopen] <;> exact has_zero_left _

theorem step_consistent_iff {a : Act} (hI : Inv dma dev) (hc : Consistent dev) (hstep : step dma bufsz dev a = some dev') :
    Consistent dev' ↔ Reopens dma bufsz dev a := by
  cases a with
  | opened oflag =>
    obtain ⟨o, ho, rfl⟩ := Option.map_eq_some_iff.mp hstep
    unfold Reopens
    obtain ⟨-, ⟨hno, flag, heq⟩ | ⟨hacc, href, hlt, hopened⟩⟩ := open_cases hI ho
    · rw [heq]
      exact iff_of_true ⟨hc.rx_iff, hc.tx_iff, hc.closed, hc.heap⟩ fun ha => absurd ha hno
    · constructor
      · intro h _
        have hpos : 0 < o.1.refCount := by omega
        refine ⟨or_iff_self.mp ?_, or_iff_self.mp ?_⟩
        · rw [← hopened.rx_isSome, ← hopened.has_rx]
          exact h.rx_iff hpos
        · rw [← hopened.tx_isSome, ← hopened.has_tx]
          exact h.tx_iff hpos
      · intro h
        refine ⟨fun _ => ?_, fun _ => ?_, fun hz => by omega, hopened.heap hc.heap⟩
        · rw [hopened.rx_isSome, hopened.has_rx]
          exact or_iff_self.mpr (h hacc).1
        · rw [hopened.tx_isSome, hopened.has_tx]
          exact or_iff_self.mpr (h hacc).2
  | closed =>
    cases hstep
    refine iff_of_true ?_ trivial
    rcases @close_cases dma bufsz dev hI hc with ⟨-, heq⟩ | ⟨hgt, heq⟩ | ⟨-, -, href, -, hrx, htx, hheap⟩
    · rw [heq]
      exact hc
    · rw [heq]
      refine ⟨fun _ => hc.rx_iff (by omega), fun _ => hc.tx_iff (by omega), fun hz => ?_, hc.heap⟩
      simp only at hz
      omega
    · refine ⟨fun hpos => by omega, fun hpos => by omega, fun _ => ⟨hrx, htx⟩, ?_⟩
      rw [hrx, htx, hheap]
      exact List.Perm.refl _

/-- The FIFOs agree with the flags along a run exactly if every open of a device that has a FIFO asks
for it again. -/
theorem serial_consistent_iff (dma : Bool) (bufsz : ℕ) (flag : BitVec 16) (acts : List Act) :
    AllStates (step dma bufsz) Consistent (registered flag) acts ↔
      AllSteps (step dma bufsz) (Reopens dma bufsz) (registered flag) acts :=
  allStates_iff_allSteps_of_inv (Inv dma) Consistent (Reopens dma bufsz)
    (fun _ _ _ hI hc hstep => step_inv hI hc hstep) (fun _ _ _ hI hc hstep => step_consistent_iff hI hc hstep) acts
    ⟨Nat.zero_lt_succ 255, fun _ => ⟨rfl, rfl⟩, fun _ => has_zero_left _, fun _ => has_zero_left _⟩
    ⟨fun h => absurd h (lt_irrefl 0), fun h => absurd h (lt_irrefl 0), fun _ => ⟨rfl, rfl⟩, List.Perm.refl _⟩

/-- A second open without the receive mode drops the flag, and the FIFO survives both closes. -/
theorem serial_fifo_leaked :
    exec (step true 64) (registered (3 ||| flagIntRx)) [.opened (3 ||| flagIntRx), .opened 3, .closed, .closed] =
        some ⟨3 ||| flagIntRx ||| flagActivated, oflagClose, 0, ⟨some ⟨0, .rxFifo⟩, none, [⟨0, .rxFifo⟩], 1⟩⟩ ∧
      ¬AllStates (step true 64) Consistent (registered (3 ||| flagIntRx))
        [.opened (3 ||| flagIntRx), .opened 3, .closed, .closed] := by
  refine ⟨rfl, fun hall => ?_⟩
  have hlast := (((hall.2 _ rfl).2 _ rfl).2 _ rfl).2 _ rfl
  exact absurd (hlast.closed rfl).1 (by decide)

end RtThread.Drivers.SerialOpen
