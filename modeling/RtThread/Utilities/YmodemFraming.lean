import RtThread.Lib.Word
import RtThread.Utilities.YmodemDevice

/-!
# The three stages of the receiver (`ymodem.c:114-335`)

The handshake, the transfer and the finish each have their own code for a package: a byte that tells its size, its
number and the complement, the data, and a CRC.
-/

namespace RtThread.Utilities.YmodemFraming

open RtThread.Lib.Ring RtThread.Utilities.Ymodem RtThread.Utilities.YmodemDevice

def rymCodeNak : UInt8 := 0x15

def rymErrTmo : ℤ := 0x70

/-- `_RYM_SOH_PKG_SZ` -/
def rymSohPkgSz : ℕ := 1 + 2 + 128 + 2

/-- `_RYM_STX_PKG_SZ` -/
def rymStxPkgSz : ℕ := 1 + 2 + 1024 + 2

/-- A call of a callback, with the data that it gets. -/
inductive Call where
  | onBegin (data : List UInt8)
  | onData (data : List UInt8)
  | onEnd (data : List UInt8)
  deriving DecidableEq, Repr

/-- The callbacks; each of them may be `RT_NULL`. -/
structure Callbacks where
  onBegin : Option (List UInt8 → UInt8)
  onData : Option (List UInt8 → UInt8)
  onEnd : Bool

/-- `struct rym_ctx`, with the bytes sent and the calls made. -/
structure Ctx where
  buf : ℕ → UInt8
  dev : Device
  stage : RymStage
  sent : List UInt8
  calls : List Call

def Ctx.putchar (ctx : Ctx) (code : UInt8) : Ctx := { ctx with sent := ctx.sent ++ [code] }

/-- `_rym_read_code`. The code goes through `buf[0]`, which nothing else looks at. -/
def Ctx.readCode (ctx : Ctx) : UInt8 × Ctx :=
  let (code, dev) := rymReadCode ctx.dev
  (code, { ctx with dev := dev })

def Ctx.readData (ctx : Ctx) (len : ℕ) : ℕ × Ctx :=
  let (readlen, buf, dev) := rymReadData ctx.buf ctx.dev len
  (readlen, { ctx with buf := buf, dev := dev })

/-- `on_begin` is called, if there is one, and agrees. -/
def Ctx.begin (ctx : Ctx) (callbacks : Callbacks) (data : List UInt8) : ℤ × Ctx :=
  match callbacks.onBegin with
  | none => (0, ctx)
  | some onBegin =>
    (if onBegin data = rymCodeAck then 0 else -rymErrCan, { ctx with calls := ctx.calls ++ [.onBegin data] })

/-- The loop of `_rym_do_handshake` that waits for a package, with so many rounds to go; its result is `data_sz`. -/
def handshakeCode : ℕ → Ctx → Option ℕ × Ctx
  | 0, ctx => (none, ctx)
  | n + 1, ctx =>
    let (code, ctx) := (ctx.putchar rymCodeC).readCode
    if code = rymCodeSoh then (some rymSohPkgSz, ctx)
    else if code = rymCodeStx then (some rymStxPkgSz, ctx)
    else handshakeCode n ctx

/-- `rt_tick_get() <= (tick + rt_tick_from_millisecond(100))` -/
def tickLe (tickPerSecond now tick : ℕ) : Prop := now ≤ (tick + (tickPerSecond * 100 + 999) / 1000) % 2 ^ 32

instance tickLe.decidable (tickPerSecond now tick : ℕ) : Decidable (tickLe tickPerSecond now tick) :=
  inferInstanceAs (Decidable (_ ≤ _))

/-- The loop of `_rym_do_handshake` that reads the package; `ticks` are the next results of `rt_tick_get`. -/
def handshakeData (tickPerSecond tick dataSz : ℕ) : List ℕ → ℕ → Ctx → Option (ℕ × Ctx)
  | [], _, _ => none
  | now :: ticks, i, ctx =>
    if tickLe tickPerSecond now tick ∧ i < dataSz - 1 then
      let (n, ctx) := ctx.readData (dataSz - 1)
      handshakeData tickPerSecond tick dataSz ticks (i + n) ctx
    else some (i, ctx)

/-- `_rym_do_handshake` behind the reading. -/
def handshakeCheck (callbacks : Callbacks) (dataSz i : ℕ) (ctx : Ctx) : ℤ × Ctx :=
  if i ≠ dataSz - 1 then (-rymErrDsz, ctx)
  else if ctx.buf 1 ≠ 0 ∨ ctx.buf 2 ≠ 0xFF then (-rymErrSeq, ctx)
  else if joinCrc (ctx.buf (dataSz - 2)) (ctx.buf (dataSz - 1)) ≠ crc16 (slice ctx.buf 3 (dataSz - 5)) then
    (-rymErrCrc, ctx)
  else ctx.begin callbacks (slice ctx.buf 3 (dataSz - 5))

/-- `_rym_do_handshake` (`ymodem.c:120-180`). -/
def rymDoHandshake (callbacks : Callbacks) (tickPerSecond tmSec : ℕ) (ticks : List ℕ) (ctx : Ctx) :
    Option (ℤ × Ctx) :=
  match handshakeCode tmSec { ctx with stage := .establishing } with
  | (none, ctx) => some (-rymErrTmo, ctx)
  | (some dataSz, ctx) =>
    match ticks with
    | [] => none
    | tick :: ticks =>
      (handshakeData tickPerSecond tick dataSz ticks 0 ctx).map fun r => handshakeCheck callbacks dataSz r.1 r.2

/-- `_rym_trans_data` (`ymodem.c:182-223`), on the bytes that it reads. -/
def Ctx.transData (ctx : Ctx) (callbacks : Callbacks) (dataSz : ℕ) (code : UInt8) : Trans × Ctx :=
  let (i, ctx) := ctx.readData (2 + dataSz + 2)
  let onData := fun data => (callbacks.onData.map fun f => f data).getD rymCodeAck
  let t := rymTransData ctx.stage onData dataSz code (slice ctx.buf 1 i)
  (t, { ctx with
    stage := t.stage
    calls := ctx.calls ++ if callbacks.onData.isSome = true then t.data.map .onData else [] })

/-- A pass of the loop of `_rym_do_trans` (`ymodem.c:231-271`); it returns, or goes on. -/
def rymDoTransPass (callbacks : Callbacks) (ctx : Ctx) : Option ℤ × Ctx :=
  let (code, ctx) := ctx.readCode
  let finish := fun r : Trans × Ctx => ((answer r.1).ret, { r.2 with sent := r.2.sent ++ (answer r.1).sent })
  if code = rymCodeSoh then finish (ctx.transData callbacks 128 code)
  else if code = rymCodeStx then finish (ctx.transData callbacks 1024 code)
  else if code = rymCodeEot then (some 0, ctx)
  else (some (-rymErrCode), ctx)

/-- `_rym_do_fin` behind the code of the package; `dataSz` is what the code says. -/
def finPackage (callbacks : Callbacks) (dataSz : ℕ) (ctx : Ctx) : ℤ × Ctx :=
  let (i, ctx) := ctx.readData (rymSohPkgSz - 1)
  if i ≠ rymSohPkgSz - 1 then (-rymErrDsz, ctx)
  else if ctx.buf 1 ≠ 0 ∨ ctx.buf 2 ≠ 0xFF then (-rymErrSeq, ctx)
  else if joinCrc (ctx.buf (rymSohPkgSz - 2)) (ctx.buf (rymSohPkgSz - 1)) ≠
      crc16 (slice ctx.buf 3 (rymSohPkgSz - 5)) then
    (-rymErrCrc, ctx)
  else if ctx.buf 3 ≠ 0 then ctx.begin callbacks (slice ctx.buf 3 (dataSz - 5))
  else (0, Ctx.putchar { ctx with stage := .finished } rymCodeAck)

/-- `_rym_do_fin` (`ymodem.c:274-335`). -/
def rymDoFin (callbacks : Callbacks) (ctx : Ctx) : ℤ × Ctx :=
  let ctx := { ctx with
    stage := .finishing
    calls := ctx.calls ++ if callbacks.onEnd = true then [Call.onEnd (slice ctx.buf 3 128)] else [] }
  let (code, ctx) := (ctx.putchar rymCodeNak).readCode
  if code ≠ rymCodeEot then (-rymErrCode, ctx)
  else
    let (code, ctx) := ((ctx.putchar rymCodeAck).putchar rymCodeC).readCode
    if code = rymCodeSoh then finPackage callbacks rymSohPkgSz ctx
    else if code = rymCodeStx then finPackage callbacks rymStxPkgSz ctx
    else (-rymErrCode, ctx)

/-! ### Packages -/

/-- A package, with any number, complement and CRC. -/
structure Frame where
  seq : UInt8
  complement : UInt8
  payload : List UInt8
  crcHi : UInt8
  crcLo : UInt8
  size_eq : payload.length = 128 ∨ payload.length = 1024

def Frame.body (f : Frame) : List UInt8 := f.seq :: f.complement :: (f.payload ++ [f.crcHi, f.crcLo])

def Frame.code (f : Frame) : UInt8 := if f.payload.length = 128 then rymCodeSoh else rymCodeStx

def Frame.bytes (f : Frame) : List UInt8 := f.code :: f.body

/-- The complement and the CRC are right. -/
def Frame.Valid (f : Frame) : Prop :=
  f.seq.toNat + f.complement.toNat = 0xFF ∧ joinCrc f.crcHi f.crcLo = crc16 f.payload

/-- The stages; the handshake with the seconds that it waits and the ticks that it is told. -/
inductive Receiving where
  | handshake (tmSec tick now later : ℕ)
  | transfer
  | finish
  deriving DecidableEq, Repr

def receive (callbacks : Callbacks) (tickPerSecond : ℕ) (stage : Receiving) (ctx : Ctx) : Option (Option ℤ × Ctx) :=
  match stage with
  | .handshake tmSec tick now later =>
    (rymDoHandshake callbacks tickPerSecond tmSec [tick, now, later] ctx).map fun r => (some r.1, r.2)
  | .transfer => some (rymDoTransPass callbacks ctx)
  | .finish => some (some (rymDoFin callbacks ctx).1, (rymDoFin callbacks ctx).2)

/-- The bytes come in time: none for so many rounds of the handshake, and then all before the next silence. -/
def Arrives (bytes : List UInt8) : ℕ → Device → Prop
  | 0, dev => bytes <+: dev.coming
  | n + 1, dev => dev.coming = [] ∧ Arrives bytes n ⟨[], afterSilence dev.events⟩

/-- The package comes in time; in the finish, the second `EOT` comes before it. -/
def InTime (f : Frame) (dev : Device) : Receiving → Prop
  | .handshake tmSec _ _ _ => ∃ n < tmSec, Arrives f.bytes n dev
  | .transfer => Arrives f.bytes 0 dev
  | .finish => Arrives (rymCodeEot :: f.bytes) 0 dev

/-- The number is the one that the stage expects. -/
def Expected (f : Frame) (ctx : Ctx) : Receiving → Prop
  | .handshake _ _ _ _ => f.seq = 0
  | .transfer => ¬(ctx.stage = .established ∧ f.seq = 0)
  | .finish => f.seq = 0

/-- The callback that the stage has for a package, and what the stage makes of its answer. The empty package ends
the finish without a callback. -/
def notified (callbacks : Callbacks) (f : Frame) : Receiving → List Call
  | .handshake _ _ _ _ => if callbacks.onBegin.isSome = true then [.onBegin f.payload] else []
  | .transfer => if callbacks.onData.isSome = true then [.onData f.payload] else []
  | .finish => if f.payload.getD 0 0 ≠ 0 ∧ callbacks.onBegin.isSome = true then [.onBegin f.payload] else []

def verdict (callbacks : Callbacks) (f : Frame) : Receiving → Option ℤ
  | .handshake _ _ _ _ =>
    some (if ∀ onBegin ∈ callbacks.onBegin, onBegin f.payload = rymCodeAck then 0 else -rymErrCan)
  | .transfer => if ∃ onData ∈ callbacks.onData, onData f.payload = rymCodeCan then some (-rymErrCan) else none
  | .finish =>
    some (if f.payload.getD 0 0 ≠ 0 → ∀ onBegin ∈ callbacks.onBegin, onBegin f.payload = rymCodeAck then 0
      else -rymErrCan)

/-- The bytes of the stage are consumed, the package is passed on, and the callback decides. -/
def Accepted (callbacks : Callbacks) (tickPerSecond : ℕ) (stage : Receiving) (ctx : Ctx) (f : Frame) : Prop :=
  ∃ ctx' ends, receive callbacks tickPerSecond stage ctx = some (verdict callbacks f stage, ctx') ∧
    ctx.dev.content = (if stage = .finish then [rymCodeEot] else []) ++ f.bytes ++ ctx'.dev.content ∧
      ctx'.calls = ctx.calls ++ ends ++ notified callbacks f stage ∧ ∀ c ∈ ends, ∃ data, c = .onEnd data

/-- No callback gets a package. -/
def Ignored (callbacks : Callbacks) (tickPerSecond : ℕ) (stage : Receiving) (ctx : Ctx) : Prop :=
  ∃ ret ctx' ends, receive callbacks tickPerSecond stage ctx = some (ret, ctx') ∧
    ctx'.calls = ctx.calls ++ ends ∧ ∀ c ∈ ends, ∃ data, c = .onEnd data

/-- What the stage leaves of the claim for a package with a right complement and CRC. -/
def Receives (tickPerSecond : ℕ) (f : Frame) : Receiving → Prop
  | .handshake _ tick now _ => tickLe tickPerSecond now tick
  | .transfer => True
  | .finish => f.payload.length = 128

/-- The finish takes the first 128 bytes of a long package, and the next two, for a short one. -/
def Mistaken (callbacks : Callbacks) (f : Frame) (stage : Receiving) : Prop :=
  stage = .finish ∧ f.payload.length = 1024 ∧ f.seq = 0 ∧ f.complement = 0xFF ∧
    joinCrc (f.payload.getD 128 0) (f.payload.getD 129 0) = crc16 (f.payload.take 128) ∧
      f.payload.getD 0 0 ≠ 0 ∧ callbacks.onBegin.isSome = true

variable {callbacks : Callbacks} {tickPerSecond : ℕ} {f : Frame} {ctx : Ctx}

section Buffer

variable {buf : ℕ → UInt8} {n : ℕ}

theorem slice_copy_self (buf : ℕ → UInt8) (a : ℕ) (data : List UInt8) :
    slice (copy buf a data) a data.length = data := by
  have hall := slice_copy buf a data
  have hdrop := drop_slice (copy buf a data) 0 a (a + data.length)
  rw [hall, Nat.zero_add, Nat.add_sub_cancel_left] at hdrop
  rw [← hdrop, List.drop_left' (length_slice buf 0 a)]

theorem Frame.length_body (f : Frame) : f.body.length = f.payload.length + 4 := by
  rw [Frame.body, List.length_cons, List.length_cons, List.length_append]
  rfl

/-- What the buffer holds behind the code. -/
structure Holds (buf : ℕ → UInt8) (f : Frame) : Prop where
  seq : buf 1 = f.seq
  complement : buf 2 = f.complement
  payload : slice buf 3 f.payload.length = f.payload
  crcHi : buf (f.payload.length + 3) = f.crcHi
  crcLo : buf (f.payload.length + 4) = f.crcLo

theorem holds_copy (buf : ℕ → UInt8) (f : Frame) : Holds (copy buf 1 f.body) f := by
  have hall := slice_copy_self buf 1 f.body
  have hget : ∀ i (hi : i < f.body.length), copy buf 1 f.body (1 + i) = f.body[i] := by
    intro i hi
    have hsame := (List.getElem_of_eq hall (by rwa [length_slice])).symm
    rw [hsame]
    simp [slice]
  have hlen := f.length_body
  have hdrop := drop_slice (copy buf 1 f.body) 1 2 f.body.length
  rw [hall, hlen] at hdrop
  constructor
  · exact hget 0 (by omega)
  · exact hget 1 (by omega)
  · have htake := congrArg (List.take f.payload.length) hdrop
    rw [take_slice _ _ (by omega)] at htake
    exact htake.symm.trans List.take_left
  · have hhi := hget (f.payload.length + 2) (by omega)
    rw [show 1 + (f.payload.length + 2) = f.payload.length + 3 by omega] at hhi
    rw [hhi]
    simp [Frame.body]
  · have hlo := hget (f.payload.length + 3) (by omega)
    rw [show 1 + (f.payload.length + 3) = f.payload.length + 4 by omega] at hlo
    rw [hlo]
    simp [Frame.body]

end Buffer

/-! ### The handshake -/

theorem readCode_spec {code : UInt8} {more : List UInt8} (hcoming : ctx.dev.coming = code :: more) :
    ∃ dev', ctx.readCode = (code, { ctx with dev := dev' }) ∧ Consumed ctx.dev dev' [code] := by
  obtain ⟨dev', hread, hconsumed⟩ := rymReadCode_spec hcoming
  exact ⟨dev', by rw [Ctx.readCode, hread], hconsumed⟩

theorem readData_spec {len : ℕ} {bytes more : List UInt8} (hcoming : ctx.dev.coming = bytes ++ more)
    (hlen : bytes.length = len) :
    ∃ dev', ctx.readData len = (len, { ctx with buf := copy ctx.buf 1 bytes, dev := dev' }) ∧
      Consumed ctx.dev dev' bytes := by
  obtain ⟨dev', hread, hconsumed⟩ := rymReadData_spec ctx.buf hcoming hlen
  exact ⟨dev', by rw [Ctx.readData, hread], hconsumed⟩

/-- `data_sz` of `_rym_do_handshake` -/
def Frame.packageSize (f : Frame) : ℕ := f.payload.length + 5

theorem code_cases (f : Frame) :
    f.code = rymCodeSoh ∧ f.payload.length = 128 ∨ f.code = rymCodeStx ∧ f.payload.length = 1024 := by
  rcases f.size_eq with h | h
  · exact Or.inl ⟨by rw [Frame.code, if_pos h], h⟩
  · exact Or.inr ⟨by rw [Frame.code, if_neg (by omega)], h⟩

theorem handshakeCode_spec {n tmSec : ℕ} (hn : n < tmSec) (harrives : Arrives f.bytes n ctx.dev) :
    ∃ ctx' more, handshakeCode tmSec ctx = (some f.packageSize, ctx') ∧ ctx'.dev.coming = f.body ++ more ∧
      ctx.dev.content = f.code :: ctx'.dev.content ∧ ctx'.calls = ctx.calls ∧ ctx'.stage = ctx.stage := by
  obtain ⟨tmSec, rfl⟩ := Nat.exists_eq_succ_of_ne_zero (Nat.ne_zero_of_lt hn)
  induction n generalizing tmSec ctx with
  | zero =>
    obtain ⟨more, hmore⟩ := harrives
    have hcoming : (ctx.putchar rymCodeC).dev.coming = f.code :: (f.body ++ more) := hmore.symm
    obtain ⟨dev', hread, hconsumed⟩ := readCode_spec hcoming
    have hrest : dev'.coming = f.body ++ more := (List.cons.inj (hconsumed.coming.symm.trans hcoming)).2
    refine ⟨{ ctx.putchar rymCodeC with dev := dev' }, more, ?_, hrest, hconsumed.content, rfl, rfl⟩
    rw [handshakeCode, hread]
    rcases code_cases f with ⟨hcode, hsize⟩ | ⟨hcode, hsize⟩
    · rw [hcode, Frame.packageSize, hsize]
      rfl
    · rw [hcode, Frame.packageSize, hsize]
      rfl
  | succ n ih =>
    obtain ⟨hnone, hlater⟩ := harrives
    obtain ⟨tmSec, rfl⟩ := Nat.exists_eq_succ_of_ne_zero (show tmSec ≠ 0 by omega)
    have hread : (ctx.putchar rymCodeC).readCode =
        (rymCodeNone, { ctx.putchar rymCodeC with dev := ⟨[], afterSilence ctx.dev.events⟩ }) := by
      rw [Ctx.readCode, rymReadCode_silent (show (ctx.putchar rymCodeC).dev.coming = [] from hnone)]
      rfl
    obtain ⟨ctx', more, hcode, hcoming, hcontent, hcalls, hstage⟩ :=
      @ih { ctx.putchar rymCodeC with dev := ⟨[], afterSilence ctx.dev.events⟩ } hlater tmSec (by omega)
    refine ⟨ctx', more, ?_, hcoming, ?_, hcalls, hstage⟩
    · rw [handshakeCode, hread]
      exact hcode
    · rw [← content_afterSilence hnone]
      exact hcontent

theorem handshakeCheck_frame (h : Holds ctx.buf f) :
    handshakeCheck callbacks f.packageSize (f.packageSize - 1) ctx =
      if f.seq ≠ 0 ∨ f.complement ≠ 0xFF then (-rymErrSeq, ctx)
      else if joinCrc f.crcHi f.crcLo ≠ crc16 f.payload then (-rymErrCrc, ctx)
      else ctx.begin callbacks f.payload := by
  have hhi : f.packageSize - 2 = f.payload.length + 3 := rfl
  have hlo : f.packageSize - 1 = f.payload.length + 4 := rfl
  have hlen : f.packageSize - 5 = f.payload.length := rfl
  rw [handshakeCheck, if_neg (not_not.mpr rfl), hhi, hlo, hlen, h.seq, h.complement, h.crcHi, h.crcLo, h.payload]

theorem begin_eq (ctx : Ctx) (callbacks : Callbacks) (data : List UInt8) :
    (ctx.begin callbacks data).1 =
      (if ∀ onBegin ∈ callbacks.onBegin, onBegin data = rymCodeAck then 0 else -rymErrCan) ∧
      (ctx.begin callbacks data).2.dev = ctx.dev ∧
        (ctx.begin callbacks data).2.calls =
          ctx.calls ++ if callbacks.onBegin.isSome = true then [Call.onBegin data] else [] := by
  rw [Ctx.begin]
  cases callbacks.onBegin with
  | none => simp
  | some onBegin => simp

theorem valid_of_checks (hseq : ¬(f.seq ≠ 0 ∨ f.complement ≠ 0xFF))
    (hcrc : ¬joinCrc f.crcHi f.crcLo ≠ crc16 f.payload) : f.Valid := by
  obtain ⟨hzero, hff⟩ := not_or.mp hseq
  refine ⟨?_, not_not.mp hcrc⟩
  rw [not_not.mp hzero, not_not.mp hff]
  rfl

theorem complement_of_valid (hvalid : f.Valid) (hseq : f.seq = 0) : ¬(f.seq ≠ 0 ∨ f.complement ≠ 0xFF) := by
  have hsum := hvalid.1
  rw [hseq] at hsum
  have hcomplement : f.complement = 0xFF := UInt8.toNat_inj.mp ((Nat.zero_add _).symm.trans hsum)
  rw [hseq, hcomplement]
  decide

theorem handshake_read {n tmSec tick now later : ℕ} (hn : n < tmSec) (harrives : Arrives f.bytes n ctx.dev) :
    ∃ ctx', ctx'.calls = ctx.calls ∧
      (tickLe tickPerSecond now tick → Holds ctx'.buf f ∧ ctx.dev.content = f.bytes ++ ctx'.dev.content ∧
        rymDoHandshake callbacks tickPerSecond tmSec [tick, now, later] ctx =
          some (handshakeCheck callbacks f.packageSize (f.packageSize - 1) ctx')) ∧
      (¬tickLe tickPerSecond now tick →
        rymDoHandshake callbacks tickPerSecond tmSec [tick, now, later] ctx = some (-rymErrDsz, ctx')) := by
  obtain ⟨ctx₁, more, hcode, hcoming, hcontent, hcalls, -⟩ :=
    @handshakeCode_spec f { ctx with stage := .establishing } n tmSec hn harrives
  by_cases htick : tickLe tickPerSecond now tick
  · obtain ⟨dev', hread, hconsumed⟩ := readData_spec hcoming f.length_body
    refine ⟨{ ctx₁ with buf := copy ctx₁.buf 1 f.body, dev := dev' }, hcalls,
      fun _ => ⟨holds_copy ctx₁.buf f, ?_, ?_⟩, fun hnot => absurd htick hnot⟩
    · rw [Frame.bytes, List.cons_append, ← hconsumed.content]
      exact hcontent
    · have hpos : 0 < f.packageSize - 1 := Nat.succ_pos _
      have hsize : f.packageSize - 1 = f.payload.length + 4 := rfl
      have hend : ¬(tickLe tickPerSecond later tick ∧ 0 + (f.payload.length + 4) < f.packageSize - 1) := by
        rw [hsize, Nat.zero_add]
        exact fun h => lt_irrefl _ h.2
      rw [rymDoHandshake, hcode]
      dsimp only
      rw [handshakeData, if_pos ⟨htick, hpos⟩, hsize, hread]
      dsimp only
      rw [handshakeData, if_neg hend, Nat.zero_add]
      rfl
  · refine ⟨ctx₁, hcalls, fun h => absurd h htick, fun _ => ?_⟩
    rw [rymDoHandshake, hcode]
    dsimp only
    rw [handshakeData, if_neg (fun h => htick h.1), Option.map_some, handshakeCheck, if_pos]
    exact (Nat.succ_ne_zero _).symm

theorem handshake_framing {n tmSec tick now later : ℕ} (hn : n < tmSec) (harrives : Arrives f.bytes n ctx.dev) :
    (f.Valid → f.seq = 0 → (Accepted callbacks tickPerSecond (.handshake tmSec tick now later) ctx f ↔
      tickLe tickPerSecond now tick)) ∧
      (¬f.Valid → Ignored callbacks tickPerSecond (.handshake tmSec tick now later) ctx) := by
  obtain ⟨ctx', hcalls, hintime, hlate⟩ :=
    @handshake_read callbacks tickPerSecond f ctx n tmSec tick now later hn harrives
  constructor
  · intro hvalid hseq
    by_cases htick : tickLe tickPerSecond now tick
    · obtain ⟨hholds, hcontent, hresult⟩ := hintime htick
      rw [handshakeCheck_frame hholds, if_neg (complement_of_valid hvalid hseq),
        if_neg (not_not.mpr hvalid.2)] at hresult
      obtain ⟨hret, hdev, hbegin⟩ := begin_eq ctx' callbacks f.payload
      refine iff_of_true ⟨(ctx'.begin callbacks f.payload).2, [], ?_, ?_, ?_, fun _ hc => by cases hc⟩ htick
      · rw [receive, hresult, Option.map_some, hret, verdict]
      · rw [hdev]
        exact hcontent
      · rw [hbegin, hcalls, List.append_nil]
        rfl
    · refine iff_of_false ?_ htick
      rintro ⟨ctx'', ends, hresult, -⟩
      rw [receive, hlate htick, Option.map_some, verdict] at hresult
      have hret := (Prod.mk.inj (Option.some.inj hresult)).1
      split at hret <;> cases hret
  · intro hinvalid
    by_cases htick : tickLe tickPerSecond now tick
    · obtain ⟨hholds, -, hresult⟩ := hintime htick
      rw [handshakeCheck_frame hholds] at hresult
      by_cases hseq : f.seq ≠ 0 ∨ f.complement ≠ 0xFF
      · rw [if_pos hseq] at hresult
        exact ⟨_, ctx', [], by rw [receive, hresult]; rfl, by rw [hcalls, List.append_nil], fun _ hc => by cases hc⟩
      · rw [if_neg hseq, if_pos (fun hcrc => hinvalid (valid_of_checks hseq (not_not.mpr hcrc)))] at hresult
        exact ⟨_, ctx', [], by rw [receive, hresult]; rfl, by rw [hcalls, List.append_nil], fun _ hc => by cases hc⟩
    · refine ⟨_, ctx', [], by rw [receive, hlate htick]; rfl, ?_, fun _ hc => by cases hc⟩
      rw [hcalls, List.append_nil]

/-! ### The transfer -/

theorem rymTransData_frame (stage : RymStage) (onData : List UInt8 → UInt8) (code : UInt8) (f : Frame) :
    rymTransData stage onData f.payload.length code f.body =
      if f.seq.toNat + f.complement.toNat ≠ 0xFF then ⟨-rymErrSeq, code, stage, [], []⟩
      else if stage = .established ∧ f.seq = 0 then ⟨0, rymCodeNone, stage, [], []⟩
      else if joinCrc f.crcHi f.crcLo ≠ crc16 f.payload then ⟨-rymErrCrc, code, .transmitting, [], []⟩
      else ⟨0, onData f.payload, .transmitting, [f.payload], []⟩ := by
  have hlen : f.body.length = 2 + f.payload.length + 2 := by
    rw [f.length_body]
    omega
  have hpayload : (f.body.drop 2).take f.payload.length = f.payload := List.take_left
  have hhi : f.body.getD (2 + f.payload.length + 2 - 2) 0 = f.crcHi := by
    rw [show 2 + f.payload.length + 2 - 2 = f.payload.length + 1 + 1 by omega]
    simp [Frame.body]
  have hlo : f.body.getD (2 + f.payload.length + 2 - 1) 0 = f.crcLo := by
    rw [show 2 + f.payload.length + 2 - 1 = f.payload.length + 1 + 1 + 1 by omega]
    simp [Frame.body]
  have hseq : f.body.getD 0 0 = f.seq := rfl
  have hcomplement : f.body.getD 1 0 = f.complement := rfl
  rw [rymTransData, Ymodem.rymReadData, ← hlen, List.take_length, List.drop_length]
  dsimp only
  rw [if_neg (not_not.mpr rfl), hlen, hpayload, hhi, hlo, hseq, hcomplement]

theorem transData_spec (callbacks : Callbacks) (code : UInt8) {more : List UInt8}
    (hcoming : ctx.dev.coming = f.body ++ more) :
    ∃ t ctx', ctx.transData callbacks f.payload.length code = (t, ctx') ∧
      t = rymTransData ctx.stage (fun data => (callbacks.onData.map fun g => g data).getD rymCodeAck)
        f.payload.length code f.body ∧ Consumed ctx.dev ctx'.dev f.body ∧
      ctx'.calls = ctx.calls ++ if callbacks.onData.isSome = true then t.data.map Call.onData else [] := by
  have hlen : f.body.length = 2 + f.payload.length + 2 := by
    rw [f.length_body]
    omega
  obtain ⟨dev', hread, hconsumed⟩ := readData_spec hcoming hlen
  have hslice : slice (copy ctx.buf 1 f.body) 1 (2 + f.payload.length + 2) = f.body := by
    rw [← hlen]
    exact slice_copy_self ctx.buf 1 f.body
  rw [Ctx.transData, hread]
  dsimp only
  rw [hslice]
  exact ⟨_, _, rfl, rfl, hconsumed, rfl⟩

/-- The pass hands the package to `_rym_trans_data`. -/
theorem transfer_read (callbacks : Callbacks) (harrives : Arrives f.bytes 0 ctx.dev) :
    ∃ t ctx', rymDoTransPass callbacks ctx = ((answer t).ret, ctx') ∧
      t = rymTransData ctx.stage (fun data => (callbacks.onData.map fun g => g data).getD rymCodeAck)
        f.payload.length f.code f.body ∧ ctx.dev.content = f.bytes ++ ctx'.dev.content ∧
      ctx'.calls = ctx.calls ++ if callbacks.onData.isSome = true then t.data.map Call.onData else [] := by
  obtain ⟨more, hmore⟩ := harrives
  have hcoming : ctx.dev.coming = f.code :: (f.body ++ more) := hmore.symm
  obtain ⟨dev₁, hcode, hconsumed⟩ := readCode_spec hcoming
  have hrest : dev₁.coming = f.body ++ more := (List.cons.inj (hconsumed.coming.symm.trans hcoming)).2
  obtain ⟨t, ctx', htrans, ht, hconsumed', hcalls⟩ :=
    @transData_spec f { ctx with dev := dev₁ } callbacks f.code more hrest
  refine ⟨t, { ctx' with sent := ctx'.sent ++ (answer t).sent }, ?_, ht, (hconsumed.trans hconsumed').content, hcalls⟩
  rw [rymDoTransPass, hcode]
  rcases code_cases f with ⟨hsoh, hsize⟩ | ⟨hstx, hsize⟩
  · rw [hsize] at htrans
    dsimp only
    rw [if_pos hsoh, htrans]
  · rw [hsize] at htrans
    dsimp only
    rw [if_neg (by rw [hstx]; decide), if_pos hstx, htrans]

theorem answer_verdict (callbacks : Callbacks) (f : Frame) (stage : RymStage) (data : List (List UInt8))
    (dev : List UInt8) :
    (answer ⟨0, (callbacks.onData.map fun g => g f.payload).getD rymCodeAck, stage, data, dev⟩).ret =
      verdict callbacks f .transfer := by
  rw [answer, if_neg (not_not.mpr rfl), verdict]
  cases callbacks.onData with
  | none =>
    dsimp only [Option.map_none, Option.getD_none]
    rw [if_neg (by decide), if_pos rfl]
    simp
  | some g =>
    dsimp only [Option.map_some, Option.getD_some]
    by_cases hcan : g f.payload = rymCodeCan
    · rw [if_pos hcan]
      simp [hcan]
    · rw [if_neg hcan]
      split <;> simp [hcan]

theorem transfer_framing (harrives : Arrives f.bytes 0 ctx.dev) :
    (f.Valid → ¬(ctx.stage = .established ∧ f.seq = 0) → Accepted callbacks tickPerSecond .transfer ctx f) ∧
      (¬f.Valid → Ignored callbacks tickPerSecond .transfer ctx) := by
  obtain ⟨t, ctx', hpass, ht, hcontent, hcalls⟩ := transfer_read callbacks harrives
  rw [rymTransData_frame] at ht
  constructor
  · intro hvalid hexpected
    rw [if_neg (not_not.mpr hvalid.1), if_neg hexpected, if_neg (not_not.mpr hvalid.2)] at ht
    refine ⟨ctx', [], ?_, hcontent, ?_, fun _ hc => by cases hc⟩
    · rw [receive, hpass, ht, answer_verdict]
    · rw [hcalls, ht, List.append_nil, notified]
      rfl
  · intro hinvalid
    have hnone : t.data = [] := by
      by_cases hsum : f.seq.toNat + f.complement.toNat = 0xFF
      · rw [if_neg (not_not.mpr hsum), if_pos (fun hcrc => hinvalid ⟨hsum, hcrc⟩)] at ht
        split at ht <;> rw [ht]
      · rw [if_pos hsum] at ht
        rw [ht]
    refine ⟨_, ctx', [], by rw [receive, hpass], ?_, fun _ hc => by cases hc⟩
    rw [hcalls, hnone]
    simp

/-! ### The finish -/

theorem finPackage_frame (callbacks : Callbacks) (dataSz : ℕ) {more : List UInt8} (hsize : f.payload.length = 128)
    (hcoming : ctx.dev.coming = f.body ++ more) :
    ∃ ctx', Holds ctx'.buf f ∧ Consumed ctx.dev ctx'.dev f.body ∧ ctx'.calls = ctx.calls ∧
      finPackage callbacks dataSz ctx =
        if f.seq ≠ 0 ∨ f.complement ≠ 0xFF then (-rymErrSeq, ctx')
        else if joinCrc f.crcHi f.crcLo ≠ crc16 f.payload then (-rymErrCrc, ctx')
        else if f.payload.getD 0 0 ≠ 0 then ctx'.begin callbacks (slice ctx'.buf 3 (dataSz - 5))
        else (0, Ctx.putchar { ctx' with stage := .finished } rymCodeAck) := by
  have hlen : f.body.length = rymSohPkgSz - 1 := by
    rw [f.length_body, hsize]
    rfl
  obtain ⟨dev', hread, hconsumed⟩ := readData_spec hcoming hlen
  obtain ⟨ctx', hctx⟩ : ∃ ctx' : Ctx, ctx' = { ctx with buf := copy ctx.buf 1 f.body, dev := dev' } := ⟨_, rfl⟩
  have h : Holds ctx'.buf f := by
    rw [hctx]
    exact holds_copy ctx.buf f
  have hhi : rymSohPkgSz - 2 = f.payload.length + 3 := by rw [hsize]; rfl
  have hlo : rymSohPkgSz - 1 = f.payload.length + 4 := by rw [hsize]; rfl
  have hpayload : rymSohPkgSz - 5 = f.payload.length := by rw [hsize]; rfl
  have hfirst : ctx'.buf 3 = f.payload.getD 0 0 := by
    rw [← h.payload, hsize]
    rfl
  refine ⟨ctx', h, by rw [hctx]; exact hconsumed, by rw [hctx], ?_⟩
  rw [finPackage, hread, ← hctx]
  dsimp only
  rw [if_neg (not_not.mpr rfl), h.seq, h.complement, hhi, hlo, hpayload, h.crcHi, h.crcLo, h.payload, hfirst]

theorem fin_read (callbacks : Callbacks) (harrives : Arrives (rymCodeEot :: f.bytes) 0 ctx.dev) :
    ∃ ctx' more ends, rymDoFin callbacks ctx =
        finPackage callbacks (if f.payload.length = 128 then rymSohPkgSz else rymStxPkgSz) ctx' ∧
      ctx'.dev.coming = f.body ++ more ∧ ctx.dev.content = rymCodeEot :: f.code :: ctx'.dev.content ∧
        ctx'.calls = ctx.calls ++ ends ∧ ∀ c ∈ ends, ∃ data, c = Call.onEnd data := by
  obtain ⟨more, hmore⟩ := harrives
  obtain ⟨ends, hends⟩ : ∃ ends, ends = if callbacks.onEnd = true then [Call.onEnd (slice ctx.buf 3 128)] else [] :=
    ⟨_, rfl⟩
  obtain ⟨ctx₀, hctx₀⟩ : ∃ ctx₀ : Ctx, ctx₀ = Ctx.putchar { ctx with
    stage := .finishing, calls := ctx.calls ++ ends } rymCodeNak := ⟨_, rfl⟩
  have hcoming : ctx₀.dev.coming = rymCodeEot :: (f.bytes ++ more) := by
    rw [hctx₀]
    exact hmore.symm
  obtain ⟨dev₁, heot, hconsumed₁⟩ := readCode_spec hcoming
  have hrest₁ : dev₁.coming = f.code :: (f.body ++ more) := (List.cons.inj (hconsumed₁.coming.symm.trans hcoming)).2
  obtain ⟨dev₂, hcode, hconsumed₂⟩ := @readCode_spec
    (Ctx.putchar (Ctx.putchar { ctx₀ with dev := dev₁ } rymCodeAck) rymCodeC) _ _ hrest₁
  have hrest₂ : dev₂.coming = f.body ++ more := (List.cons.inj (hconsumed₂.coming.symm.trans hrest₁)).2
  refine ⟨{ Ctx.putchar (Ctx.putchar { ctx₀ with dev := dev₁ } rymCodeAck) rymCodeC with dev := dev₂ }, more, ends,
    ?_, hrest₂, ?_, ?_, ?_⟩
  · rw [rymDoFin, ← hends]
    dsimp only
    rw [← hctx₀, heot]
    dsimp only
    rw [if_neg (not_not.mpr rfl), hcode]
    rcases code_cases f with ⟨hsoh, hsize⟩ | ⟨hstx, hsize⟩
    · rw [if_pos hsize]
      dsimp only
      rw [if_pos hsoh]
    · have hlong : ¬f.payload.length = 128 := by omega
      have hsoh : ¬f.code = rymCodeSoh := by
        rw [hstx]
        decide
      rw [if_neg hlong]
      dsimp only
      rw [if_neg hsoh, if_pos hstx]
  · have hcontent := (hconsumed₁.trans hconsumed₂).content
    rw [hctx₀] at hcontent
    exact hcontent
  · rw [hctx₀]
    rfl
  · intro c hc
    rw [hends] at hc
    split at hc
    · exact ⟨_, List.mem_singleton.mp hc⟩
    · cases hc

/-- `on_begin` gets a package that passes the checks and is not the empty one. -/
def Announced (callbacks : Callbacks) (f : Frame) : Prop :=
  f.seq = 0 ∧ f.complement = 0xFF ∧ joinCrc f.crcHi f.crcLo = crc16 f.payload ∧ f.payload.getD 0 0 ≠ 0 ∧
    callbacks.onBegin.isSome = true

theorem finPackage_spec (callbacks : Callbacks) (dataSz : ℕ) {more : List UInt8} (hsize : f.payload.length = 128)
    (hcoming : ctx.dev.coming = f.body ++ more) :
    Consumed ctx.dev (finPackage callbacks dataSz ctx).2.dev f.body ∧
      (Announced callbacks f → ∃ data, (finPackage callbacks dataSz ctx).2.calls = ctx.calls ++ [Call.onBegin data]) ∧
        (¬Announced callbacks f → (finPackage callbacks dataSz ctx).2.calls = ctx.calls) := by
  obtain ⟨ctx', hholds, hconsumed, hcalls, hresult⟩ := finPackage_frame callbacks dataSz hsize hcoming
  rw [hresult]
  by_cases hseq : f.seq ≠ 0 ∨ f.complement ≠ 0xFF
  · rw [if_pos hseq]
    refine ⟨hconsumed, fun h => ?_, fun _ => hcalls⟩
    rcases hseq with hne | hne
    · exact absurd h.1 hne
    · exact absurd h.2.1 hne
  · rw [if_neg hseq]
    by_cases hcrc : joinCrc f.crcHi f.crcLo = crc16 f.payload
    · rw [if_neg (not_not.mpr hcrc)]
      by_cases hfirst : f.payload.getD 0 0 ≠ 0
      · rw [if_pos hfirst]
        obtain ⟨-, hdev, hbegin⟩ := begin_eq ctx' callbacks (slice ctx'.buf 3 (dataSz - 5))
        rw [hdev, hbegin, hcalls]
        by_cases hsome : callbacks.onBegin.isSome = true
        · refine ⟨hconsumed, fun _ => ⟨_, by rw [if_pos hsome]⟩, fun hnot => absurd ?_ hnot⟩
          exact ⟨not_not.mp fun h => hseq (Or.inl h), not_not.mp fun h => hseq (Or.inr h), hcrc, hfirst, hsome⟩
        · rw [if_neg hsome, List.append_nil]
          exact ⟨hconsumed, fun h => absurd h.2.2.2.2 hsome, fun _ => rfl⟩
      · rw [if_neg hfirst]
        exact ⟨hconsumed, fun h => absurd h.2.2.2.1 hfirst, fun _ => hcalls⟩
    · rw [if_pos hcrc]
      exact ⟨hconsumed, fun h => absurd h.2.2.1 hcrc, fun _ => hcalls⟩

/-- The part of a long package that the finish reads. -/
def Frame.short (f : Frame) (hsize : f.payload.length = 1024) : Frame :=
  ⟨f.seq, f.complement, f.payload.take 128, f.payload.getD 128 0, f.payload.getD 129 0,
    Or.inl (by rw [List.length_take, hsize]; rfl)⟩

theorem Frame.body_short (f : Frame) (hsize : f.payload.length = 1024) :
    f.body = (f.short hsize).body ++ (f.payload.drop 130 ++ [f.crcHi, f.crcLo]) := by
  have hpayload :
      f.payload = f.payload.take 128 ++ f.payload.getD 128 0 :: f.payload.getD 129 0 :: f.payload.drop 130 := by
    have h₁ : 128 < f.payload.length := by omega
    have h₂ : 129 < f.payload.length := by omega
    rw [List.getD_eq_getElem _ _ h₁, List.getD_eq_getElem _ _ h₂, ← List.drop_eq_getElem_cons h₂,
      ← List.drop_eq_getElem_cons h₁, List.take_append_drop]
  have hbody := congrArg (fun l => f.seq :: f.complement :: (l ++ [f.crcHi, f.crcLo])) hpayload
  apply hbody.trans
  simp [Frame.body, Frame.short]

theorem mistaken_iff (hsize : f.payload.length = 1024) :
    Mistaken callbacks f .finish ↔ Announced callbacks (f.short hsize) := by
  have hfirst : (f.short hsize).payload.getD 0 0 = f.payload.getD 0 0 := by
    simp [Frame.short]
  rw [Mistaken, Announced, hfirst]
  exact ⟨fun h => h.2.2, fun h => ⟨rfl, hsize, h⟩⟩

/-- No callback has got a package before the finish comes to it, and what follows is up to `finPackage`. -/
theorem ignored_finish {ends : List Call} (hends : ∀ c ∈ ends, ∃ data, c = Call.onEnd data)
    (hcalls : (rymDoFin callbacks ctx).2.calls = ctx.calls ++ ends) :
    Ignored callbacks tickPerSecond .finish ctx :=
  ⟨_, _, ends, rfl, hcalls, hends⟩

theorem not_ignored_finish {ends : List Call} {data : List UInt8}
    (hcalls : (rymDoFin callbacks ctx).2.calls = ctx.calls ++ ends ++ [Call.onBegin data]) :
    ¬Ignored callbacks tickPerSecond .finish ctx := by
  rintro ⟨ret, ctx', ends', hresult, hcalls', hends'⟩
  have hctx : (rymDoFin callbacks ctx).2 = ctx' := (Prod.mk.inj (Option.some.inj hresult)).2
  rw [← hctx, hcalls, List.append_assoc, List.append_cancel_left_eq] at hcalls'
  obtain ⟨data', hdata⟩ := hends' (.onBegin data) (by rw [← hcalls']; simp)
  cases hdata

theorem finish_framing (harrives : Arrives (rymCodeEot :: f.bytes) 0 ctx.dev) :
    (f.Valid → f.seq = 0 → (Accepted callbacks tickPerSecond .finish ctx f ↔ f.payload.length = 128)) ∧
      (¬f.Valid → (Ignored callbacks tickPerSecond .finish ctx ↔ ¬Mistaken callbacks f .finish)) := by
  obtain ⟨ctx₁, more, ends, hfin, hcoming, hcontent, hcalls, hends⟩ := fin_read callbacks harrives
  rcases f.size_eq with hsize | hsize
  · rw [if_pos hsize] at hfin
    constructor
    · intro hvalid hseq
      refine iff_of_true ?_ hsize
      obtain ⟨ctx', hholds, hconsumed, hcalls', hresult⟩ := finPackage_frame callbacks rymSohPkgSz hsize hcoming
      have hslice : slice ctx'.buf 3 (rymSohPkgSz - 5) = f.payload := by
        rw [← hholds.payload, hsize]
        rfl
      rw [if_neg (complement_of_valid hvalid hseq), if_neg (not_not.mpr hvalid.2), hslice] at hresult
      have hbytes : ctx.dev.content = [rymCodeEot] ++ f.bytes ++ ctx'.dev.content := by
        rw [hcontent, hconsumed.content]
        rfl
      by_cases hfirst : f.payload.getD 0 0 ≠ 0
      · rw [if_pos hfirst] at hresult
        obtain ⟨hret, hdev, hbegin⟩ := begin_eq ctx' callbacks f.payload
        refine ⟨(ctx'.begin callbacks f.payload).2, ends, ?_, by rw [hdev]; exact hbytes, ?_, hends⟩
        · rw [receive, hfin, hresult, hret, verdict]
          simp only [hfirst, not_false_eq_true, forall_true_left, ne_eq]
        · rw [hbegin, hcalls', hcalls, notified]
          simp only [hfirst, ne_eq, not_false_eq_true, true_and]
      · rw [if_neg hfirst] at hresult
        refine ⟨Ctx.putchar { ctx' with stage := .finished } rymCodeAck, ends, ?_, hbytes, ?_, hends⟩
        · rw [receive, hfin, hresult, verdict, if_pos (fun h => absurd h hfirst)]
        · rw [notified, if_neg (fun h => hfirst h.1), List.append_nil, ← hcalls]
          exact hcalls'
    · intro hinvalid
      have hnot : ¬Announced callbacks f :=
        fun h => hinvalid (valid_of_checks (by simp [h.1, h.2.1]) (not_not.mpr h.2.2.1))
      have hshort : ¬Mistaken callbacks f .finish := fun h => by
        rw [h.2.1] at hsize
        cases hsize
      refine iff_of_true (ignored_finish hends ?_) hshort
      rw [hfin, (finPackage_spec callbacks rymSohPkgSz hsize hcoming).2.2 hnot, hcalls]
  · have hlong : ¬f.payload.length = 128 := by omega
    rw [if_neg hlong] at hfin
    have hshort : (f.short hsize).payload.length = 128 := by
      rw [Frame.short, List.length_take, hsize]
      rfl
    rw [f.body_short hsize, List.append_assoc] at hcoming
    obtain ⟨hconsumed, hannounced, hnot⟩ := finPackage_spec callbacks rymStxPkgSz hshort hcoming
    constructor
    · intro hvalid hseq
      refine iff_of_false ?_ hlong
      rintro ⟨ctx', ends', hresult, hall, -⟩
      have hctx : (rymDoFin callbacks ctx).2 = ctx' := (Prod.mk.inj (Option.some.inj hresult)).2
      rw [← hctx, hfin, hcontent, hconsumed.content, if_pos rfl, Frame.bytes, f.body_short hsize] at hall
      have hlen := congrArg List.length hall
      simp at hlen
      omega
    · intro hinvalid
      rw [mistaken_iff hsize]
      by_cases hwrong : Announced callbacks (f.short hsize)
      · obtain ⟨data, hdata⟩ := hannounced hwrong
        have hcalled : (rymDoFin callbacks ctx).2.calls = ctx.calls ++ ends ++ [Call.onBegin data] := by
          rw [hfin, hdata, hcalls]
        exact iff_of_false (not_ignored_finish hcalled) (not_not.mpr hwrong)
      · refine iff_of_true (ignored_finish hends ?_) hwrong
        rw [hfin, hnot hwrong, hcalls]

/-! ### All stages -/

/-- Where its bytes come in time, a package with the number that the stage expects is accepted exactly if it is not
a long one in the finish and the handshake is in time, and no callback gets a package with a wrong complement or
CRC except for what the finish mistakes for a short one. -/
theorem packet_framing (callbacks : Callbacks) (tickPerSecond : ℕ) (stage : Receiving) (ctx : Ctx) (f : Frame)
    (htime : InTime f ctx.dev stage) :
    (f.Valid → Expected f ctx stage → (Accepted callbacks tickPerSecond stage ctx f ↔ Receives tickPerSecond f stage)) ∧
      (¬f.Valid → (Ignored callbacks tickPerSecond stage ctx ↔ ¬Mistaken callbacks f stage)) := by
  have hother : stage ≠ .finish → ¬Mistaken callbacks f stage := fun hne h => hne h.1
  cases stage with
  | handshake tmSec tick now later =>
    obtain ⟨n, hn, harrives⟩ := htime
    obtain ⟨haccepted, hignored⟩ :=
      @handshake_framing callbacks tickPerSecond f ctx n tmSec tick now later hn harrives
    exact ⟨haccepted, fun hinvalid => iff_of_true (hignored hinvalid) (hother Receiving.noConfusion)⟩
  | transfer =>
    obtain ⟨haccepted, hignored⟩ := @transfer_framing callbacks tickPerSecond f ctx htime
    exact ⟨fun hvalid hexpected => iff_of_true (haccepted hvalid hexpected) trivial,
      fun hinvalid => iff_of_true (hignored hinvalid) (hother Receiving.noConfusion)⟩
  | finish => exact finish_framing htime

theorem crc16_zeros (n : ℕ) : crc16 (List.replicate n 0) = 0 := by
  rw [crc16]
  induction n with
  | zero => rfl
  | succ n ih =>
    rw [List.replicate_succ, List.foldl_cons]
    exact ih

/-- The empty package, short or long. -/
def emptyFrame (long : Bool) : Frame :=
  ⟨0, 0xFF, List.replicate (if long = true then 1024 else 128) 0, 0, 0, by
    rw [List.length_replicate]
    cases long with
    | false => exact Or.inl rfl
    | true => exact Or.inr rfl⟩

theorem emptyFrame_valid (long : Bool) : (emptyFrame long).Valid := by
  refine ⟨rfl, ?_⟩
  rw [emptyFrame, crc16_zeros]
  exact (by decide : joinCrc 0 0 = 0)

def onDevice (events : List Event) : Ctx := ⟨fun _ => 0, ⟨[], events⟩, .transmitting, [], []⟩

theorem arrives_onDevice (xs ys : List UInt8) :
    Arrives (xs ++ ys) 0 (onDevice [.arrive [], .arrive xs, .arrive ys]).dev := by
  refine ⟨[], ?_⟩
  simp [onDevice, Device.coming, leading]

def splitPackage : Ctx :=
  onDevice [.arrive [], .arrive [rymCodeEot, (emptyFrame false).code], .arrive (emptyFrame false).body]

theorem packet_framing_split : Accepted ⟨none, none, true⟩ 1000 .finish splitPackage (emptyFrame false) := by
  have htime : InTime (emptyFrame false) splitPackage.dev .finish :=
    arrives_onDevice [rymCodeEot, (emptyFrame false).code] (emptyFrame false).body
  exact ((packet_framing _ _ _ _ _ htime).1 (emptyFrame_valid false) rfl).mpr List.length_replicate

def longPackage : Ctx := onDevice [.arrive [], .arrive [rymCodeEot], .arrive (emptyFrame true).bytes]

/-- A long package is well formed, and the finish does not consume it. -/
theorem finish_long_package : InTime (emptyFrame true) longPackage.dev .finish ∧ (emptyFrame true).Valid ∧
    Expected (emptyFrame true) longPackage .finish ∧
      ¬Accepted ⟨none, none, true⟩ 1000 .finish longPackage (emptyFrame true) := by
  have htime : InTime (emptyFrame true) longPackage.dev .finish :=
    arrives_onDevice [rymCodeEot] (emptyFrame true).bytes
  refine ⟨htime, emptyFrame_valid true, rfl, fun haccepted => ?_⟩
  have hsize := ((finish_framing htime).1 (emptyFrame_valid true) rfl).mp haccepted
  rw [emptyFrame, List.length_replicate] at hsize
  cases hsize

end RtThread.Utilities.YmodemFraming
