import RtThread.Lib.Transition
import Mathlib

/-!
# Receiving with YMODEM (`ymodem.c:18-90`, `ymodem.c:182-272`)

The receiver reads bytes from the device and answers with single bytes. The sender transmits one package,
waits for the answer, and transmits the same package again when none comes; what the receiver answers may
be lost on the way.
-/

namespace RtThread.Utilities.Ymodem

open RtThread.Lib.Transition

/-! ### The receiver -/

def ccittTable : List UInt16 := [
  0x0000, 0x1021, 0x2042, 0x3063, 0x4084, 0x50A5, 0x60C6, 0x70E7, 0x8108, 0x9129, 0xA14A, 0xB16B, 0xC18C, 0xD1AD,
  0xE1CE, 0xF1EF, 0x1231, 0x0210, 0x3273, 0x2252, 0x52B5, 0x4294, 0x72F7, 0x62D6, 0x9339, 0x8318, 0xB37B, 0xA35A,
  0xD3BD, 0xC39C, 0xF3FF, 0xE3DE, 0x2462, 0x3443, 0x0420, 0x1401, 0x64E6, 0x74C7, 0x44A4, 0x5485, 0xA56A, 0xB54B,
  0x8528, 0x9509, 0xE5EE, 0xF5CF, 0xC5AC, 0xD58D, 0x3653, 0x2672, 0x1611, 0x0630, 0x76D7, 0x66F6, 0x5695, 0x46B4,
  0xB75B, 0xA77A, 0x9719, 0x8738, 0xF7DF, 0xE7FE, 0xD79D, 0xC7BC, 0x48C4, 0x58E5, 0x6886, 0x78A7, 0x0840, 0x1861,
  0x2802, 0x3823, 0xC9CC, 0xD9ED, 0xE98E, 0xF9AF, 0x8948, 0x9969, 0xA90A, 0xB92B, 0x5AF5, 0x4AD4, 0x7AB7, 0x6A96,
  0x1A71, 0x0A50, 0x3A33, 0x2A12, 0xDBFD, 0xCBDC, 0xFBBF, 0xEB9E, 0x9B79, 0x8B58, 0xBB3B, 0xAB1A, 0x6CA6, 0x7C87,
  0x4CE4, 0x5CC5, 0x2C22, 0x3C03, 0x0C60, 0x1C41, 0xEDAE, 0xFD8F, 0xCDEC, 0xDDCD, 0xAD2A, 0xBD0B, 0x8D68, 0x9D49,
  0x7E97, 0x6EB6, 0x5ED5, 0x4EF4, 0x3E13, 0x2E32, 0x1E51, 0x0E70, 0xFF9F, 0xEFBE, 0xDFDD, 0xCFFC, 0xBF1B, 0xAF3A,
  0x9F59, 0x8F78, 0x9188, 0x81A9, 0xB1CA, 0xA1EB, 0xD10C, 0xC12D, 0xF14E, 0xE16F, 0x1080, 0x00A1, 0x30C2, 0x20E3,
  0x5004, 0x4025, 0x7046, 0x6067, 0x83B9, 0x9398, 0xA3FB, 0xB3DA, 0xC33D, 0xD31C, 0xE37F, 0xF35E, 0x02B1, 0x1290,
  0x22F3, 0x32D2, 0x4235, 0x5214, 0x6277, 0x7256, 0xB5EA, 0xA5CB, 0x95A8, 0x8589, 0xF56E, 0xE54F, 0xD52C, 0xC50D,
  0x34E2, 0x24C3, 0x14A0, 0x0481, 0x7466, 0x6447, 0x5424, 0x4405, 0xA7DB, 0xB7FA, 0x8799, 0x97B8, 0xE75F, 0xF77E,
  0xC71D, 0xD73C, 0x26D3, 0x36F2, 0x0691, 0x16B0, 0x6657, 0x7676, 0x4615, 0x5634, 0xD94C, 0xC96D, 0xF90E, 0xE92F,
  0x99C8, 0x89E9, 0xB98A, 0xA9AB, 0x5844, 0x4865, 0x7806, 0x6827, 0x18C0, 0x08E1, 0x3882, 0x28A3, 0xCB7D, 0xDB5C,
  0xEB3F, 0xFB1E, 0x8BF9, 0x9BD8, 0xABBB, 0xBB9A, 0x4A75, 0x5A54, 0x6A37, 0x7A16, 0x0AF1, 0x1AD0, 0x2AB3, 0x3A92,
  0xFD2E, 0xED0F, 0xDD6C, 0xCD4D, 0xBDAA, 0xAD8B, 0x9DE8, 0x8DC9, 0x7C26, 0x6C07, 0x5C64, 0x4C45, 0x3CA2, 0x2C83,
  0x1CE0, 0x0CC1, 0xEF1F, 0xFF3E, 0xCF5D, 0xDF7C, 0xAF9B, 0xBFBA, 0x8FD9, 0x9FF8, 0x6E17, 0x7E36, 0x4E55, 0x5E74,
  0x2E93, 0x3EB2, 0x0ED1, 0x1EF0]

/-- `CRC16` (`ymodem.c:53-60`). -/
def crc16 (q : List UInt8) : UInt16 :=
  q.foldl (fun crc b => (crc <<< 8) ^^^ ccittTable.getD (((crc >>> 8) ^^^ b.toUInt16) &&& 0xff).toNat 0) 0

/-! `enum rym_code`. -/

def rymCodeNone : UInt8 := 0x00
def rymCodeSoh : UInt8 := 0x01
def rymCodeStx : UInt8 := 0x02
def rymCodeEot : UInt8 := 0x04
def rymCodeAck : UInt8 := 0x06
def rymCodeCan : UInt8 := 0x18
def rymCodeC : UInt8 := 0x43

def rymErrCode : ℤ := 0x71
def rymErrSeq : ℤ := 0x72
def rymErrCrc : ℤ := 0x73
def rymErrDsz : ℤ := 0x74
def rymErrCan : ℤ := 0x75

def rymEndSessionSendCanNum : ℕ := 0x07

inductive RymStage where
  | none
  | establishing
  | established
  | transmitting
  | finishing
  | finished
  deriving DecidableEq, Repr

/-- `_rym_read_code`, on the bytes that arrive before the timeout. -/
def rymReadCode : List UInt8 → UInt8 × List UInt8
  | [] => (rymCodeNone, [])
  | b :: dev => (b, dev)

def rymReadData (dev : List UInt8) (len : ℕ) : List UInt8 × List UInt8 := (dev.take len, dev.drop len)

/-- `recv_crc`: two bytes put together. -/
def joinCrc (hi lo : UInt8) : UInt16 := (hi.toUInt16 <<< 8) ||| lo.toUInt16

/-- What `_rym_trans_data` leaves: its result, `*code`, the stage, what it has passed to `on_data`, and
the bytes not read. -/
structure Trans where
  err : ℤ
  code : UInt8
  stage : RymStage
  data : List (List UInt8)
  dev : List UInt8

/-- `_rym_trans_data` (`ymodem.c:182-223`). -/
def rymTransData (stage : RymStage) (onData : List UInt8 → UInt8) (dataSz : ℕ) (code : UInt8) (dev : List UInt8) : Trans :=
  let tsz := 2 + dataSz + 2
  let (buf, dev) := rymReadData dev tsz
  if buf.length ≠ tsz then ⟨-rymErrDsz, code, stage, [], dev⟩
  else if (buf.getD 0 0).toNat + (buf.getD 1 0).toNat ≠ 0xFF then ⟨-rymErrSeq, code, stage, [], dev⟩
  else if stage = .established ∧ buf.getD 0 0 = 0x00 then ⟨0, rymCodeNone, stage, [], dev⟩
  else
    let payload := (buf.drop 2).take dataSz
    if joinCrc (buf.getD (tsz - 2) 0) (buf.getD (tsz - 1) 0) ≠ crc16 payload then
      ⟨-rymErrCrc, code, .transmitting, [], dev⟩
    else ⟨0, onData payload, .transmitting, [payload], dev⟩

/-- What one pass of the loop of `_rym_do_trans` leaves; `ret` is empty when the loop goes on. -/
structure Pass where
  ret : Option ℤ
  sent : List UInt8
  stage : RymStage
  data : List (List UInt8)
  dev : List UInt8

/-- `_rym_do_trans` after `_rym_trans_data` (`ymodem.c:252-270`). -/
def answer (t : Trans) : Pass :=
  if t.err ≠ 0 then ⟨some t.err, [], t.stage, t.data, t.dev⟩
  else if t.code = rymCodeCan then
    ⟨some (-rymErrCan), List.replicate rymEndSessionSendCanNum rymCodeCan, t.stage, t.data, t.dev⟩
  else if t.code = rymCodeAck then ⟨none, [rymCodeAck], t.stage, t.data, t.dev⟩
  else ⟨none, [], t.stage, t.data, t.dev⟩

/-- One pass of the loop of `_rym_do_trans` (`ymodem.c:231-271`). -/
def rymDoTransPass (stage : RymStage) (onData : List UInt8 → UInt8) (dev : List UInt8) : Pass :=
  let (code, dev) := rymReadCode dev
  if code = rymCodeSoh then answer (rymTransData stage onData 128 code dev)
  else if code = rymCodeStx then answer (rymTransData stage onData 1024 code dev)
  else if code = rymCodeEot then ⟨some 0, [], stage, [], dev⟩
  else ⟨some (-rymErrCode), [], stage, [], dev⟩

/-! ### The sender -/

structure Block where
  data : List UInt8
  size_eq : data.length = 128 ∨ data.length = 1024

def package (seq : ℕ) (b : Block) : List UInt8 :=
  (if b.data.length = 128 then rymCodeSoh else rymCodeStx) ::
    UInt8.ofNat (seq % 256) :: UInt8.ofNat (255 - seq % 256) ::
      (b.data ++ [(crc16 b.data >>> 8).toUInt8, (crc16 b.data).toUInt8])

/-- What a sender transmits at the number `next`: the package 0 with the name of the file, the blocks of
the file from 1 on, and `EOT` behind them. -/
def transmission (header : Block) (file : List Block) : ℕ → List UInt8
  | 0 => package 0 header
  | n + 1 =>
    match file[n]? with
    | some b => package (n + 1) b
    | none => [rymCodeEot]

/-! ### Runs -/

/-- `forward` and `backward` are the bytes on their way. `delivered` holds the arguments of the calls of
`on_data`, and `lost` counts the lost `ACK`s of blocks of the file. -/
structure Sys where
  stage : RymStage
  ret : Option ℤ
  forward : List UInt8
  backward : List UInt8
  next : ℕ
  waiting : Bool
  delivered : List (List UInt8)
  lost : ℕ

inductive Act where
  | transmit
  | receive
  | hear
  | lose
  | timeout

/-- `_rym_do_trans` begins: it has answered `ACK` and `C` to the package 0, and `cs` more bytes `C` of the
handshake have not reached the sender yet. -/
def start (cs : ℕ) : Sys where
  stage := .established
  ret := none
  forward := []
  backward := List.replicate cs rymCodeC ++ [rymCodeAck, rymCodeC]
  next := 0
  waiting := true
  delivered := []
  lost := 0

/-- The sender hears a byte. `C` asks for the package to be sent; after the `ACK` of the package 0 it still
waits for a `C`. -/
def Sys.hears (s : Sys) (b : UInt8) (backward : List UInt8) : Sys :=
  if b = rymCodeAck then { s with backward := backward, next := s.next + 1, waiting := decide (s.next = 0) }
  else if b = rymCodeC then { s with backward := backward, waiting := false }
  else { s with backward := backward }

def step (header : Block) (file : List Block) (s : Sys) : Act → Option Sys
  | .transmit =>
    if s.waiting = false then
      some { s with forward := s.forward ++ transmission header file s.next, waiting := true }
    else none
  | .receive =>
    if s.ret = none ∧ s.forward ≠ [] then
      let p := rymDoTransPass s.stage (fun _ => rymCodeAck) s.forward
      some { s with
        stage := p.stage
        ret := p.ret
        forward := p.dev
        backward := s.backward ++ p.sent
        delivered := s.delivered ++ p.data }
    else none
  | .hear =>
    match s.backward with
    | [] => none
    | b :: backward => if s.waiting = true then some (s.hears b backward) else none
  | .lose =>
    match s.backward with
    | [] => none
    | b :: backward =>
      some { s with
        backward := backward
        lost := if b = rymCodeAck ∧ s.next ≠ 0 then s.lost + 1 else s.lost }
  | .timeout =>
    if s.waiting = true ∧ s.forward = [] ∧ s.backward = [] then some { s with waiting := false } else none

/-! ### One package -/

theorem joinCrc_split (c : UInt16) : joinCrc (c >>> 8).toUInt8 c.toUInt8 = c := by
  have hlt := c.toNat_lt
  have hhi : ((c >>> 8).toUInt8.toUInt16 <<< 8).toNat = c.toNat / 256 * 256 := by
    simp only [UInt16.toNat_shiftLeft, UInt8.toNat_toUInt16, UInt16.toNat_toUInt8, UInt16.toNat_shiftRight]
    simp [Nat.shiftLeft_eq, Nat.shiftRight_eq_div_pow]
    omega
  have hlo : c.toUInt8.toUInt16.toNat = c.toNat % 256 := by
    simp
  apply UInt16.toNat_inj.mp
  rw [joinCrc, UInt16.toNat_or, hhi, hlo]
  have hor := Nat.shiftLeft_add_eq_or_of_lt (show c.toNat % 256 < 2 ^ 8 by omega) (c.toNat / 256)
  rw [Nat.shiftLeft_eq] at hor
  rw [← hor]
  omega

def body (seq : ℕ) (b : Block) : List UInt8 :=
  UInt8.ofNat (seq % 256) :: UInt8.ofNat (255 - seq % 256) ::
    (b.data ++ [(crc16 b.data >>> 8).toUInt8, (crc16 b.data).toUInt8])

theorem length_body (seq : ℕ) (b : Block) : (body seq b).length = 2 + b.data.length + 2 := by
  simp only [body, List.length_cons, List.length_append, List.length_nil]
  omega

theorem seq_eq_zero_iff (seq : ℕ) : UInt8.ofNat (seq % 256) = 0 ↔ seq % 256 = 0 := by
  rw [← UInt8.toNat_inj, UInt8.toNat_ofNat', Nat.mod_eq_of_lt (show seq % 256 < 2 ^ 8 by omega)]
  rfl

/-- A package is passed to `on_data`, unless it is the package 0 that is repeated before the first block. -/
theorem rymTransData_body (stage : RymStage) (onData : List UInt8 → UInt8) (code : UInt8) (seq : ℕ) (b : Block)
    (rest : List UInt8) :
    rymTransData stage onData b.data.length code (body seq b ++ rest) =
      if stage = .established ∧ seq % 256 = 0 then ⟨0, rymCodeNone, stage, [], rest⟩
      else ⟨0, onData b.data, .transmitting, [b.data], rest⟩ := by
  have hlen := length_body seq b
  have htake : (body seq b ++ rest).take (2 + b.data.length + 2) = body seq b := by
    rw [← hlen, List.take_left]
  have hdrop : (body seq b ++ rest).drop (2 + b.data.length + 2) = rest := by
    rw [← hlen, List.drop_left]
  have hsum : (UInt8.ofNat (seq % 256)).toNat + (UInt8.ofNat (255 - seq % 256)).toNat = 0xFF := by
    rw [UInt8.toNat_ofNat', UInt8.toNat_ofNat']
    omega
  have hpayload : ((body seq b).drop 2).take b.data.length = b.data := List.take_left
  have hhi : (body seq b).getD (2 + b.data.length + 2 - 2) 0 = (crc16 b.data >>> 8).toUInt8 := by
    rw [show 2 + b.data.length + 2 - 2 = b.data.length + 1 + 1 by omega]
    simp [body]
  have hlo : (body seq b).getD (2 + b.data.length + 2 - 1) 0 = (crc16 b.data).toUInt8 := by
    rw [show 2 + b.data.length + 2 - 1 = b.data.length + 1 + 1 + 1 by omega]
    simp [body]
  simp only [rymTransData, rymReadData, htake, hdrop, hlen, hpayload, hhi, hlo, joinCrc_split, ne_eq, not_true_eq_false,
    if_false]
  rw [if_neg (not_not.mpr (show ((body seq b).getD 0 0).toNat + ((body seq b).getD 1 0).toNat = 0xFF from hsum))]
  have hzero : (body seq b).getD 0 0 = 0x00 ↔ seq % 256 = 0 := seq_eq_zero_iff seq
  simp only [hzero]

theorem rymDoTransPass_package (stage : RymStage) (onData : List UInt8 → UInt8) (seq : ℕ) (b : Block) (rest : List UInt8) :
    rymDoTransPass stage onData (package seq b ++ rest) =
      answer (if stage = .established ∧ seq % 256 = 0 then ⟨0, rymCodeNone, stage, [], rest⟩
        else ⟨0, onData b.data, .transmitting, [b.data], rest⟩) := by
  rcases b.size_eq with hsize | hsize
  · have hcode : package seq b = rymCodeSoh :: body seq b := by rw [package, if_pos hsize, body]
    rw [hcode, List.cons_append, rymDoTransPass, rymReadCode]
    simp only [if_true]
    rw [← hsize, rymTransData_body]
  · have hcode : package seq b = rymCodeStx :: body seq b := by
      rw [package, if_neg (by omega), body]
    rw [hcode, List.cons_append, rymDoTransPass, rymReadCode]
    simp only [if_true]
    rw [if_neg (by decide), ← hsize, rymTransData_body]

/-! ### The invariant -/

/-- `n` blocks have been acknowledged, or the last of them will be: each lost `ACK` has had its block
delivered once more. -/
structure Got (file : List Block) (n : ℕ) (s : Sys) : Prop where
  le : n ≤ file.length
  length_eq : s.delivered.length = n + s.lost
  exact : s.lost = 0 → s.delivered = (file.take n).map Block.data

def headers (header : Block) (a : ℕ) : List UInt8 := (List.replicate a (package 0 header)).flatten

/-- What can be on its way. `early` is before the first block is sent; then the sender has sent the block
`n`, or the receiver has answered it, or neither is on its way. -/
inductive Wire (header : Block) (file : List Block) (s : Sys) : Prop where
  | early (a : ℕ) (ret : s.ret = none) (stage : s.stage = .established) (forward : s.forward = headers header a)
      (backward : s.next = 0 ∧ (∃ m, s.backward = List.replicate m rymCodeC ++ [rymCodeAck, rymCodeC] ∨
          s.backward = List.replicate m rymCodeC) ∨
        s.next = 1 ∧ (s.backward = [rymCodeC] ∧ s.waiting = true ∨ s.backward = []))
      (got : Got file 0 s)
  | sent (a n : ℕ) (ret : s.ret = none) (stage : s.stage = .established ∧ n = 0 ∨ s.stage = .transmitting ∧ a = 0)
      (forward : s.forward = headers header a ++ transmission header file (n + 1)) (backward : s.backward = [])
      (next : s.next = n + 1) (waiting : s.waiting = true) (got : Got file n s)
  | answered (n : ℕ) (ret : s.ret = none) (stage : s.stage = .transmitting) (forward : s.forward = [])
      (backward : s.backward = [rymCodeAck]) (next : s.next = n + 1) (waiting : s.waiting = true) (got : Got file (n + 1) s)
  | between (n : ℕ) (ret : s.ret = none) (stage : s.stage = .transmitting) (forward : s.forward = [])
      (backward : s.backward = []) (next : s.next = n + 1) (got : Got file n s)
  | finished (ret : s.ret = some 0) (backward : s.backward = []) (got : Got file file.length s)

theorem wire_start (header : Block) (file : List Block) (cs : ℕ) : Wire header file (start cs) :=
  .early 0 rfl rfl rfl (.inl ⟨rfl, cs, .inl rfl⟩) ⟨Nat.zero_le _, rfl, fun _ => rfl⟩

variable {header : Block} {file : List Block} {s s' : Sys}

theorem transmission_ne_nil (n : ℕ) : transmission header file n ≠ [] := by
  cases n with
  | zero => exact List.cons_ne_nil _ _
  | succ n =>
    rw [transmission]
    split
    · exact List.cons_ne_nil _ _
    · exact List.cons_ne_nil _ _

theorem headers_succ (a : ℕ) : headers header (a + 1) = package 0 header ++ headers header a := by
  rw [headers, List.replicate_succ, List.flatten_cons, headers]

theorem headers_snoc (a : ℕ) : headers header a ++ package 0 header = headers header (a + 1) := by
  rw [headers, headers, List.replicate_succ', List.flatten_append, List.flatten_singleton]

theorem rymDoTransPass_header (onData : List UInt8 → UInt8) (rest : List UInt8) :
    rymDoTransPass .established onData (package 0 header ++ rest) = ⟨none, [], .established, [], rest⟩ := by
  rw [rymDoTransPass_package, if_pos ⟨rfl, rfl⟩]
  rfl

theorem rymDoTransPass_block {stage : RymStage} {n : ℕ} (hstage : stage = .established ∧ n = 0 ∨ stage = .transmitting)
    (b : Block) :
    rymDoTransPass stage (fun _ => rymCodeAck) (package (n + 1) b) = ⟨none, [rymCodeAck], .transmitting, [b.data], []⟩ := by
  have hnot : ¬(stage = .established ∧ (n + 1) % 256 = 0) := by
    rintro ⟨rfl, hzero⟩
    rcases hstage with ⟨-, rfl⟩ | hstage
    · omega
    · cases hstage
  have hpass := rymDoTransPass_package stage (fun _ => rymCodeAck) (n + 1) b []
  rw [List.append_nil, if_neg hnot] at hpass
  exact hpass

theorem Got.deliver {n : ℕ} (h : Got file n s) {b : Block} (hb : file[n]? = some b)
    (hdelivered : s'.delivered = s.delivered ++ [b.data]) (hlost : s'.lost = s.lost) : Got file (n + 1) s' := by
  obtain ⟨hlt, hget⟩ := List.getElem?_eq_some_iff.mp hb
  refine ⟨hlt, ?_, fun hzero => ?_⟩
  · rw [hdelivered, hlost, List.length_append, List.length_singleton, h.length_eq]
    omega
  · rw [hdelivered, h.exact (hlost ▸ hzero), List.take_add_one, hb, List.map_append]
    rfl

theorem Got.lose {n : ℕ} (h : Got file (n + 1) s) (hdelivered : s'.delivered = s.delivered) (hlost : s'.lost = s.lost + 1) :
    Got file n s' := by
  refine ⟨(Nat.le_succ n).trans h.le, ?_, fun hzero => by omega⟩
  rw [hdelivered, hlost, h.length_eq]
  omega

theorem Got.congr {n : ℕ} (h : Got file n s) (hdelivered : s'.delivered = s.delivered) (hlost : s'.lost = s.lost) :
    Got file n s' :=
  ⟨h.le, by rw [hdelivered, hlost, h.length_eq], fun hzero => by rw [hdelivered, h.exact (hlost ▸ hzero)]⟩

/-! ### Steps -/

theorem wire_transmit (h : Wire header file s) (hw : s.waiting = false) :
    Wire header file { s with forward := s.forward ++ transmission header file s.next, waiting := true } := by
  cases h with
  | early a ret stage forward backward got =>
    rcases backward with ⟨hnext, hback⟩ | ⟨hnext, hback⟩
    · refine .early (a + 1) ret stage ?_ (.inl ⟨hnext, hback⟩) (got.congr rfl rfl)
      rw [forward, hnext, transmission, headers_snoc]
    · have hnil : s.backward = [] := hback.resolve_left fun hc => absurd (hc.2.symm.trans hw) Bool.noConfusion
      refine .sent a 0 ret (.inl ⟨stage, rfl⟩) ?_ hnil hnext rfl (got.congr rfl rfl)
      rw [forward, hnext]
  | sent a n ret stage forward backward next waiting got => exact absurd (waiting.symm.trans hw) Bool.noConfusion
  | answered n ret stage forward backward next waiting got => exact absurd (waiting.symm.trans hw) Bool.noConfusion
  | between n ret stage forward backward next got =>
    refine .sent 0 n ret (.inr ⟨stage, rfl⟩) ?_ backward next rfl (got.congr rfl rfl)
    rw [forward, next]
    rfl
  | finished ret backward got => exact .finished ret backward (got.congr rfl rfl)

def Sys.receives (s : Sys) (p : Pass) : Sys :=
  { s with
    stage := p.stage
    ret := p.ret
    forward := p.dev
    backward := s.backward ++ p.sent
    delivered := s.delivered ++ p.data }

theorem wire_receive (h : Wire header file s) (hret : s.ret = none) (hforward : s.forward ≠ []) :
    Wire header file (s.receives (rymDoTransPass s.stage (fun _ => rymCodeAck) s.forward)) := by
  cases h with
  | early a ret stage forward backward got =>
    cases a with
    | zero => exact absurd forward hforward
    | succ a =>
      rw [stage, forward, headers_succ, rymDoTransPass_header]
      refine .early a rfl rfl rfl ?_ (got.congr (List.append_nil _) rfl)
      simp only [Sys.receives, List.append_nil]
      exact backward
  | sent a n ret stage forward backward next waiting got =>
    cases a with
    | succ a =>
      obtain ⟨hstage, hn⟩ := stage.resolve_right fun hc => absurd hc.2 (Nat.succ_ne_zero a)
      rw [hstage, forward, headers_succ, List.append_assoc, rymDoTransPass_header]
      refine .sent a n rfl (.inl ⟨rfl, hn⟩) rfl ?_ next waiting (got.congr (List.append_nil _) rfl)
      rw [Sys.receives, backward]
      rfl
    | zero =>
      have hforward : s.forward = transmission header file (n + 1) := forward
      cases hb : file[n]? with
      | some b =>
        rw [hforward, transmission, hb]
        simp only
        rw [rymDoTransPass_block (stage.imp_right fun hc => hc.1)]
        refine .answered n rfl rfl rfl ?_ next waiting (got.deliver hb rfl rfl)
        rw [Sys.receives, backward]
        rfl
      | none =>
        have hlen : n = file.length := Nat.le_antisymm got.le (List.getElem?_eq_none_iff.mp hb)
        rw [hforward, transmission, hb]
        refine .finished rfl ?_ (hlen ▸ got.congr (List.append_nil _) rfl)
        rw [Sys.receives, backward]
        rfl
  | answered n ret stage forward backward next waiting got => exact absurd forward hforward
  | between n ret stage forward backward next got => exact absurd forward hforward
  | finished ret backward got => rw [ret] at hret; cases hret

theorem wire_hear (h : Wire header file s) {b : UInt8} {rest : List UInt8} (hback : s.backward = b :: rest) :
    Wire header file (s.hears b rest) := by
  cases h with
  | early a ret stage forward backward got =>
    rcases backward with ⟨hnext, m, hm | hm⟩ | ⟨hnext, hc | hnil⟩
    · cases m with
      | zero =>
        rw [hback, List.replicate_zero, List.nil_append, List.cons.injEq] at hm
        rw [hm.1, hm.2, Sys.hears, if_pos rfl]
        exact .early a ret stage forward (.inr ⟨by rw [hnext], .inl ⟨rfl, by rw [hnext]; rfl⟩⟩) (got.congr rfl rfl)
      | succ m =>
        rw [hback, List.replicate_succ, List.cons_append, List.cons.injEq] at hm
        rw [hm.1, hm.2, Sys.hears, if_neg (by decide), if_pos rfl]
        exact .early a ret stage forward (.inl ⟨hnext, m, .inl rfl⟩) (got.congr rfl rfl)
    · cases m with
      | zero =>
        rw [hback] at hm
        cases hm
      | succ m =>
        rw [hback, List.replicate_succ, List.cons.injEq] at hm
        rw [hm.1, hm.2, Sys.hears, if_neg (by decide), if_pos rfl]
        exact .early a ret stage forward (.inl ⟨hnext, m, .inr rfl⟩) (got.congr rfl rfl)
    · rw [hback, List.cons.injEq] at hc
      rw [hc.1.1, hc.1.2, Sys.hears, if_neg (by decide), if_pos rfl]
      exact .early a ret stage forward (.inr ⟨hnext, .inr rfl⟩) (got.congr rfl rfl)
    · rw [hback] at hnil
      cases hnil
  | answered n ret stage forward backward next waiting got =>
    rw [hback, List.cons.injEq] at backward
    rw [backward.1, backward.2, Sys.hears, if_pos rfl]
    exact .between (n + 1) ret stage forward rfl (by rw [next]) (got.congr rfl rfl)
  | sent a n ret stage forward backward next waiting got => rw [hback] at backward; cases backward
  | between n ret stage forward backward next got => rw [hback] at backward; cases backward
  | finished ret backward got => rw [hback] at backward; cases backward

theorem wire_lose (h : Wire header file s) {b : UInt8} {rest : List UInt8} (hback : s.backward = b :: rest) :
    Wire header file { s with
      backward := rest
      lost := if b = rymCodeAck ∧ s.next ≠ 0 then s.lost + 1 else s.lost } := by
  -- nothing is counted at the number 0
  have hkept : s.next = 0 → (if b = rymCodeAck ∧ s.next ≠ 0 then s.lost + 1 else s.lost) = s.lost :=
    fun hnext => if_neg fun hc => hc.2 hnext
  cases h with
  | early a ret stage forward backward got =>
    rcases backward with ⟨hnext, m, hm | hm⟩ | ⟨hnext, hc | hnil⟩
    · cases m with
      | zero =>
        rw [hback, List.replicate_zero, List.nil_append, List.cons.injEq] at hm
        exact .early a ret stage forward (.inl ⟨hnext, 1, .inr hm.2⟩) (got.congr rfl (hkept hnext))
      | succ m =>
        rw [hback, List.replicate_succ, List.cons_append, List.cons.injEq] at hm
        exact .early a ret stage forward (.inl ⟨hnext, m, .inl hm.2⟩) (got.congr rfl (hkept hnext))
    · cases m with
      | zero =>
        rw [hback] at hm
        cases hm
      | succ m =>
        rw [hback, List.replicate_succ, List.cons.injEq] at hm
        exact .early a ret stage forward (.inl ⟨hnext, m, .inr hm.2⟩) (got.congr rfl (hkept hnext))
    · rw [hback, List.cons.injEq] at hc
      have hlost : (if b = rymCodeAck ∧ s.next ≠ 0 then s.lost + 1 else s.lost) = s.lost :=
        if_neg fun ha => absurd (ha.1.symm.trans hc.1.1) (by decide)
      exact .early a ret stage forward (.inr ⟨hnext, .inr hc.1.2⟩) (got.congr rfl hlost)
    · rw [hback] at hnil
      cases hnil
  | answered n ret stage forward backward next waiting got =>
    rw [hback, List.cons.injEq] at backward
    have hlost : (if b = rymCodeAck ∧ s.next ≠ 0 then s.lost + 1 else s.lost) = s.lost + 1 :=
      if_pos ⟨backward.1, by rw [next]; exact Nat.succ_ne_zero n⟩
    exact .between n ret stage forward backward.2 next (got.lose rfl hlost)
  | sent a n ret stage forward backward next waiting got => rw [hback] at backward; cases backward
  | between n ret stage forward backward next got => rw [hback] at backward; cases backward
  | finished ret backward got => rw [hback] at backward; cases backward

theorem wire_timeout (h : Wire header file s) (hforward : s.forward = []) (hback : s.backward = []) :
    Wire header file { s with waiting := false } := by
  cases h with
  | early a ret stage forward backward got =>
    rcases backward with hzero | ⟨hnext, -⟩
    · exact .early a ret stage forward (.inl hzero) (got.congr rfl rfl)
    · exact .early a ret stage forward (.inr ⟨hnext, .inr hback⟩) (got.congr rfl rfl)
  | answered n ret stage forward backward next waiting got => rw [hback] at backward; cases backward
  | sent a n ret stage forward backward next waiting got =>
    rw [hforward] at forward
    exact absurd (List.append_eq_nil_iff.mp forward.symm).2 (transmission_ne_nil (n + 1))
  | between n ret stage forward backward next got => exact .between n ret stage forward backward next (got.congr rfl rfl)
  | finished ret backward got => exact .finished ret backward (got.congr rfl rfl)

theorem step_wire {a : Act} (h : Wire header file s) (hstep : step header file s a = some s') : Wire header file s' := by
  cases a with
  | transmit =>
    simp only [step] at hstep
    split at hstep
    · next hw =>
      cases hstep
      exact wire_transmit h hw
    · cases hstep
  | receive =>
    simp only [step] at hstep
    split at hstep
    · next hr =>
      cases hstep
      exact wire_receive h hr.1 hr.2
    · cases hstep
  | hear =>
    simp only [step] at hstep
    split at hstep
    · cases hstep
    · next hback =>
      split at hstep
      · cases hstep
        exact wire_hear h hback
      · cases hstep
  | lose =>
    simp only [step] at hstep
    split at hstep
    · cases hstep
    · next hback =>
      cases hstep
      exact wire_lose h hback
  | timeout =>
    simp only [step] at hstep
    split at hstep
    · next ht =>
      cases hstep
      exact wire_timeout h ht.2.1 ht.2.2
    · cases hstep

/-- In every run in which `_rym_do_trans` returns `RT_EOK`, `on_data` has got the blocks of the file, each
once and in order, exactly if no `ACK` of a block was lost. -/
theorem ymodem_delivers_iff (header : Block) (file : List Block) (cs : ℕ) (acts : List Act)
    (hrun : exec (step header file) (start cs) acts = some s) (hret : s.ret = some 0) :
    s.delivered = file.map Block.data ↔ s.lost = 0 := by
  have h := exec_inv (Wire header file) (fun _ _ _ h hstep => step_wire h hstep) (wire_start header file cs) hrun
  have hgot : Got file file.length s := by
    cases h with
    | finished ret backward got => exact got
    | early a ret => rw [ret] at hret; cases hret
    | sent a n ret => rw [ret] at hret; cases hret
    | answered n ret => rw [ret] at hret; cases hret
    | between n ret => rw [ret] at hret; cases hret
  constructor
  · intro heq
    have hlen := hgot.length_eq
    rw [heq, List.length_map] at hlen
    omega
  · intro hzero
    rw [hgot.exact hzero, List.take_length]

def zeros : Block := ⟨List.replicate 128 0, .inl List.length_replicate⟩

/-- A file of one block: the `ACK` arrives. -/
def heardRun : List Act := [.hear, .hear, .transmit, .receive, .hear, .transmit, .receive]

theorem ymodem_delivers_iff_heard :
    ((exec (step zeros [zeros]) (start 0) heardRun).map fun s => (s.ret, s.lost)) = some (some 0, 0) ∧
      ∀ s, exec (step zeros [zeros]) (start 0) heardRun = some s → (s.delivered = [zeros].map Block.data ↔ s.lost = 0) := by
  have heval : ((exec (step zeros [zeros]) (start 0) heardRun).map fun s => (s.ret, s.lost)) = some (some 0, 0) := by
    decide +kernel
  refine ⟨heval, fun s hrun => ymodem_delivers_iff zeros [zeros] 0 heardRun hrun ?_⟩
  rw [hrun, Option.map_some, Option.some.injEq, Prod.mk.injEq] at heval
  exact heval.1

/-- The `ACK` of the block is lost, and the block is delivered again. -/
theorem ymodem_delivers_twice :
    ¬∀ s, exec (step zeros [zeros]) (start 0)
      [.hear, .hear, .transmit, .receive, .lose, .timeout, .transmit, .receive, .hear, .transmit, .receive] = some s →
        s.ret = some 0 → s.delivered = [zeros].map Block.data := by
  intro hall
  have heval : ((exec (step zeros [zeros]) (start 0)
      [.hear, .hear, .transmit, .receive, .lose, .timeout, .transmit, .receive, .hear, .transmit, .receive]).map
        fun s => (s.ret, s.delivered)) = some (some 0, [zeros.data, zeros.data]) := by
    decide +kernel
  obtain ⟨s, hrun, hs⟩ := Option.map_eq_some_iff.mp heval
  rw [Prod.mk.injEq] at hs
  have honce := hall s hrun hs.1
  rw [hs.2] at honce
  cases honce

end RtThread.Utilities.Ymodem
