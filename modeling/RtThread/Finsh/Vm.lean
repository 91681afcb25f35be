import Mathlib

/-!
# FinSH: the virtual machine (`finsh_vm.c`, `finsh_ops.c`)

Integers and addresses have 32 bits and are little-endian.
-/

namespace RtThread.Finsh

def finshStackMax : ℕ := 64
def finshTextMax : ℕ := 128

abbrev Byte := BitVec 8
abbrev Word := BitVec 32

abbrev Memory := Word → Byte

inductive Width where
  | byte
  | word
  | dword
  deriving DecidableEq

inductive BinOp where
  | add
  | sub
  | div
  | mod
  | mul
  | and
  | or
  | xor
  | shl
  | shr
  deriving DecidableEq

/-- The functions of `finsh_ops.c`. -/
inductive Op where
  | noOp
  | binary (op : BinOp) (w : Width)
  | bw (w : Width)
  | ld (w : Width)
  | ldValue (w : Width)
  | st (w : Width)
  | pop
  | call
  | ldValueStack (w : Width)
  deriving DecidableEq

def Width.toNat : Width → ℕ
  | .byte => 0
  | .word => 1
  | .dword => 2

/-- The numbers of the operations in `finsh_ops.h`, where the three widths of an operation follow each other. -/
def Op.code : Op → Byte
  | .noOp => 0x00
  | .binary .add w => 0x01 + w.toNat
  | .binary .sub w => 0x04 + w.toNat
  | .binary .div w => 0x07 + w.toNat
  | .binary .mod w => 0x0A + w.toNat
  | .binary .mul w => 0x0D + w.toNat
  | .binary .and w => 0x10 + w.toNat
  | .binary .or w => 0x13 + w.toNat
  | .binary .xor w => 0x16 + w.toNat
  | .bw w => 0x19 + w.toNat
  | .binary .shl w => 0x1C + w.toNat
  | .binary .shr w => 0x1F + w.toNat
  | .ld w => 0x22 + w.toNat
  | .ldValue w => 0x25 + w.toNat
  | .st w => 0x28 + w.toNat
  | .pop => 0x2B
  | .call => 0x2C
  | .ldValueStack w => 0x2D + w.toNat

def widths (f : Width → Op) : List Op := [f .byte, f .word, f .dword]

/-- `op_table` (`finsh_ops.c:551-603`). -/
def opTable : List Op :=
  [.noOp] ++ widths (.binary .add) ++ widths (.binary .sub) ++ widths (.binary .div) ++ widths (.binary .mod) ++
    widths (.binary .mul) ++ widths (.binary .and) ++ widths (.binary .or) ++ widths (.binary .xor) ++ widths .bw ++
    widths (.binary .shl) ++ widths (.binary .shr) ++ widths .ld ++ widths .ldValue ++ widths .st ++ [.pop, .call] ++
    widths .ldValueStack

theorem opTable_code (op : Op) : opTable[op.code.toNat]? = some op := by
  rcases op with _ | ⟨_ | _ | _ | _ | _ | _ | _ | _ | _ | _, _ | _ | _⟩ | (_ | _ | _) | (_ | _ | _) | (_ | _ | _) |
    (_ | _ | _) | _ | _ | (_ | _ | _) <;> rfl

/-- What depends on the target: whether `char` is signed, and what a called function does. -/
structure Target where
  charSigned : Bool
  call : Word → List Word → Memory → Option (Word × Memory)

/-! ### Values -/

/-- A member of the union in a slot of the stack, as an operand of an `int` operation. -/
def Target.promote (target : Target) : Width → Word → Word
  | .byte, v => if target.charSigned then (v.setWidth 8).signExtend 32 else (v.setWidth 8).setWidth 32
  | .word, v => (v.setWidth 16).signExtend 32
  | .dword, v => v

/-- Writing a member of the union leaves its other bytes. -/
def Width.write : Width → Word → Word → Word
  | .byte, old, v => (old &&& 0xFFFFFF00) ||| (v &&& 0xFF)
  | .word, old, v => (old &&& 0xFFFF0000) ||| (v &&& 0xFFFF)
  | .dword, _, v => v

/-- The operators of C on `int`, modulo 2^32. There is no result where C has none: a division by zero, the
division of the least integer by -1, and a shift by less than 0 or more than 31. -/
def BinOp.eval : BinOp → Word → Word → Option Word
  | .add, a, b => some (a + b)
  | .sub, a, b => some (a - b)
  | .mul, a, b => some (a * b)
  | .div, a, b => if b = 0 ∨ (a = BitVec.intMin 32 ∧ b = -1) then none else some (a.sdiv b)
  | .mod, a, b => if b = 0 ∨ (a = BitVec.intMin 32 ∧ b = -1) then none else some (a.srem b)
  | .and, a, b => some (a &&& b)
  | .or, a, b => some (a ||| b)
  | .xor, a, b => some (a ^^^ b)
  | .shl, a, b => if b.toNat < 32 then some (a <<< b.toNat) else none
  | .shr, a, b => if b.toNat < 32 then some (a.sshiftRight b.toNat) else none

def bytesOf (v : Word) : List Byte :=
  [v.extractLsb' 0 8, v.extractLsb' 8 8, v.extractLsb' 16 8, v.extractLsb' 24 8]

def ofBytes (b0 b1 b2 b3 : Byte) : Word := b3 ++ b2 ++ b1 ++ b0

theorem ofBytes_bytesOf (v : Word) :
    ofBytes (v.extractLsb' 0 8) (v.extractLsb' 8 8) (v.extractLsb' 16 8) (v.extractLsb' 24 8) = v := by
  refine BitVec.eq_of_getLsbD_eq fun i hi => ?_
  simp only [ofBytes, BitVec.getLsbD_append, BitVec.getLsbD_extractLsb']
  split_ifs with h0 h1 h2
  · simp only [h0, decide_true, Bool.true_and, Nat.zero_add]
  · have hlt : i - 8 < 8 := by omega
    simp only [hlt, decide_true, Bool.true_and, Nat.add_sub_cancel' (Nat.not_lt.mp h0)]
  · have he : 16 + (i - 8 - 8) = i := by omega
    have hlt : i - 8 - 8 < 8 := by omega
    simp only [hlt, decide_true, Bool.true_and, he]
  · have he : 24 + (i - 8 - 8 - 8) = i := by omega
    have hlt : i - 8 - 8 - 8 < 8 := by omega
    simp only [hlt, decide_true, Bool.true_and, he]

def load (mem : Memory) : Width → Word → Word
  | .byte, a => (mem a).setWidth 32
  | .word, a => ofBytes (mem a) (mem (a + 1)) 0 0
  | .dword, a => ofBytes (mem a) (mem (a + 1)) (mem (a + 2)) (mem (a + 3))

def store (mem : Memory) : Width → Word → Word → Memory
  | .byte, a, v => Function.update mem a (v.extractLsb' 0 8)
  | .word, a, v => Function.update (Function.update mem a (v.extractLsb' 0 8)) (a + 1) (v.extractLsb' 8 8)
  | .dword, a, v =>
    Function.update (Function.update (Function.update (Function.update mem a (v.extractLsb' 0 8))
      (a + 1) (v.extractLsb' 8 8)) (a + 2) (v.extractLsb' 16 8)) (a + 3) (v.extractLsb' 24 8)

/-! ### The machine -/

/-- `pc` and `sp` count from the beginning of the text and of the stack. -/
structure Vm where
  pc : ℕ
  sp : ℕ
  stack : ℕ → Word
  mem : Memory

def Vm.setSlot (vm : Vm) (i : ℕ) (v : Word) : Vm := { vm with stack := Function.update vm.stack i v }

/-- A member of the slot above the stack is written and the stack grows. -/
def Vm.push (vm : Vm) (w : Width) (v : Word) : Option Vm :=
  if vm.sp < finshStackMax then some { vm.setSlot vm.sp (w.write (vm.stack vm.sp) v) with sp := vm.sp + 1 } else none

/-- The bytes that `FINSH_GET16` and `FINSH_GET32` read at `pc`. -/
def fetchWord (text : List Byte) (pc : ℕ) : Option Word :=
  match text.drop pc with
  | b0 :: b1 :: _ => some (ofBytes b0 b1 0 0)
  | _ => none

def fetchDword (text : List Byte) (pc : ℕ) : Option Word :=
  match text.drop pc with
  | b0 :: b1 :: b2 :: b3 :: _ => some (ofBytes b0 b1 b2 b3)
  | _ => none

def opBinary (target : Target) (op : BinOp) (w : Width) (vm : Vm) : Option Vm :=
  if vm.sp < 2 then none
  else
    let old := vm.stack (vm.sp - 2)
    (op.eval (target.promote w old) (target.promote w (vm.stack (vm.sp - 1)))).map fun v =>
      { vm.setSlot (vm.sp - 2) (w.write old v) with sp := vm.sp - 1 }

def opBw (w : Width) (vm : Vm) : Option Vm :=
  if vm.sp < 1 then none
  else some (vm.setSlot (vm.sp - 1) (w.write (vm.stack (vm.sp - 1)) (~~~vm.stack (vm.sp - 1))))

def opLd (text : List Byte) (w : Width) (vm : Vm) : Option Vm :=
  match w with
  | .byte => text[vm.pc]?.bind fun b => { vm with pc := vm.pc + 1 }.push .byte (b.setWidth 32)
  | .word => (fetchWord text vm.pc).bind fun v => { vm with pc := vm.pc + 2 }.push .word v
  | .dword => (fetchDword text vm.pc).bind fun v => { vm with pc := vm.pc + 4 }.push .dword v

def opLdValue (text : List Byte) (w : Width) (vm : Vm) : Option Vm :=
  (fetchDword text vm.pc).bind fun a => { vm with pc := vm.pc + 4 }.push w (load vm.mem w a)

def opLdValueStack (w : Width) (vm : Vm) : Option Vm :=
  if vm.sp < 1 then none
  else
    let old := vm.stack (vm.sp - 1)
    some (vm.setSlot (vm.sp - 1) (w.write old (load vm.mem w old)))

def opSt (w : Width) (vm : Vm) : Option Vm :=
  if vm.sp < 2 then none
  else
    some { vm with
      mem := store vm.mem w (vm.stack (vm.sp - 2)) (vm.stack (vm.sp - 1))
      sp := vm.sp - 1 }

def opPop (vm : Vm) : Option Vm := if vm.sp < 1 then none else some { vm with sp := vm.sp - 1 }

/-- `OP_call` (`finsh_ops.c:434-549`), which has room for 16 arguments. -/
def opCall (target : Target) (text : List Byte) (vm : Vm) : Option Vm :=
  text[vm.pc]?.bind fun b =>
    let parameters := b.toNat
    if 16 < parameters ∨ vm.sp < parameters + 1 then none
    else
      let base := vm.sp - 1 - parameters
      (target.call (vm.stack base) ((List.range parameters).map fun i => vm.stack (base + 1 + i)) vm.mem).map fun r =>
        { vm.setSlot base r.1 with pc := vm.pc + 1, sp := base + 1, mem := r.2 }

def Op.run (target : Target) (text : List Byte) : Op → Vm → Option Vm
  | .noOp, vm => some vm
  | .binary op w, vm => opBinary target op w vm
  | .bw w, vm => opBw w vm
  | .ld w, vm => opLd text w vm
  | .ldValue w, vm => opLdValue text w vm
  | .st w, vm => opSt w vm
  | .pop, vm => opPop vm
  | .call, vm => opCall target text vm
  | .ldValueStack w, vm => opLdValueStack w vm

def vmStep (target : Target) (text : List Byte) (vm : Vm) : Option Vm :=
  text[vm.pc]?.bind fun b => opTable[b.toNat]?.bind fun op => op.run target text { vm with pc := vm.pc + 1 }

def vmLoop (target : Target) (text : List Byte) : ℕ → Vm → Option Vm
  | 0, _ => none
  | n + 1, vm => if vm.pc < finshTextMax then (vmStep target text vm).bind (vmLoop target text n) else some vm

/-- `finsh_vm_run` (`finsh_vm.c:27-52`). -/
def finshVmRun (target : Target) (text : List Byte) (n : ℕ) (stack : ℕ → Word) (mem : Memory) : Option Vm :=
  vmLoop target text n ⟨0, 0, stack, mem⟩

end RtThread.Finsh
