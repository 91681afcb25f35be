import RtThread.Finsh.VmRuns

/-!
# FinSH: the text segment as instructions

An instruction is an operation with the bytes behind it. What it does does not depend on where it stands in the
text segment, so that the machine runs a list of them.
-/

namespace RtThread.Finsh

def Width.bytes : Width → ℕ
  | .byte => 1
  | .word => 2
  | .dword => 4

/-- How many bytes an operation takes from the text segment. -/
def Op.arity : Op → ℕ
  | .ld w => w.bytes
  | .ldValue _ => 4
  | .call => 1
  | _ => 0

structure Instr where
  op : Op
  args : List Byte
  fits : args.length = op.arity

def Instr.encode (i : Instr) : List Byte := i.op.code :: i.args

def encode (is : List Instr) : List Byte := is.flatMap Instr.encode

def instrLd (v : Word) : Instr := ⟨.ld .dword, bytesOf v, rfl⟩
def instrLdValue (w : Width) (addr : Word) : Instr := ⟨.ldValue w, bytesOf addr, rfl⟩

def instrOne : Width → Instr
  | .byte => ⟨.ld .byte, [1], rfl⟩
  | .word => ⟨.ld .word, [1, 0], rfl⟩
  | .dword => instrLd 1

/-- The operation on its own bytes. -/
def Instr.run (target : Target) (i : Instr) (vm : Vm) : Option Vm :=
  (i.op.run target i.args { vm with pc := 0 }).map fun vm' => { vm' with pc := vm.pc + 1 + i.args.length }

def runInstrs (target : Target) : List Instr → Vm → Option Vm
  | [], vm => some vm
  | i :: is, vm => (i.run target vm).bind (runInstrs target is)

theorem encode_append (is js : List Instr) : encode (is ++ js) = encode is ++ encode js := List.flatMap_append

theorem encode_cons (i : Instr) (is : List Instr) : encode (i :: is) = i.encode ++ encode is := rfl

theorem runInstrs_append (target : Target) (is js : List Instr) (vm : Vm) :
    runInstrs target (is ++ js) vm = (runInstrs target is vm).bind (runInstrs target js) := by
  induction is generalizing vm with
  | nil => rfl
  | cons i is ih =>
    rw [List.cons_append, runInstrs, runInstrs, Option.bind_assoc]
    exact congrArg (Option.bind _) (funext ih)

variable {target : Target} {text : List Byte}

theorem fetchWord_args {pc : ℕ} {args rest : List Byte} (h : text.drop pc = args ++ rest) (hlen : args.length = 2) :
    fetchWord text pc = fetchWord args 0 := by
  obtain ⟨b0, b1, rfl⟩ := List.length_eq_two.mp hlen
  rw [fetchWord, fetchWord, h]
  rfl

theorem fetchDword_args {pc : ℕ} {args rest : List Byte} (h : text.drop pc = args ++ rest) (hlen : args.length = 4) :
    fetchDword text pc = fetchDword args 0 := by
  match args, hlen with
  | [b0, b1, b2, b3], _ =>
    rw [fetchDword, fetchDword, h]
    rfl

theorem getElem?_args {pc : ℕ} {args rest : List Byte} (h : text.drop pc = args ++ rest) (hlen : args.length = 1) :
    text[pc]? = args[0]? := by
  obtain ⟨b, rfl⟩ := List.length_eq_one_iff.mp hlen
  have hhead := congrArg List.head? h
  rwa [List.head?_drop] at hhead

theorem Vm.push_args (vm : Vm) (w : Width) (v : Word) (pc k : ℕ) :
    ({ vm with pc := pc + k } : Vm).push w v =
      (({ vm with pc := 0 + k } : Vm).push w v).map fun vm' => { vm' with pc := pc + k } := by
  rw [Vm.push, Vm.push]
  split
  · rfl
  · rfl

theorem Op.run_args {op : Op} {vm : Vm} {args rest : List Byte} (h : text.drop vm.pc = args ++ rest)
    (hlen : args.length = op.arity) :
    op.run target text vm =
      (op.run target args { vm with pc := 0 }).map fun vm' => { vm' with pc := vm.pc + args.length } := by
  cases op with
  | noOp =>
    rw [hlen]
    rfl
  | binary op w =>
    rw [hlen, Op.run, Op.run, opBinary, opBinary]
    split
    · rfl
    · rw [Option.map_map]
      rfl
  | bw w =>
    rw [hlen, Op.run, Op.run, opBw, opBw]
    split
    · rfl
    · rfl
  | ld w =>
    rw [hlen]
    cases w with
    | byte =>
      simp only [Op.run, opLd, getElem?_args h hlen]
      cases args[0]? with
      | none => rfl
      | some b => exact Vm.push_args vm .byte _ vm.pc 1
    | word =>
      simp only [Op.run, opLd, fetchWord_args h hlen]
      cases fetchWord args 0 with
      | none => rfl
      | some v => exact Vm.push_args vm .word v vm.pc 2
    | dword =>
      simp only [Op.run, opLd, fetchDword_args h hlen]
      cases fetchDword args 0 with
      | none => rfl
      | some v => exact Vm.push_args vm .dword v vm.pc 4
  | ldValue w =>
    rw [hlen]
    simp only [Op.run, opLdValue, fetchDword_args h hlen]
    cases fetchDword args 0 with
    | none => rfl
    | some a => exact Vm.push_args vm w _ vm.pc 4
  | st w =>
    rw [hlen, Op.run, Op.run, opSt, opSt]
    split
    · rfl
    · rfl
  | pop =>
    rw [hlen, Op.run, Op.run, opPop, opPop]
    split
    · rfl
    · rfl
  | call =>
    rw [hlen]
    simp only [Op.run, opCall, getElem?_args h hlen]
    cases args[0]? with
    | none => rfl
    | some b =>
      simp only [Option.bind_some]
      split
      · rfl
      · rw [Option.map_map]
        rfl
  | ldValueStack w =>
    rw [hlen, Op.run, Op.run, opLdValueStack, opLdValueStack]
    split
    · rfl
    · rfl

theorem vmStep_eq_run {i : Instr} {vm : Vm} (h : CodeAt text vm.pc i.encode) :
    vmStep target text vm = i.run target vm := by
  obtain ⟨rest, hrest⟩ := @CodeAt.right text vm.pc [i.op.code] i.args h
  have hargs : text.drop (vm.pc + 1) = i.args ++ rest := hrest
  rw [vmStep, h.getElem?, Option.bind_some, opTable_code, Option.bind_some]
  exact @Op.run_args target text i.op { vm with pc := vm.pc + 1 } i.args rest hargs i.fits

theorem Instr.run_pc {i : Instr} {vm vm' : Vm} (h : i.run target vm = some vm') :
    vm'.pc = vm.pc + i.encode.length := by
  obtain ⟨vm1, -, rfl⟩ := Option.map_eq_some_iff.mp h
  rw [Instr.encode, List.length_cons]
  exact Nat.add_right_comm ..

theorem runInstrs_reaches (htext : text.length = finshTextMax) {is : List Instr} {vm vm' : Vm}
    (hcode : CodeAt text vm.pc (encode is)) (h : runInstrs target is vm = some vm') :
    Reaches target text vm vm' ∧ vm'.pc = vm.pc + (encode is).length := by
  induction is generalizing vm with
  | nil =>
    cases h
    exact ⟨Relation.ReflTransGen.refl, rfl⟩
  | cons i is ih =>
    obtain ⟨vm1, hrun, hrest⟩ := Option.bind_eq_some_iff.mp h
    rw [encode_cons] at hcode
    have hpc := Instr.run_pc hrun
    have hlt : vm.pc < finshTextMax := by
      rw [← htext]
      exact (List.getElem?_eq_some_iff.mp (@CodeAt.getElem? text vm.pc i.op.code i.args hcode.left)).1
    obtain ⟨hreach, hend⟩ := ih (hpc ▸ hcode.right) hrest
    refine ⟨hreach.head ⟨hlt, (vmStep_eq_run hcode.left).trans hrun⟩, ?_⟩
    rw [hend, hpc, encode_cons, List.length_append, Nat.add_assoc]

/-- `finsh_vm_run` on a text segment that is filled with instructions. -/
theorem vmLoop_eq_runInstrs (htext : text.length = finshTextMax) {is : List Instr} {vm : Vm} {m : ℕ}
    (hcode : CodeAt text vm.pc (encode is)) (hend : vm.pc + (encode is).length = finshTextMax)
    (hm : is.length < m) : vmLoop target text m vm = runInstrs target is vm := by
  induction is generalizing vm m with
  | nil =>
    obtain ⟨m, rfl⟩ := Nat.exists_eq_succ_of_ne_zero (Nat.ne_zero_of_lt hm)
    have hpc : ¬ vm.pc < finshTextMax := Nat.not_lt.mpr hend.ge
    rw [vmLoop, if_neg hpc, runInstrs]
  | cons i is ih =>
    obtain ⟨m, rfl⟩ := Nat.exists_eq_succ_of_ne_zero (Nat.ne_zero_of_lt hm)
    rw [encode_cons] at hcode hend
    have hlt : vm.pc < finshTextMax := by
      rw [← htext]
      exact (List.getElem?_eq_some_iff.mp (@CodeAt.getElem? text vm.pc i.op.code i.args hcode.left)).1
    rw [vmLoop, if_pos hlt, vmStep_eq_run hcode.left, runInstrs]
    cases hrun : i.run target vm with
    | none => rfl
    | some vm1 =>
      have hpc := Instr.run_pc hrun
      refine ih (hpc ▸ hcode.right) ?_ (Nat.lt_of_succ_lt_succ hm)
      rw [hpc, Nat.add_assoc, ← List.length_append]
      exact hend

theorem Reaches.pc_le {a b : Vm} (h : Reaches target text a b) : a.pc ≤ b.pc := by
  induction h with
  | refl => exact le_rfl
  | tail _ hstep ih => exact ih.trans (vmStep_pc hstep.2).le

theorem Reaches.unique {a b b' : Vm} (h : Reaches target text a b) (h' : Reaches target text a b')
    (hpc : b.pc = b'.pc) : b = b' := by
  induction h using Relation.ReflTransGen.head_induction_on with
  | refl =>
    rcases Relation.ReflTransGen.cases_head h' with heq | ⟨c, hstep, hrest⟩
    · exact heq
    · have hlt := (vmStep_pc hstep.2).trans_le (Reaches.pc_le hrest)
      omega
  | @head a c hstep hrest ih =>
    rcases Relation.ReflTransGen.cases_head h' with heq | ⟨c', hstep', hrest'⟩
    · have hlt := (vmStep_pc hstep.2).trans_le (Reaches.pc_le hrest)
      rw [heq] at hlt
      omega
    · rw [hstep.2] at hstep'
      cases hstep'.2
      exact ih hrest'

end RtThread.Finsh
