import RtThread.Finsh.Compiler
import Mathlib

/-!
# FinSH: runs of the virtual machine

The machine runs to the end of the text segment in a bounded number of steps. For code on `dword`, what it
does to the stack and to the memory does not depend on where the code is in the text segment.
-/

namespace RtThread.Finsh

open Relation

/-! ### Memory -/

theorem load_store_same (mem : Memory) (a v : Word) : load (store mem .dword a v) .dword a = v := by
  have h01 : a ≠ a + 1 := by bv_omega
  have h02 : a ≠ a + 2 := by bv_omega
  have h03 : a ≠ a + 3 := by bv_omega
  have h12 : a + 1 ≠ a + 2 := by bv_omega
  have h13 : a + 1 ≠ a + 3 := by bv_omega
  have h23 : a + 2 ≠ a + 3 := by bv_omega
  simp only [load, store, Function.update_self, Function.update_of_ne h01, Function.update_of_ne h02,
    Function.update_of_ne h03, Function.update_of_ne h12, Function.update_of_ne h13, Function.update_of_ne h23]
  exact ofBytes_bytesOf v

theorem load_store_other (mem : Memory) {a b : Word} (v : Word)
    (h : ∀ p q : Word, p < 4 → q < 4 → a + p ≠ b + q) : load (store mem .dword a v) .dword b = load mem .dword b := by
  have hbyte : ∀ q : Word, q < 4 → store mem .dword a v (b + q) = mem (b + q) := by
    intro q hq
    have h0 := h 0 q (by decide) hq
    have ha : a + 0 = a := BitVec.add_zero a
    rw [ha] at h0
    simp only [store, Function.update_of_ne h0.symm, Function.update_of_ne (h 1 q (by decide) hq).symm,
      Function.update_of_ne (h 2 q (by decide) hq).symm, Function.update_of_ne (h 3 q (by decide) hq).symm]
  have h0 := hbyte 0 (by decide)
  have hb : b + 0 = b := BitVec.add_zero b
  rw [hb] at h0
  simp only [load, h0, hbyte 1 (by decide), hbyte 2 (by decide), hbyte 3 (by decide)]

/-! ### The end of a run -/

variable (target : Target) (text : List Byte)

theorem Vm.push_pc {vm vm' : Vm} {w : Width} {v : Word} (h : vm.push w v = some vm') : vm'.pc = vm.pc := by
  unfold Vm.push at h
  split_ifs at h
  cases h
  rfl

variable {target text}

theorem Op.run_pc {op : Op} {vm vm' : Vm} (h : op.run target text vm = some vm') : vm.pc ≤ vm'.pc := by
  cases op with
  | noOp =>
    cases h
    exact le_rfl
  | binary op w =>
    simp only [Op.run, opBinary] at h
    split_ifs at h
    obtain ⟨v, -, rfl⟩ := Option.map_eq_some_iff.mp h
    exact le_rfl
  | bw w =>
    simp only [Op.run, opBw] at h
    split_ifs at h
    cases h
    exact le_rfl
  | ld w =>
    cases w
    all_goals
      obtain ⟨v, -, hpush⟩ := Option.bind_eq_some_iff.mp h
      rw [Vm.push_pc hpush]
      exact Nat.le_add_right _ _
  | ldValue w =>
    obtain ⟨a, -, hpush⟩ := Option.bind_eq_some_iff.mp h
    rw [Vm.push_pc hpush]
    exact Nat.le_add_right _ _
  | st w =>
    simp only [Op.run, opSt] at h
    split_ifs at h
    cases h
    exact le_rfl
  | pop =>
    simp only [Op.run, opPop] at h
    split_ifs at h
    cases h
    exact le_rfl
  | call =>
    obtain ⟨b, -, hcall⟩ := Option.bind_eq_some_iff.mp h
    simp only at hcall
    split_ifs at hcall
    obtain ⟨r, -, rfl⟩ := Option.map_eq_some_iff.mp hcall
    exact Nat.le_add_right _ _
  | ldValueStack w =>
    simp only [Op.run, opLdValueStack] at h
    split_ifs at h
    cases h
    exact le_rfl

theorem vmStep_pc {vm vm' : Vm} (h : vmStep target text vm = some vm') : vm.pc < vm'.pc := by
  obtain ⟨b, -, hb⟩ := Option.bind_eq_some_iff.mp h
  obtain ⟨op, -, hop⟩ := Option.bind_eq_some_iff.mp hb
  exact Op.run_pc hop

variable (target text)

/-- Steps of the loop of `finsh_vm_run`. -/
def Reaches : Vm → Vm → Prop := ReflTransGen fun a b => a.pc < finshTextMax ∧ vmStep target text a = some b

variable {target text}

theorem Reaches.vmLoop {a b : Vm} (h : Reaches target text a b) (hb : finshTextMax ≤ b.pc) :
    ∀ m, finshTextMax - a.pc < m → vmLoop target text m a = some b := by
  induction h using ReflTransGen.head_induction_on with
  | refl =>
    intro m hm
    obtain ⟨m, rfl⟩ : ∃ m', m = m' + 1 := ⟨m - 1, by omega⟩
    rw [Finsh.vmLoop, if_neg hb.not_gt]
  | @head a c hstep _ ih =>
    intro m hm
    obtain ⟨m, rfl⟩ : ∃ m', m = m' + 1 := ⟨m - 1, by omega⟩
    have hpc := vmStep_pc hstep.2
    have hlt := hstep.1
    rw [Finsh.vmLoop, if_pos hlt, hstep.2]
    exact ih m (by omega)

/-! ### The stack as a list -/

/-- The slots from the bottom are the values of the list, the last of which is at the bottom. -/
def Stacked (stack : ℕ → Word) : List Word → Prop
  | [] => True
  | v :: st => stack st.length = v ∧ Stacked stack st

theorem Stacked.update {stack : ℕ → Word} {st : List Word} (h : Stacked stack st) {i : ℕ} (hi : st.length ≤ i)
    (v : Word) : Stacked (Function.update stack i v) st := by
  induction st with
  | nil => exact trivial
  | cons w st ih =>
    rw [List.length_cons] at hi
    refine ⟨?_, ih h.2 (by omega)⟩
    rw [Function.update_of_ne (by omega)]
    exact h.1

theorem Stacked.push {stack : ℕ → Word} {st : List Word} (h : Stacked stack st) (v : Word) :
    Stacked (Function.update stack st.length v) (v :: st) :=
  ⟨Function.update_self _ _ _, h.update le_rfl v⟩

structure Conf where
  stack : List Word
  mem : Memory

structure Vm.Has (vm : Vm) (c : Conf) : Prop where
  sp : vm.sp = c.stack.length
  stack : Stacked vm.stack c.stack
  mem : vm.mem = c.mem

def CodeAt (text : List Byte) (pc : ℕ) (code : List Byte) : Prop := ∃ rest, text.drop pc = code ++ rest

theorem CodeAt.left {pc : ℕ} {a b : List Byte} (h : CodeAt text pc (a ++ b)) : CodeAt text pc a := by
  obtain ⟨rest, hrest⟩ := h
  exact ⟨b ++ rest, hrest.trans (List.append_assoc a b rest)⟩

theorem CodeAt.right {pc : ℕ} {a b : List Byte} (h : CodeAt text pc (a ++ b)) : CodeAt text (pc + a.length) b := by
  obtain ⟨rest, hrest⟩ := h
  refine ⟨rest, ?_⟩
  rw [← List.drop_drop, hrest, List.append_assoc, List.drop_left]

theorem CodeAt.getElem? {pc : ℕ} {b : Byte} {code : List Byte} (h : CodeAt text pc (b :: code)) :
    text[pc]? = some b := by
  obtain ⟨rest, hrest⟩ := h
  have hhead := congrArg List.head? hrest
  rwa [List.head?_drop] at hhead

theorem CodeAt.fetchDword {pc : ℕ} {v : Word} (h : CodeAt text pc (bytesOf v)) : fetchDword text pc = some v := by
  obtain ⟨rest, hrest⟩ := h
  rw [Finsh.fetchDword, hrest]
  exact congrArg some (ofBytes_bytesOf v)

variable (target text)

/-- Wherever it is, the code takes the machine from `c` to `c'`. -/
def Runs (code : List Byte) (c c' : Conf) : Prop :=
  ∀ vm : Vm, CodeAt text vm.pc code → vm.Has c →
    ∃ vm', Reaches target text vm vm' ∧ vm'.pc = vm.pc + code.length ∧ vm'.Has c'

variable {target text}

theorem Runs.nil (c : Conf) : Runs target text [] c c := fun vm _ hc => ⟨vm, ReflTransGen.refl, rfl, hc⟩

theorem Runs.append {a b : List Byte} {c c' c'' : Conf} (ha : Runs target text a c c') (hb : Runs target text b c' c'') :
    Runs target text (a ++ b) c c'' := by
  intro vm hcode hc
  obtain ⟨vm1, h1, hpc1, hc1⟩ := ha vm hcode.left hc
  obtain ⟨vm2, h2, hpc2, hc2⟩ := hb vm1 (hpc1 ▸ hcode.right) hc1
  refine ⟨vm2, h1.trans h2, ?_, hc2⟩
  rw [hpc2, hpc1, List.length_append, Nat.add_assoc]

theorem runs_op (htext : text.length = finshTextMax) {op : Op} {args : List Byte} {c c' : Conf}
    (h : ∀ vm : Vm, CodeAt text vm.pc args → vm.Has c →
      ∃ vm', op.run target text vm = some vm' ∧ vm'.pc = vm.pc + args.length ∧ vm'.Has c') :
    Runs target text (op.code :: args) c c' := by
  intro vm hcode hc
  have hbyte := hcode.getElem?
  have hargs : CodeAt text (vm.pc + 1) args := @CodeAt.right text vm.pc [op.code] args hcode
  obtain ⟨vm', hrun, hpc, hc'⟩ := h { vm with pc := vm.pc + 1 } hargs ⟨hc.sp, hc.stack, hc.mem⟩
  have hlt : vm.pc < finshTextMax := by
    rw [← htext]
    exact (List.getElem?_eq_some_iff.mp hbyte).1
  refine ⟨vm', ReflTransGen.single ⟨hlt, ?_⟩, ?_, hc'⟩
  · rw [vmStep, hbyte, Option.bind_some, opTable_code]
    exact hrun
  · rw [hpc, List.length_cons]
    simp only
    omega

theorem Vm.Has.push {vm : Vm} {st : List Word} {mem : Memory} (h : vm.Has ⟨st, mem⟩) (hst : st.length < finshStackMax)
    (v : Word) : ∃ vm', vm.push .dword v = some vm' ∧ vm'.pc = vm.pc ∧ vm'.Has ⟨v :: st, mem⟩ := by
  have hsp : vm.sp = st.length := h.sp
  refine ⟨_, if_pos (hsp ▸ hst), rfl, congrArg (· + 1) hsp, ?_, h.mem⟩
  simp only [Vm.setSlot, hsp]
  exact h.stack.push v

/-! ### Instructions -/

section Instructions

variable (target) (htext : text.length = finshTextMax)
include htext

theorem runs_ld {st : List Word} (hst : st.length < finshStackMax) (mem : Memory) (v : Word) :
    Runs target text (codeLd v) ⟨st, mem⟩ ⟨v :: st, mem⟩ := by
  refine runs_op htext fun vm hargs hc => ?_
  have hc4 : ({ vm with pc := vm.pc + 4 } : Vm).Has ⟨st, mem⟩ := ⟨hc.sp, hc.stack, hc.mem⟩
  obtain ⟨vm', hpush, hpc, hc'⟩ := hc4.push hst v
  refine ⟨vm', ?_, hpc, hc'⟩
  simp only [Op.run, opLd, hargs.fetchDword, Option.bind_some]
  exact hpush

theorem runs_ldValue {st : List Word} (hst : st.length < finshStackMax) (mem : Memory) (a : Word) :
    Runs target text (codeLdValue .dword a) ⟨st, mem⟩ ⟨load mem .dword a :: st, mem⟩ := by
  refine runs_op htext fun vm hargs hc => ?_
  have hc4 : ({ vm with pc := vm.pc + 4 } : Vm).Has ⟨st, mem⟩ := ⟨hc.sp, hc.stack, hc.mem⟩
  obtain ⟨vm', hpush, hpc, hc'⟩ := hc4.push hst (load mem .dword a)
  refine ⟨vm', ?_, hpc, hc'⟩
  have hload : load vm.mem .dword a = load mem .dword a := congrArg (load · .dword a) hc.mem
  simp only [Op.run, opLdValue, hargs.fetchDword, Option.bind_some, hload]
  exact hpush

theorem runs_binary {op : BinOp} {a b v : Word} (hv : op.eval a b = some v) (st : List Word) (mem : Memory) :
    Runs target text [(Op.binary op .dword).code] ⟨b :: a :: st, mem⟩ ⟨v :: st, mem⟩ := by
  refine runs_op htext fun vm _ hc => ?_
  obtain ⟨hsp, ⟨hb, ha, hst⟩, hmem⟩ := hc
  simp only [List.length_cons] at hsp hb
  have hrun : opBinary target op .dword vm =
      some { vm.setSlot st.length v with sp := st.length + 1 } := by
    simp only [opBinary, hsp, if_neg (show ¬st.length + 1 + 1 < 2 by omega),
      show st.length + 1 + 1 - 2 = st.length by omega, show st.length + 1 + 1 - 1 = st.length + 1 by omega, ha, hb,
      Target.promote, hv, Option.map_some, Width.write]
  exact ⟨_, hrun, rfl, rfl, hst.push v, hmem⟩

theorem runs_bw (a : Word) (st : List Word) (mem : Memory) :
    Runs target text [(Op.bw .dword).code] ⟨a :: st, mem⟩ ⟨~~~a :: st, mem⟩ := by
  refine runs_op htext fun vm _ hc => ?_
  obtain ⟨hsp, ⟨ha, hst⟩, hmem⟩ := hc
  simp only [List.length_cons] at hsp
  have hrun : opBw .dword vm = some (vm.setSlot st.length (~~~a)) := by
    simp only [opBw, hsp, Nat.add_sub_cancel, if_neg (show ¬st.length + 1 < 1 by omega), ha, Width.write]
  exact ⟨_, hrun, rfl, hsp, hst.push (~~~a), hmem⟩

theorem runs_st (v a : Word) (st : List Word) (mem : Memory) :
    Runs target text [(Op.st .dword).code] ⟨v :: a :: st, mem⟩ ⟨a :: st, store mem .dword a v⟩ := by
  refine runs_op htext fun vm _ hc => ?_
  obtain ⟨hsp, ⟨hv, ha, hst⟩, hmem⟩ := hc
  simp only [List.length_cons] at hsp hv
  have hrun : opSt .dword vm = some { vm with mem := store mem .dword a v, sp := st.length + 1 } := by
    simp only [opSt, hsp, if_neg (show ¬st.length + 1 + 1 < 2 by omega),
      show st.length + 1 + 1 - 2 = st.length by omega, show st.length + 1 + 1 - 1 = st.length + 1 by omega, ha, hv, hmem]
  exact ⟨_, hrun, rfl, rfl, ⟨ha, hst⟩, rfl⟩

theorem runs_ldValueStack (a : Word) (st : List Word) (mem : Memory) :
    Runs target text [(Op.ldValueStack .dword).code] ⟨a :: st, mem⟩ ⟨load mem .dword a :: st, mem⟩ := by
  refine runs_op htext fun vm _ hc => ?_
  obtain ⟨hsp, ⟨ha, hst⟩, hmem⟩ := hc
  simp only [List.length_cons] at hsp
  have hrun : opLdValueStack .dword vm = some (vm.setSlot st.length (load mem .dword a)) := by
    simp only [opLdValueStack, hsp, Nat.add_sub_cancel, if_neg (show ¬st.length + 1 < 1 by omega), ha, hmem, Width.write]
  exact ⟨_, hrun, rfl, hsp, hst.push _, hmem⟩

theorem runs_pop (v : Word) (st : List Word) (mem : Memory) :
    Runs target text [Op.pop.code] ⟨v :: st, mem⟩ ⟨st, mem⟩ := by
  refine runs_op htext fun vm _ hc => ?_
  obtain ⟨hsp, ⟨-, hst⟩, hmem⟩ := hc
  simp only [List.length_cons] at hsp
  have hrun : opPop vm = some { vm with sp := st.length } := by
    simp only [opPop, hsp, Nat.add_sub_cancel, if_neg (show ¬st.length + 1 < 1 by omega)]
  exact ⟨_, hrun, rfl, rfl, hst, hmem⟩

theorem runs_noOps (k : ℕ) (c : Conf) : Runs target text (List.replicate k Op.noOp.code) c c := by
  induction k with
  | zero => exact Runs.nil c
  | succ k ih =>
    have hone : Runs target text [Op.noOp.code] c c := runs_op htext fun vm _ hc => ⟨vm, rfl, rfl, hc⟩
    rw [List.replicate_succ, ← List.singleton_append]
    exact hone.append ih

end Instructions

theorem Runs.finshVmRun (htext : text.length = finshTextMax) {mem : Memory} {c : Conf}
    (h : Runs target text text ⟨[], mem⟩ c) (stack : ℕ → Word) {m : ℕ} (hm : finshTextMax < m) :
    ∃ vm, finshVmRun target text m stack mem = some vm ∧ vm.Has c := by
  obtain ⟨vm, hreach, hpc, hc⟩ := h ⟨0, 0, stack, mem⟩ ⟨[], (List.append_nil text).symm⟩ ⟨rfl, trivial, rfl⟩
  simp only [Nat.zero_add, htext] at hpc
  exact ⟨vm, hreach.vmLoop hpc.ge m hm, hc⟩

end RtThread.Finsh
