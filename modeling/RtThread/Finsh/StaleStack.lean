import RtThread.Finsh.Instructions
import RtThread.Finsh.Widths

/-!
# FinSH: what a line has written of the stack

An instruction writes one member of a slot and leaves the other bytes as they are. Two stacks with the same bytes
where the line has written stay so, as long as every member that is read lies in what has been written.
-/

namespace RtThread.Finsh

/-! ### Accesses -/

/-- What an operation does to the slots of the stack. -/
inductive Access where
  | rest
  | push (w : Width)
  | combine (w : Width)
  | complement (w : Width)
  | store (w : Width)
  | drop
  | call (parameters : ℕ)
  | reload (w : Width)
  deriving DecidableEq

/-- The stack pointer, and for each slot the widest member that has been written. -/
structure Written where
  sp : ℕ
  slot : ℕ → Option Width

/-- The member of the width `w` has been written. -/
def Written.has (k : Written) (i : ℕ) (w : Width) : Bool := (k.slot i).any fun u => w.toNat ≤ u.toNat

def Width.wider (w u : Width) : Width := if w.toNat ≤ u.toNat then u else w

def Written.write (k : Written) (i : ℕ) (w : Width) : Written :=
  { k with slot := Function.update k.slot i (some ((k.slot i).elim w w.wider)) }

/-- The operation reads what has been written only, or there is no room on the stack for it. -/
def Access.fresh (k : Written) : Access → Bool
  | .rest | .push _ | .drop => true
  | .combine w => k.sp < 2 || (k.has (k.sp - 2) w && k.has (k.sp - 1) w)
  | .complement w => k.sp < 1 || k.has (k.sp - 1) w
  | .store w => k.sp < 2 || (k.has (k.sp - 2) .dword && k.has (k.sp - 1) w)
  | .call parameters =>
    16 < parameters || k.sp < parameters + 1 ||
      (List.range (parameters + 1)).all fun i => k.has (k.sp - 1 - parameters + i) .dword
  | .reload _ => k.sp < 1 || k.has (k.sp - 1) .dword

/-- What has been written after the operation, when there is room on the stack for it. -/
def Access.after (k : Written) : Access → Option Written
  | .rest => some k
  | .push w => if k.sp < finshStackMax then some { k.write k.sp w with sp := k.sp + 1 } else none
  | .combine w => if k.sp < 2 then none else some { k.write (k.sp - 2) w with sp := k.sp - 1 }
  | .complement w => if k.sp < 1 then none else some (k.write (k.sp - 1) w)
  | .store _ => if k.sp < 2 then none else some { k with sp := k.sp - 1 }
  | .drop => if k.sp < 1 then none else some { k with sp := k.sp - 1 }
  | .call parameters =>
    if 16 < parameters ∨ k.sp < parameters + 1 then none
    else some { k.write (k.sp - 1 - parameters) .dword with sp := k.sp - 1 - parameters + 1 }
  | .reload w => if k.sp < 1 then none else some (k.write (k.sp - 1) w)

def fresh : List Access → Written → Bool
  | [], _ => true
  | a :: as, k => a.fresh k && (a.after k).all (fresh as)

def Op.access (args : List Byte) : Op → Access
  | .noOp => .rest
  | .binary _ w => .combine w
  | .bw w => .complement w
  | .ld w => .push w
  | .ldValue w => .push w
  | .st w => .store w
  | .pop => .drop
  | .call => .call (args.headD 0).toNat
  | .ldValueStack w => .reload w

def Instr.access (i : Instr) : Access := i.op.access i.args

/-! ### What has been written -/

theorem Width.le_wider_iff (v w u : Width) : v.toNat ≤ (w.wider u).toNat ↔ v.toNat ≤ u.toNat ∨ v.toNat ≤ w.toNat := by
  rw [Width.wider]
  split
  · omega
  · omega

theorem Written.has_write (k : Written) (i j : ℕ) (w u : Width) :
    (k.write i w).has j u = true ↔ k.has j u = true ∨ (j = i ∧ u.toNat ≤ w.toNat) := by
  by_cases hj : j = i
  · subst hj
    simp only [Written.has, Written.write, Function.update_self, Option.any_some, decide_eq_true_eq, true_and]
    cases k.slot j with
    | none => simp only [Option.elim_none, Option.any_none, Bool.false_eq_true, false_or]
    | some v => simp only [Option.elim_some, Width.le_wider_iff, Option.any_some, decide_eq_true_eq]
  · simp only [Written.has, Written.write, Function.update_of_ne hj, hj, false_and, or_false]

theorem Access.after_has {a : Access} {k k' : Written} (h : a.after k = some k') {i : ℕ} {w : Width}
    (hi : k.has i w = true) : k'.has i w = true := by
  have hwrite : ∀ j u, (k.write j u).has i w = true := by
    intro j u
    exact (k.has_write j i u w).mpr (Or.inl hi)
  cases a with
  | rest =>
    cases h
    exact hi
  | push u =>
    obtain ⟨-, ⟨⟩⟩ := Option.ite_none_right_eq_some.mp h
    exact hwrite _ _
  | combine u =>
    obtain ⟨-, ⟨⟩⟩ := Option.ite_none_left_eq_some.mp h
    exact hwrite _ _
  | complement u =>
    obtain ⟨-, ⟨⟩⟩ := Option.ite_none_left_eq_some.mp h
    exact hwrite _ _
  | store u =>
    obtain ⟨-, ⟨⟩⟩ := Option.ite_none_left_eq_some.mp h
    exact hi
  | drop =>
    obtain ⟨-, ⟨⟩⟩ := Option.ite_none_left_eq_some.mp h
    exact hi
  | call parameters =>
    obtain ⟨-, ⟨⟩⟩ := Option.ite_none_left_eq_some.mp h
    exact hwrite _ _
  | reload u =>
    obtain ⟨-, ⟨⟩⟩ := Option.ite_none_left_eq_some.mp h
    exact hwrite _ _

/-- Two machines that differ in what the line has not written only. -/
structure Written.Agree (k : Written) (vm1 vm2 : Vm) : Prop where
  sp1 : vm1.sp = k.sp
  sp2 : vm2.sp = k.sp
  mem : vm1.mem = vm2.mem
  slot : ∀ i w, k.has i w = true → w.low (vm1.stack i) = w.low (vm2.stack i)

theorem Written.Agree.setPc {k : Written} {vm1 vm2 : Vm} (h : k.Agree vm1 vm2) (pc1 pc2 : ℕ) :
    k.Agree { vm1 with pc := pc1 } { vm2 with pc := pc2 } := ⟨h.sp1, h.sp2, h.mem, h.slot⟩

theorem Written.Agree.move {k : Written} {vm1 vm2 : Vm} (h : k.Agree vm1 vm2) (sp pc1 pc2 : ℕ) {mem1 mem2 : Memory}
    (hmem : mem1 = mem2) : Written.Agree { k with sp := sp } ⟨pc1, sp, vm1.stack, mem1⟩ ⟨pc2, sp, vm2.stack, mem2⟩ :=
  ⟨rfl, rfl, hmem, h.slot⟩

theorem Written.Agree.write {k : Written} {vm1 vm2 : Vm} (h : k.Agree vm1 vm2) (i : ℕ) {w : Width} {v1 v2 : Word}
    (hv : w.low v1 = w.low v2) :
    (k.write i w).Agree (vm1.setSlot i (w.write (vm1.stack i) v1)) (vm2.setSlot i (w.write (vm2.stack i) v2)) := by
  refine ⟨h.sp1, h.sp2, h.mem, fun j u hj => ?_⟩
  by_cases hji : j = i
  · subst hji
    simp only [Vm.setSlot, Function.update_self]
    rcases (k.has_write j j w u).mp hj with hhas | ⟨-, hle⟩
    · exact Width.low_write_congr (h.slot j u hhas) hv
    · refine Width.low_mono hle ?_
      rw [Width.low_write, Width.low_write, hv]
  · simp only [Vm.setSlot, Function.update_of_ne hji]
    rcases (k.has_write i j w u).mp hj with hhas | ⟨heq, -⟩
    · exact h.slot j u hhas
    · exact absurd heq hji

/-! ### Runs -/

/-- Both machines stop, or they differ again in what has not been written only. -/
def Outcomes (k : Option Written) : Option Vm → Option Vm → Prop :=
  Option.Rel fun vm1 vm2 => ∃ k' ∈ k, k'.Agree vm1 vm2

section Runs

variable {target : Target} {k : Written} {vm1 vm2 : Vm}

theorem Vm.push_agree (h : k.Agree vm1 vm2) {w : Width} {v1 v2 : Word} (hv : w.low v1 = w.low v2) :
    Outcomes ((Access.push w).after k) (vm1.push w v1) (vm2.push w v2) := by
  rw [Vm.push, Vm.push, Access.after, h.sp1, h.sp2]
  split
  · exact .some ⟨_, rfl, (h.write k.sp hv).move (k.sp + 1) vm1.pc vm2.pc h.mem⟩
  · exact .none

theorem opBinary_agree (op : BinOp) {w : Width} (h : k.Agree vm1 vm2) (hfresh : (Access.combine w).fresh k = true) :
    Outcomes ((Access.combine w).after k) (opBinary target op w vm1) (opBinary target op w vm2) := by
  rw [opBinary, opBinary, Access.after, h.sp1, h.sp2]
  by_cases hsp : k.sp < 2
  · rw [if_pos hsp, if_pos hsp, if_pos hsp]
    exact .none
  · rw [if_neg hsp, if_neg hsp, if_neg hsp]
    simp only [Access.fresh, decide_eq_false hsp, Bool.false_or, Bool.and_eq_true] at hfresh
    simp only [Width.promote_congr (h.slot _ w hfresh.1), Width.promote_congr (h.slot _ w hfresh.2)]
    cases op.eval (target.promote w (vm2.stack (k.sp - 2))) (target.promote w (vm2.stack (k.sp - 1))) with
    | none => exact .none
    | some v => exact .some ⟨_, rfl, (h.write (k.sp - 2) rfl).move (k.sp - 1) vm1.pc vm2.pc h.mem⟩

theorem opBw_agree {w : Width} (h : k.Agree vm1 vm2) (hfresh : (Access.complement w).fresh k = true) :
    Outcomes ((Access.complement w).after k) (opBw w vm1) (opBw w vm2) := by
  rw [opBw, opBw, Access.after, h.sp1, h.sp2]
  by_cases hsp : k.sp < 1
  · rw [if_pos hsp, if_pos hsp, if_pos hsp]
    exact .none
  · rw [if_neg hsp, if_neg hsp, if_neg hsp]
    simp only [Access.fresh, decide_eq_false hsp, Bool.false_or] at hfresh
    exact .some ⟨_, rfl, h.write (k.sp - 1) (Width.low_not_congr (h.slot _ w hfresh))⟩

theorem opSt_agree {w : Width} (h : k.Agree vm1 vm2) (hfresh : (Access.store w).fresh k = true) :
    Outcomes ((Access.store w).after k) (opSt w vm1) (opSt w vm2) := by
  rw [opSt, opSt, Access.after, h.sp1, h.sp2]
  by_cases hsp : k.sp < 2
  · rw [if_pos hsp, if_pos hsp, if_pos hsp]
    exact .none
  · rw [if_neg hsp, if_neg hsp, if_neg hsp]
    simp only [Access.fresh, decide_eq_false hsp, Bool.false_or, Bool.and_eq_true] at hfresh
    have haddr : vm1.stack (k.sp - 2) = vm2.stack (k.sp - 2) := h.slot _ .dword hfresh.1
    refine .some ⟨_, rfl, h.move (k.sp - 1) vm1.pc vm2.pc ?_⟩
    rw [haddr, h.mem]
    exact store_congr _ _ (h.slot _ w hfresh.2)

theorem opPop_agree (h : k.Agree vm1 vm2) : Outcomes (Access.drop.after k) (opPop vm1) (opPop vm2) := by
  rw [opPop, opPop, Access.after, h.sp1, h.sp2]
  split
  · exact .none
  · exact .some ⟨_, rfl, h.move (k.sp - 1) vm1.pc vm2.pc h.mem⟩

theorem opLdValueStack_agree {w : Width} (h : k.Agree vm1 vm2) (hfresh : (Access.reload w).fresh k = true) :
    Outcomes ((Access.reload w).after k) (opLdValueStack w vm1) (opLdValueStack w vm2) := by
  rw [opLdValueStack, opLdValueStack, Access.after, h.sp1, h.sp2]
  by_cases hsp : k.sp < 1
  · rw [if_pos hsp, if_pos hsp, if_pos hsp]
    exact .none
  · rw [if_neg hsp, if_neg hsp, if_neg hsp]
    simp only [Access.fresh, decide_eq_false hsp, Bool.false_or] at hfresh
    have haddr : vm1.stack (k.sp - 1) = vm2.stack (k.sp - 1) := h.slot _ .dword hfresh
    refine .some ⟨_, rfl, h.write (k.sp - 1) ?_⟩
    rw [haddr, h.mem]

theorem opCall_agree {args : List Byte} (h : k.Agree vm1 vm2) (hpc1 : vm1.pc = 0) (hpc2 : vm2.pc = 0)
    (hfresh : (Access.call (args.headD 0).toNat).fresh k = true) :
    Outcomes ((Access.call (args.headD 0).toNat).after k) (opCall target args vm1) (opCall target args vm2) := by
  rw [opCall, opCall, hpc1, hpc2]
  cases args with
  | nil => exact .none
  | cons b args =>
    simp only [List.getElem?_cons_zero, Option.bind_some, h.sp1, h.sp2]
    rw [List.headD_cons] at hfresh ⊢
    rw [Access.after]
    by_cases hsp : 16 < b.toNat ∨ k.sp < b.toNat + 1
    · rw [if_pos hsp, if_pos hsp, if_pos hsp]
      exact .none
    · rw [if_neg hsp, if_neg hsp, if_neg hsp]
      have hno := not_or.mp hsp
      simp only [Access.fresh, decide_eq_false hno.1, decide_eq_false hno.2, Bool.false_or, List.all_eq_true,
        List.mem_range] at hfresh
      have hslot : ∀ i < b.toNat + 1, vm1.stack (k.sp - 1 - b.toNat + i) = vm2.stack (k.sp - 1 - b.toNat + i) :=
        fun i hi => h.slot _ .dword (hfresh i hi)
      have hfunc : vm1.stack (k.sp - 1 - b.toNat) = vm2.stack (k.sp - 1 - b.toNat) := hslot 0 (Nat.succ_pos _)
      have hargs : ((List.range b.toNat).map fun i => vm1.stack (k.sp - 1 - b.toNat + 1 + i)) =
          (List.range b.toNat).map fun i => vm2.stack (k.sp - 1 - b.toNat + 1 + i) := by
        refine List.map_congr_left fun i hi => ?_
        have hi' := hslot (i + 1) (Nat.succ_lt_succ (List.mem_range.mp hi))
        rwa [Nat.add_comm i 1, ← Nat.add_assoc] at hi'
      rw [hfunc, hargs, h.mem]
      cases target.call (vm2.stack (k.sp - 1 - b.toNat))
          ((List.range b.toNat).map fun i => vm2.stack (k.sp - 1 - b.toNat + 1 + i)) vm2.mem with
      | none => exact .none
      | some r =>
        exact .some ⟨_, rfl, (@Written.Agree.write k vm1 vm2 h (k.sp - 1 - b.toNat) .dword r.1 r.1 rfl).move
          (k.sp - 1 - b.toNat + 1) 1 1 rfl⟩

theorem Op.run_agree {op : Op} {args : List Byte} (h : k.Agree vm1 vm2) (hpc1 : vm1.pc = 0) (hpc2 : vm2.pc = 0)
    (hfresh : (op.access args).fresh k = true) :
    Outcomes ((op.access args).after k) (op.run target args vm1) (op.run target args vm2) := by
  cases op with
  | noOp => exact .some ⟨k, rfl, h⟩
  | binary op w => exact opBinary_agree op h hfresh
  | bw w => exact opBw_agree h hfresh
  | ld w =>
    cases w with
    | byte =>
      simp only [Op.run, opLd, hpc1, hpc2]
      cases args[0]? with
      | none => exact .none
      | some b => exact Vm.push_agree (h.setPc _ _) rfl
    | word =>
      simp only [Op.run, opLd, hpc1, hpc2]
      cases fetchWord args 0 with
      | none => exact .none
      | some v => exact Vm.push_agree (h.setPc _ _) rfl
    | dword =>
      simp only [Op.run, opLd, hpc1, hpc2]
      cases fetchDword args 0 with
      | none => exact .none
      | some v => exact Vm.push_agree (h.setPc _ _) rfl
  | ldValue w =>
    simp only [Op.run, opLdValue, hpc1, hpc2]
    cases fetchDword args 0 with
    | none => exact .none
    | some a =>
      refine Vm.push_agree (h.setPc _ _) ?_
      rw [h.mem]
  | st w => exact opSt_agree h hfresh
  | pop => exact opPop_agree h
  | call => exact opCall_agree h hpc1 hpc2 hfresh
  | ldValueStack w => exact opLdValueStack_agree h hfresh

theorem Instr.run_agree {i : Instr} (h : k.Agree vm1 vm2) (hfresh : i.access.fresh k = true) :
    Outcomes (i.access.after k) (i.run target vm1) (i.run target vm2) := by
  have hop := @Op.run_agree target k _ _ i.op i.args (h.setPc 0 0) rfl rfl hfresh
  rw [Instr.run, Instr.run]
  generalize i.op.run target i.args _ = o1 at hop ⊢
  generalize i.op.run target i.args _ = o2 at hop ⊢
  cases hop with
  | none => exact .none
  | some hagree =>
    obtain ⟨k', hk', hagree⟩ := hagree
    exact .some ⟨k', hk', hagree.setPc _ _⟩

/-- Instructions that read only what they have written end with the same value at the bottom and the same memory. -/
theorem runInstrs_agree {is : List Instr} (h : k.Agree vm1 vm2) (hbottom : k.has 0 .dword = true)
    (hfresh : fresh (is.map Instr.access) k = true) :
    Option.Rel (fun vm1 vm2 => vm1.stack 0 = vm2.stack 0 ∧ vm1.mem = vm2.mem) (runInstrs target is vm1)
      (runInstrs target is vm2) := by
  induction is generalizing k vm1 vm2 with
  | nil => exact .some ⟨h.slot 0 .dword hbottom, h.mem⟩
  | cons i is ih =>
    rw [List.map_cons, fresh, Bool.and_eq_true] at hfresh
    have hstep := @Instr.run_agree target k vm1 vm2 i h hfresh.1
    rw [runInstrs, runInstrs]
    generalize i.run target vm1 = o1 at hstep
    generalize i.run target vm2 = o2 at hstep
    cases hstep with
    | none => exact .none
    | some hagree =>
      obtain ⟨k', hk', hagree⟩ := hagree
      have hrest := hfresh.2
      rw [Option.mem_def.mp hk', Option.all_some] at hrest
      exact ih hagree (Access.after_has hk' hbottom) hrest

end Runs

end RtThread.Finsh
