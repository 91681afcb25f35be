import RtThread.Finsh.Correct
import RtThread.Finsh.Instructions
import RtThread.Finsh.Widths

/-!
# FinSH: `++` and `--` of any integer variable (`finsh_compiler.c:353-693`)

The code takes the address of the variable from its record, and once more from where the record of a user
variable has its value. The theorem says which variables the two ways agree for, and which bytes of the result
are those of the variable.
-/

namespace RtThread.Finsh

variable {globalVariable : Fin finshVariableMax → Var}

/-! ### Variables -/

def NodeId.type (globalVariable : Fin finshVariableMax → Var) : NodeId → FinshType
  | .var i => (globalVariable i).type
  | .sysvar v => v.type
  | .syscall _ => .unknown

/-- The width of an integer type. -/
def FinshType.intWidth : FinshType → Option Width
  | .char | .uchar => some .byte
  | .short | .ushort => some .word
  | .int | .uint | .long | .ulong => some .dword
  | _ => none

/-- A user variable or a registered one of an integer type. -/
structure IntegerVar (globalVariable : Fin finshVariableMax → Var) where
  id : NodeId
  width : Width
  integer : (id.type globalVariable).intWidth = some width

/-- Where the value of the variable is. -/
def IntegerVar.addr (x : IntegerVar globalVariable) (layout : Layout) : Word :=
  match x.id with
  | .sysvar v => v.addr
  | id => layout.valueAddr id

/-- `(long)&(var->value)` for the variable as a user variable. -/
def IntegerVar.varAddr (x : IntegerVar globalVariable) (layout : Layout) : Word := layout.valueAddr x.id

/-- What a variable with these bytes is as a `long`. -/
def FinshType.extend (target : Target) : FinshType → Word → Word
  | .char, v => target.promote .byte v
  | .uchar, v => Width.byte.low v
  | .short, v => target.promote .word v
  | .ushort, v => Width.word.low v
  | _, v => v

def IntegerVar.extend (x : IntegerVar globalVariable) (target : Target) (v : Word) : Word :=
  (x.id.type globalVariable).extend target v

theorem IntegerVar.low_extend (x : IntegerVar globalVariable) (target : Target) (v : Word) :
    x.width.low (x.extend target v) = x.width.low v := by
  obtain ⟨id, width, integer⟩ := x
  simp only [IntegerVar.extend]
  generalize id.type globalVariable = type at integer
  cases type
  all_goals
    cases integer
  all_goals
    simp only [FinshType.extend, Width.low_promote, Width.low_low]

/-! ### The code -/

inductive Place where
  | before
  | after
  deriving DecidableEq

def Place.nodeType : Place → StepOp → NodeType
  | .before, op => op.preType
  | .after, op => op.postType

def IntegerVar.node (x : IntegerVar globalVariable) : Node := ⟨.id, 0, x.id.idtype, 0, some x.id⟩

/-- The tree of `++x` and the others. -/
def incrementTree (place : Place) (op : StepOp) (x : IntegerVar globalVariable) : Tree :=
  .node (plainNode (place.nodeType op)) (.node x.node .null .null) .null

def incrementCode (layout : Layout) (place : Place) (op : StepOp) (x : IntegerVar globalVariable) : List Byte :=
  (finshCompile globalVariable layout (finshTypeCheck globalVariable (incrementTree place op x) 0).1).code

/-- The load, the operation and the store. -/
def instrsStep (op : BinOp) (w : Width) (addr : Word) : List Instr :=
  [instrLdValue w addr, instrOne w, ⟨.binary op w, [], rfl⟩, ⟨.st w, [], rfl⟩]

def incrementInstrs (layout : Layout) (place : Place) (op : StepOp) (x : IntegerVar globalVariable) : List Instr :=
  match place with
  | .before =>
    instrLd (x.addr layout) :: instrsStep op.binOp x.width (x.varAddr layout) ++ [⟨.ldValueStack .dword, [], rfl⟩]
  | .after =>
    instrLdValue x.width (x.addr layout) :: instrLd (x.varAddr layout) ::
      instrsStep op.binOp x.width (x.varAddr layout) ++ [⟨.pop, [], rfl⟩]

theorem encode_instrsStep (op : BinOp) (w : Width) (addr : Word) :
    encode (instrsStep op w addr) = codeLdValue w addr ++ codeOne w ++ [(Op.binary op w).code, (Op.st w).code] := by
  cases w with
  | byte => rfl
  | word => rfl
  | dword => rfl

theorem FinshType.width_of_int {type : FinshType} {w : Width} (h : type.intWidth = some w) :
    type.width = some w ∧ ∃ d, type.dataType = some d ∧ dataWidth d = some w := by
  cases type
  all_goals
    cases h
  all_goals
    exact ⟨rfl, _, rfl, rfl⟩

theorem finshTypeCheck_integer (x : IntegerVar globalVariable) (isAddr : ℕ) : ∃ d, dataWidth d = some x.width ∧
    finshTypeCheck globalVariable (.node x.node .null .null) isAddr =
      (.node ⟨.id, d, x.id.idtype ||| isAddr, 0, some x.id⟩ .null .null, none) := by
  obtain ⟨id, w, hint⟩ := x
  obtain ⟨-, d, hd, hw⟩ := FinshType.width_of_int hint
  refine ⟨d, hw, ?_⟩
  cases id with
  | var i =>
    have hne : (NodeId.var i).idtype ≠ idtypeSyscall := by
      rw [NodeId.idtype]
      decide
    have htype : (globalVariable i).type.dataType = some d := hd
    simp only [IntegerVar.node, finshTypeCheck, hne, ne_eq, not_false_eq_true, if_true, leafDataType, htype,
      Option.or_none]
  | sysvar v =>
    have hne : (NodeId.sysvar v).idtype ≠ idtypeSyscall := by
      rw [NodeId.idtype]
      decide
    have htype : v.type.dataType = some d := hd
    simp only [IntegerVar.node, finshTypeCheck, hne, ne_eq, not_false_eq_true, if_true, leafDataType, htype,
      Option.or_none]
  | syscall func => cases hint

theorem compileNode_integer (layout : Layout) (x : IntegerVar globalVariable) (d isAddr : ℕ) :
    compileNode globalVariable layout ⟨.id, d, x.id.idtype ||| isAddr, 0, some x.id⟩ .null =
      emit (if (x.id.idtype ||| isAddr) &&& idtypeAddress ≠ 0 then codeLd (x.addr layout)
        else codeLdValue x.width (x.addr layout)) := by
  obtain ⟨id, w, hint⟩ := x
  obtain ⟨hw, -⟩ := FinshType.width_of_int hint
  cases id with
  | var i =>
    have htype : (globalVariable i).type.width = some w := hw
    simp only [compileNode, codeVariable, htype, IntegerVar.addr]
  | sysvar v =>
    have htype : v.type.width = some w := hw
    simp only [compileNode, codeVariable, htype, IntegerVar.addr]
  | syscall func => cases hint

theorem IntegerVar.idtype_eq (x : IntegerVar globalVariable) : x.id.idtype = idtypeVar ∨ x.id.idtype = idtypeSysvar := by
  obtain ⟨id, w, hint⟩ := x
  cases id with
  | var i => exact Or.inl rfl
  | sysvar v => exact Or.inr rfl
  | syscall func => cases hint

/-- The checked node of a variable and its code, where its address is taken and where its value is. -/
theorem variable_compiles (layout : Layout) (x : IntegerVar globalVariable) (isAddr : ℕ)
    (h : isAddr = idtypeAddress ∨ isAddr = 0) :
    ∃ n, finshTypeCheck globalVariable (.node x.node .null .null) isAddr = (.node n .null .null, none) ∧
      n.nodeType = .id ∧ n.id = some x.id ∧ dataWidth n.dataType = some x.width ∧
        finshCompile globalVariable layout (.node n .null .null) =
          emit (if isAddr = idtypeAddress then codeLd (x.addr layout) else codeLdValue x.width (x.addr layout)) := by
  obtain ⟨d, hd, hcheck⟩ := finshTypeCheck_integer x isAddr
  have hflag : (x.id.idtype ||| isAddr) &&& idtypeAddress ≠ 0 ↔ isAddr = idtypeAddress := by
    rcases x.idtype_eq with hid | hid
    all_goals
      rcases h with rfl | rfl
      all_goals
        rw [hid]
        decide
  refine ⟨_, hcheck, rfl, rfl, hd, ?_⟩
  rw [finshCompile, finshCompile, compileNode_integer, append_emit_nil]
  simp only [hflag]
  rfl

theorem incrementCode_eq (layout : Layout) (place : Place) (op : StepOp) (x : IntegerVar globalVariable) :
    incrementCode layout place op x = encode (incrementInstrs layout place op x) := by
  have hsibling : finshTypeCheck globalVariable .null 0 = (.null, none) := rfl
  have hnull : finshCompile globalVariable layout .null = emit [] := rfl
  have hcode : ∀ (type : NodeType) (code : BinOp → Width → Word → List Byte) (n : Node),
      n.nodeType = .id → n.id = some x.id → dataWidth n.dataType = some x.width →
      codeIncrement layout code op.binOp { plainNode type with dataType := n.dataType } (.node n .null .null) =
        emit (code op.binOp x.width (x.varAddr layout)) := by
    intro type code n htype hid hd
    simp only [codeIncrement, htype, hid, hd, if_true]
    rfl
  cases place with
  | before =>
    obtain ⟨n, hcheck, htype, hid, hd, hchild⟩ := variable_compiles layout x idtypeAddress (Or.inl rfl)
    have haddr : childAddr op.preType 0 = idtypeAddress := by cases op <;> rfl
    have hnode := finshTypeCheck_node op.preType (haddr ▸ hcheck) rfl hsibling
    have hcompile : compileNode globalVariable layout { plainNode op.preType with dataType := n.dataType }
        (.node n .null .null) = emit (codePre op.binOp x.width (x.varAddr layout)) := by
      rw [← hcode op.preType codePre n htype hid hd]
      cases op <;> rfl
    rw [incrementCode, incrementTree, Place.nodeType, hnode, finshCompile, hchild, hcompile, hnull, if_pos rfl,
      append_emit_nil]
    change codeLd (x.addr layout) ++ codePre op.binOp x.width (x.varAddr layout) = _
    rw [incrementInstrs, encode_append, encode_cons, encode_instrsStep, codePre]
    simp only [List.append_assoc]
    rfl
  | after =>
    obtain ⟨n, hcheck, htype, hid, hd, hchild⟩ := variable_compiles layout x 0 (Or.inr rfl)
    have haddr : childAddr op.postType 0 = 0 := by cases op <;> rfl
    have hnode := finshTypeCheck_node op.postType (haddr.symm ▸ hcheck) rfl hsibling
    have hcompile : compileNode globalVariable layout { plainNode op.postType with dataType := n.dataType }
        (.node n .null .null) = emit (codePost op.binOp x.width (x.varAddr layout)) := by
      rw [← hcode op.postType codePost n htype hid hd]
      cases op <;> rfl
    have hne : ¬ 0 = idtypeAddress := by decide
    rw [incrementCode, incrementTree, Place.nodeType, hnode, finshCompile, hchild, hcompile, hnull, if_neg hne,
      append_emit_nil]
    change codeLdValue x.width (x.addr layout) ++ codePost op.binOp x.width (x.varAddr layout) = _
    rw [incrementInstrs, encode_append, encode_cons, encode_cons, encode_instrsStep, codePost]
    simp only [List.append_assoc]
    rfl

/-! ### The run -/

section Runs

variable (target : Target) {pc sp : ℕ} {stack : ℕ → Word} {mem : Memory}

theorem instrLd_run (h : sp < finshStackMax) (v : Word) : (instrLd v).run target ⟨pc, sp, stack, mem⟩ =
    some ⟨pc + 5, sp + 1, Function.update stack sp v, mem⟩ := by
  have hfetch : fetchDword (bytesOf v) 0 = some v := congrArg some (ofBytes_bytesOf v)
  simp only [Instr.run, instrLd, Op.run, opLd, hfetch, Option.bind_some, Vm.push, if_pos h]
  rfl

theorem instrLdValue_run (h : sp < finshStackMax) (w : Width) (a : Word) :
    (instrLdValue w a).run target ⟨pc, sp, stack, mem⟩ =
      some ⟨pc + 5, sp + 1, Function.update stack sp (w.write (stack sp) (load mem w a)), mem⟩ := by
  have hfetch : fetchDword (bytesOf a) 0 = some a := congrArg some (ofBytes_bytesOf a)
  simp only [Instr.run, instrLdValue, Op.run, opLdValue, hfetch, Option.bind_some, Vm.push, if_pos h]
  rfl

theorem instrOne_run (h : sp < finshStackMax) (w : Width) : (instrOne w).run target ⟨pc, sp, stack, mem⟩ =
    some ⟨pc + 1 + w.bytes, sp + 1, Function.update stack sp (w.write (stack sp) 1), mem⟩ := by
  cases w with
  | byte =>
    simp only [Instr.run, instrOne, Op.run, opLd, List.getElem?_cons_zero, Option.bind_some, Vm.push, if_pos h]
    rfl
  | word =>
    have hfetch : fetchWord [1, 0] 0 = some 1 := rfl
    simp only [Instr.run, instrOne, Op.run, opLd, hfetch, Option.bind_some, Vm.push, if_pos h]
    rfl
  | dword => exact instrLd_run target h 1

theorem instrBinary_run {op : BinOp} {w : Width} {v : Word}
    (h : op.eval (target.promote w (stack sp)) (target.promote w (stack (sp + 1))) = some v) :
    (⟨.binary op w, [], rfl⟩ : Instr).run target ⟨pc, sp + 2, stack, mem⟩ =
      some ⟨pc + 1, sp + 1, Function.update stack sp (w.write (stack sp) v), mem⟩ := by
  have hsp : ¬ sp + 2 < 2 := by omega
  simp only [Instr.run, Op.run, opBinary, if_neg hsp, Nat.add_sub_cancel, show sp + 2 - 1 = sp + 1 from rfl, h,
    Option.map_some]
  rfl

theorem instrSt_run (w : Width) : (⟨.st w, [], rfl⟩ : Instr).run target ⟨pc, sp + 2, stack, mem⟩ =
    some ⟨pc + 1, sp + 1, stack, store mem w (stack sp) (stack (sp + 1))⟩ := by
  have hsp : ¬ sp + 2 < 2 := by omega
  simp only [Instr.run, Op.run, opSt, if_neg hsp, Nat.add_sub_cancel, show sp + 2 - 1 = sp + 1 from rfl]
  rfl

theorem instrPop_run : (⟨.pop, [], rfl⟩ : Instr).run target ⟨pc, sp + 1, stack, mem⟩ = some ⟨pc + 1, sp, stack, mem⟩ := by
  have hsp : ¬ sp + 1 < 1 := by omega
  simp only [Instr.run, Op.run, opPop, if_neg hsp]
  rfl

theorem instrLdValueStack_run (w : Width) :
    (⟨.ldValueStack w, [], rfl⟩ : Instr).run target ⟨pc, sp + 1, stack, mem⟩ =
      some ⟨pc + 1, sp + 1, Function.update stack sp (w.write (stack sp) (load mem w (stack sp))), mem⟩ := by
  have hsp : ¬ sp + 1 < 1 := by omega
  simp only [Instr.run, Op.run, opLdValueStack, if_neg hsp, Nat.add_sub_cancel]
  rfl

theorem low_step (op : StepOp) {w : Width} {u u' v r : Word} (h : op.binOp.eval u v = some r)
    (hu : w.low u = w.low u') (hv : w.low v = w.low 1) : w.low r = w.low (op.eval u') := by
  cases op with
  | inc =>
    cases h
    exact Width.low_add_congr hu hv
  | dec =>
    cases h
    exact Width.low_sub_congr hu hv

theorem exists_step (op : StepOp) (u v : Word) : ∃ r, op.binOp.eval u v = some r := by
  cases op with
  | inc => exact ⟨_, rfl⟩
  | dec => exact ⟨_, rfl⟩

theorem instrsStep_run (pc : ℕ) (stack : ℕ → Word) (mem : Memory) (op : StepOp) (w : Width) (addr : Word)
    (h : sp + 3 ≤ finshStackMax) :
    ∃ vm, runInstrs target (instrsStep op.binOp w addr) ⟨pc, sp + 1, stack, mem⟩ = some vm ∧ vm.sp = sp + 1 ∧
      vm.mem = store mem w (stack sp) (op.eval (load mem w addr)) ∧ ∀ i ≤ sp, vm.stack i = stack i := by
  have h1 : sp + 1 < finshStackMax := by omega
  have h2 : sp + 1 + 1 < finshStackMax := by omega
  rw [instrsStep, runInstrs, instrLdValue_run target h1, Option.bind_some, runInstrs, instrOne_run target h2,
    Option.bind_some, runInstrs]
  generalize hstack' : Function.update (Function.update stack (sp + 1) (w.write (stack (sp + 1)) (load mem w addr)))
    (sp + 1 + 1) _ = stack'
  have hleft : w.low (stack' (sp + 1)) = w.low (load mem w addr) := by
    rw [← hstack', Function.update_of_ne (by omega), Function.update_self, Width.low_write]
  have hright : w.low (stack' (sp + 1 + 1)) = w.low 1 := by
    rw [← hstack', Function.update_self, Width.low_write]
  have hbelow : ∀ i ≤ sp, stack' i = stack i := by
    intro i hi
    rw [← hstack', Function.update_of_ne (by omega), Function.update_of_ne (by omega)]
  obtain ⟨r, hr⟩ := exists_step op (target.promote w (stack' (sp + 1))) (target.promote w (stack' (sp + 1 + 1)))
  have hlow : w.low r = w.low (op.eval (load mem w addr)) :=
    low_step op hr ((w.low_promote target _).trans hleft) ((w.low_promote target _).trans hright)
  rw [instrBinary_run target hr, Option.bind_some, runInstrs, instrSt_run target w, Option.bind_some, runInstrs]
  have hother : ∀ i ≤ sp, Function.update stack' (sp + 1) (w.write (stack' (sp + 1)) r) i = stack i := by
    intro i hi
    rw [Function.update_of_ne (by omega), hbelow i hi]
  refine ⟨_, rfl, rfl, ?_, hother⟩
  simp only [hother sp le_rfl, Function.update_self]
  exact store_congr mem _ ((Width.low_write _ _ _).trans hlow)

/-- What the code of `++x` and the others leaves, for the address `a` of the variable and the address `b` that the
record of a user variable would give. -/
theorem runs_before (op : StepOp) (w : Width) (a b : Word) (h : sp + 3 ≤ finshStackMax) :
    ∃ vm, runInstrs target (instrLd a :: instrsStep op.binOp w b ++ [⟨.ldValueStack .dword, [], rfl⟩])
        ⟨pc, sp, stack, mem⟩ = some vm ∧ vm.sp = sp + 1 ∧
      vm.mem = store mem w a (op.eval (load mem w b)) ∧ vm.stack sp = load vm.mem .dword a ∧
        ∀ i < sp, vm.stack i = stack i := by
  obtain ⟨⟨pc1, sp1, stack1, mem1⟩, hrun, hsp, hmem, hstack⟩ :=
    instrsStep_run target (pc + 5) (Function.update stack sp a) mem op w b h
  simp only at hsp hmem hstack
  rw [Function.update_self] at hmem
  have ha : stack1 sp = a := by rw [hstack sp le_rfl, Function.update_self]
  subst hsp
  rw [List.cons_append, runInstrs, instrLd_run target (by omega), Option.bind_some, runInstrs_append, hrun,
    Option.bind_some, runInstrs, instrLdValueStack_run target, Option.bind_some, runInstrs]
  refine ⟨_, rfl, rfl, hmem, ?_, fun i hi => ?_⟩
  · simp only [Function.update_self, ha]
    rfl
  · simp only [Function.update_of_ne hi.ne]
    rw [hstack i hi.le, Function.update_of_ne hi.ne]

theorem runs_after (op : StepOp) (w : Width) (a b : Word) (h : sp + 4 ≤ finshStackMax) :
    ∃ vm, runInstrs target (instrLdValue w a :: instrLd b :: instrsStep op.binOp w b ++ [⟨.pop, [], rfl⟩])
        ⟨pc, sp, stack, mem⟩ = some vm ∧ vm.sp = sp + 1 ∧
      vm.mem = store mem w b (op.eval (load mem w b)) ∧ vm.stack sp = w.write (stack sp) (load mem w a) ∧
        ∀ i < sp, vm.stack i = stack i := by
  have hsp1 : sp + 1 < finshStackMax := by omega
  obtain ⟨⟨pc1, sp1, stack1, mem1⟩, hrun, hsp, hmem, hstack⟩ := instrsStep_run target (pc + 5 + 5)
    (Function.update (Function.update stack sp (w.write (stack sp) (load mem w a))) (sp + 1) b) mem op w b
    (show sp + 1 + 3 ≤ finshStackMax by omega)
  simp only at hsp hmem hstack
  rw [Function.update_self] at hmem
  subst hsp
  rw [List.cons_append, List.cons_append, runInstrs, instrLdValue_run target (by omega), Option.bind_some, runInstrs,
    instrLd_run target hsp1, Option.bind_some, runInstrs_append, hrun, Option.bind_some, runInstrs, instrPop_run,
    Option.bind_some, runInstrs]
  refine ⟨_, rfl, rfl, hmem, ?_, fun i hi => ?_⟩
  · simp only
    rw [hstack sp (by omega), Function.update_of_ne (by omega), Function.update_self]
  · simp only
    rw [hstack i (by omega), Function.update_of_ne (by omega), Function.update_of_ne hi.ne]

end Runs

/-! ### What it should do -/

/-- The value of the variable. -/
def IntegerVar.value (x : IntegerVar globalVariable) (target : Target) (layout : Layout) (mem : Memory) : Word :=
  x.extend target (load mem x.width (x.addr layout))

/-- The memory with the bytes of the variable one up or one down. -/
def IntegerVar.stepped (x : IntegerVar globalVariable) (layout : Layout) (op : StepOp) (mem : Memory) : Memory :=
  store mem x.width (x.addr layout) (op.eval (load mem x.width (x.addr layout)))

/-- The memory in which the variable has the value of the expression. -/
def IntegerVar.yields (x : IntegerVar globalVariable) (layout : Layout) (op : StepOp) (mem : Memory) : Place → Memory
  | .before => x.stepped layout op mem
  | .after => mem

/-- `++x` and the others done right, for a result that is read through the member of the width `r`. -/
structure IntegerVar.Increments (x : IntegerVar globalVariable) (target : Target) (layout : Layout) (place : Place)
    (op : StepOp) (r : Width) (vm vm' : Vm) : Prop where
  sp : vm'.sp = vm.sp + 1
  below : ∀ i < vm.sp, vm'.stack i = vm.stack i
  mem : vm'.mem = x.stepped layout op vm.mem
  result : r.low (vm'.stack vm.sp) = r.low (x.value target layout (x.yields layout op vm.mem place))

/-- The code steps the variable: it reads a value as large, or writes to the same address. -/
def IntegerVar.Placed (x : IntegerVar globalVariable) (layout : Layout) (mem : Memory) : Place → Prop
  | .before => load mem x.width (x.varAddr layout) = load mem x.width (x.addr layout)
  | .after => x.varAddr layout = x.addr layout

/-- Where the result has its bytes above those of the variable: behind the variable, or what was in the slot. -/
def IntegerVar.above (x : IntegerVar globalVariable) (layout : Layout) (old : Word) (mem : Memory) : Place → Word
  | .before => load mem .dword (x.addr layout)
  | .after => old

/-- When it is done right. -/
def IntegerVar.IncrementsWhen (x : IntegerVar globalVariable) (target : Target) (layout : Layout) (place : Place)
    (op : StepOp) (r : Width) (vm : Vm) : Prop :=
  x.Placed layout vm.mem place ∧
    r.low (x.width.rest (x.above layout (vm.stack vm.sp) vm.mem place)) =
      r.low (x.width.rest (x.value target layout (x.yields layout op vm.mem place)))

/-! ### What it does -/

/-- The memory that the code leaves. -/
def IntegerVar.written (x : IntegerVar globalVariable) (layout : Layout) (op : StepOp) (mem : Memory) : Place → Memory
  | .before => store mem x.width (x.addr layout) (op.eval (load mem x.width (x.varAddr layout)))
  | .after => store mem x.width (x.varAddr layout) (op.eval (load mem x.width (x.varAddr layout)))

/-- What the code leaves in the slot. -/
def IntegerVar.pushed (x : IntegerVar globalVariable) (layout : Layout) (op : StepOp) (old : Word) (mem : Memory) :
    Place → Word
  | .before => load (x.written layout op mem .before) .dword (x.addr layout)
  | .after => x.width.write old (load mem x.width (x.addr layout))

section Statement

variable {target : Target} {text : List Byte} {layout : Layout}

theorem increment_run (htext : text.length = finshTextMax) (x : IntegerVar globalVariable) (place : Place) (op : StepOp)
    {vm : Vm} (hcode : CodeAt text vm.pc (incrementCode layout place op x)) (hsp : vm.sp + 4 ≤ finshStackMax) :
    ∃ vm', Reaches target text vm vm' ∧ vm'.pc = vm.pc + (incrementCode layout place op x).length ∧
      vm'.sp = vm.sp + 1 ∧ (∀ i < vm.sp, vm'.stack i = vm.stack i) ∧ vm'.mem = x.written layout op vm.mem place ∧
        vm'.stack vm.sp = x.pushed layout op (vm.stack vm.sp) vm.mem place := by
  rw [incrementCode_eq] at hcode
  rw [incrementCode_eq]
  obtain ⟨pc, sp, stack, mem⟩ := vm
  cases place with
  | before =>
    obtain ⟨vm', hrun, hsp', hmem, hslot, hbelow⟩ := @runs_before target pc sp stack mem op x.width (x.addr layout)
      (x.varAddr layout) (Nat.le_of_succ_le hsp)
    obtain ⟨hreach, hpc⟩ := runInstrs_reaches htext hcode hrun
    rw [hmem] at hslot
    exact ⟨vm', hreach, hpc, hsp', hbelow, hmem, hslot⟩
  | after =>
    obtain ⟨vm', hrun, hsp', hmem, hslot, hbelow⟩ := @runs_after target pc sp stack mem op x.width (x.addr layout)
      (x.varAddr layout) hsp
    obtain ⟨hreach, hpc⟩ := runInstrs_reaches htext hcode hrun
    exact ⟨vm', hreach, hpc, hsp', hbelow, hmem, hslot⟩

end Statement

theorem step_lowest (op : StepOp) (mem : Memory) (w : Width) (a : Word) :
    (op.eval (load mem w a)).extractLsb' 0 8 ≠ mem a := by
  intro h
  have hload := load_toNat mem w a
  have hbyte := congrArg BitVec.toNat h
  rw [BitVec.extractLsb'_toNat, Nat.shiftRight_zero] at hbyte
  cases op with
  | inc =>
    rw [StepOp.eval, BitVec.toNat_add] at hbyte
    have hone : (1 : Word).toNat = 1 := rfl
    omega
  | dec =>
    rw [StepOp.eval, BitVec.toNat_sub] at hbyte
    have hone : (1 : Word).toNat = 1 := rfl
    omega

theorem step_cancel (op : StepOp) {w : Width} {u v : Word} (h : w.low (op.eval u) = w.low (op.eval v)) :
    w.low u = w.low v := by
  cases op with
  | inc =>
    have hback := @Width.low_sub_congr w _ _ 1 1 h rfl
    rwa [StepOp.eval, StepOp.eval, BitVec.add_sub_cancel, BitVec.add_sub_cancel] at hback
  | dec =>
    have hback := @Width.low_add_congr w _ _ 1 1 h rfl
    rwa [StepOp.eval, StepOp.eval, BitVec.sub_add_cancel, BitVec.sub_add_cancel] at hback

theorem store_step_iff (op : StepOp) (mem : Memory) (w : Width) (a b : Word) :
    store mem w a (op.eval (load mem w b)) = store mem w a (op.eval (load mem w a)) ↔ load mem w b = load mem w a := by
  constructor
  · intro h
    have hload := congrArg (load · w a) h
    simp only [load_store_low] at hload
    have hlow := step_cancel op hload
    rwa [load_eq_low, load_eq_low mem w a, Width.low_low, Width.low_low, ← load_eq_low, ← load_eq_low] at hlow
  · intro h
    rw [h]

theorem step_place_iff (op : StepOp) (mem : Memory) (w : Width) (a b : Word) :
    store mem w b (op.eval (load mem w b)) = store mem w a (op.eval (load mem w a)) ↔ b = a := by
  constructor
  · intro h
    have hnear : ∀ {a b : Word}, store mem w b (op.eval (load mem w b)) = store mem w a (op.eval (load mem w a)) →
        ∃ p : Word, p < 4 ∧ a = b + p := by
      intro a b h
      by_contra hfar
      have hoff : ∀ p : Word, p < 4 → a ≠ b + p := fun p hp heq => hfar ⟨p, hp, heq⟩
      have hbyte := congrFun h a
      rw [store_off mem w _ hoff, store_at] at hbyte
      exact step_lowest op mem w a hbyte.symm
    obtain ⟨p, hp, ha⟩ := hnear h
    obtain ⟨q, hq, hb⟩ := hnear h.symm
    bv_omega
  · intro h
    rw [h]

theorem IntegerVar.low_value (x : IntegerVar globalVariable) (target : Target) (layout : Layout) (mem : Memory) :
    x.width.low (x.value target layout mem) = load mem x.width (x.addr layout) := by
  rw [IntegerVar.value, x.low_extend, load_eq_low, Width.low_low]

theorem IntegerVar.written_iff (x : IntegerVar globalVariable) (layout : Layout) (op : StepOp) (mem : Memory)
    (place : Place) : x.written layout op mem place = x.stepped layout op mem ↔ x.Placed layout mem place := by
  cases place with
  | before => exact store_step_iff op mem x.width (x.addr layout) (x.varAddr layout)
  | after => exact step_place_iff op mem x.width (x.addr layout) (x.varAddr layout)

/-- Where the memory is right, the result is told from the right one by the bytes above the variable. -/
theorem IntegerVar.pushed_iff (x : IntegerVar globalVariable) (target : Target) (layout : Layout) (op : StepOp)
    (r : Width) (old : Word) (mem : Memory) (place : Place)
    (h : x.written layout op mem place = x.stepped layout op mem) :
    r.low (x.pushed layout op old mem place) = r.low (x.value target layout (x.yields layout op mem place)) ↔
      r.low (x.width.rest (x.above layout old mem place)) =
        r.low (x.width.rest (x.value target layout (x.yields layout op mem place))) := by
  cases place with
  | before =>
    have hlow : x.width.low (x.pushed layout op old mem .before) =
        x.width.low (x.value target layout (x.stepped layout op mem)) := by
      rw [x.low_value, IntegerVar.pushed, h, ← load_eq_low]
    have hrest : x.width.rest (x.pushed layout op old mem .before) =
        x.width.rest (load mem .dword (x.addr layout)) := by
      rw [IntegerVar.pushed, h, IntegerVar.stepped, load_store, Width.rest_write]
    rw [IntegerVar.yields, Width.low_eq_iff_rest hlow, hrest, IntegerVar.above]
  | after =>
    have hlow : x.width.low (x.pushed layout op old mem .after) = x.width.low (x.value target layout mem) := by
      rw [x.low_value, IntegerVar.pushed, Width.low_write, load_eq_low, Width.low_low]
    rw [IntegerVar.yields, Width.low_eq_iff_rest hlow, IntegerVar.pushed, Width.rest_write, IntegerVar.above]

/-- `++x`, `--x`, `x++` and `x--` are right exactly for these variables, values and slots. -/
theorem increment_iff {target : Target} {text : List Byte} {layout : Layout} (htext : text.length = finshTextMax)
    (x : IntegerVar globalVariable) (place : Place) (op : StepOp) (r : Width) {vm : Vm}
    (hcode : CodeAt text vm.pc (incrementCode layout place op x)) (hsp : vm.sp + 4 ≤ finshStackMax) :
    (∃ vm', Reaches target text vm vm' ∧ vm'.pc = vm.pc + (incrementCode layout place op x).length ∧
      x.Increments target layout place op r vm vm') ↔ x.IncrementsWhen target layout place op r vm := by
  obtain ⟨vm1, hreach, hpc, hsp1, hbelow, hmem, hslot⟩ := @increment_run globalVariable target text layout htext x place op vm hcode hsp
  have hwhen : x.IncrementsWhen target layout place op r vm ↔
      x.written layout op vm.mem place = x.stepped layout op vm.mem ∧
        r.low (x.pushed layout op (vm.stack vm.sp) vm.mem place) =
          r.low (x.value target layout (x.yields layout op vm.mem place)) := by
    rw [and_congr_right (x.pushed_iff target layout op r (vm.stack vm.sp) vm.mem place), x.written_iff]
    rfl
  rw [hwhen]
  constructor
  · intro ⟨vm', hreach', hpc', hright⟩
    obtain rfl := hreach'.unique hreach (hpc'.trans hpc.symm)
    refine ⟨hmem.symm.trans hright.mem, ?_⟩
    rw [← hslot]
    exact hright.result
  · intro ⟨hwritten, hpushed⟩
    exact ⟨vm1, hreach, hpc, hsp1, hbelow, hmem.trans hwritten, by rw [hslot]; exact hpushed⟩

/-! ### One variable of each kind -/

/-- The text segment of a line that is this code. -/
def lineText (code : List Byte) : List Byte := code ++ List.replicate (finshTextMax - code.length) 0

theorem lineText_length {code : List Byte} (h : code.length ≤ finshTextMax) :
    (lineText code).length = finshTextMax := by
  rw [lineText, List.length_append, List.length_replicate, Nat.add_sub_cancel' h]

def startOf (mem : Memory) : Vm := ⟨0, 0, fun _ => 0, mem⟩

section

local instance someVariable : NeZero finshVariableMax := ⟨by decide⟩

def integerA : IntegerVar oneVariable := ⟨.var 0, .dword, rfl⟩

end

/-- `++a` for an `int a` of the user. -/
theorem increment_iff_integerA : ∃ vm',
    Reaches noCalls (lineText (incrementCode rowLayout .before .inc integerA)) (startOf fun _ => 0) vm' ∧
      vm'.pc = 0 + (incrementCode rowLayout .before .inc integerA).length ∧
      integerA.Increments noCalls rowLayout .before .inc .dword (startOf fun _ => 0) vm' :=
  (increment_iff (lineText_length (by decide)) integerA .before .inc .dword ⟨_, rfl⟩ (by decide)).mpr ⟨rfl, rfl⟩

/-- Where the record of a registered variable has what would be the value of a user variable. -/
def recordAddr : NodeId → Word
  | .sysvar _ => 0x800
  | id => rowAddr id

def recordLayout : Layout := ⟨recordAddr, rowAddr_separate⟩

/-- An `int` at 0x2000 that is registered with `FINSH_VAR_EXPORT`. -/
def registered : IntegerVar oneVariable := ⟨.sysvar ⟨.int, 0x2000⟩, .dword, rfl⟩

/-- `x++` for the registered variable leaves it as it is. -/
theorem registered_not_incremented :
    (∃ vm', Reaches noCalls (lineText (incrementCode recordLayout .after .inc registered)) (startOf fun _ => 0) vm' ∧
      vm'.pc = 0 + (incrementCode recordLayout .after .inc registered).length ∧ vm'.mem 0x2000 = 0) ∧
    ¬ ∃ vm', Reaches noCalls (lineText (incrementCode recordLayout .after .inc registered)) (startOf fun _ => 0) vm' ∧
      vm'.pc = 0 + (incrementCode recordLayout .after .inc registered).length ∧
      registered.Increments noCalls recordLayout .after .inc .dword (startOf fun _ => 0) vm' := by
  have htext := lineText_length (show (incrementCode recordLayout .after .inc registered).length ≤ finshTextMax by decide)
  obtain ⟨vm, hreach, hpc, -, -, hmem, -⟩ := @increment_run oneVariable noCalls _ recordLayout htext registered .after
    .inc (startOf fun _ => 0) ⟨_, rfl⟩ (by decide)
  refine ⟨⟨vm, hreach, hpc, by rw [hmem]; decide⟩, fun ⟨vm', hreach', hpc', hright⟩ => ?_⟩
  obtain rfl := hreach'.unique hreach (hpc'.trans hpc.symm)
  have hbytes := congrFun (hmem.symm.trans hright.mem) 0x2000
  exact absurd hbytes (by decide)

end RtThread.Finsh
