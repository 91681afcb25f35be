import RtThread.Finsh.Correct
import RtThread.Finsh.StaleStack

/-!
# FinSH: lines and the stack of the lines before them (`finsh_compiler.c:740-918`, `shell.c:360-402`)

`finsh_compiler_run` clears the slot at the bottom of the stack and leaves the others as they are.
-/

namespace RtThread.Finsh

variable (globalVariable : Fin finshVariableMax → Var)

/-! ### What the operators of a line do to the stack -/

/-- The data type of a node, which is that of its first child. -/
def Tree.dataType : Tree → ℕ
  | .null => 0
  | .node n .null _ => (leafDataType globalVariable n).1
  | .node _ (.node c cc cs) _ => Tree.dataType (.node c cc cs)

/-- The node asks for the address of a variable. -/
def Node.wantsAddress (n : Node) (isAddr : ℕ) : Bool :=
  (if n.idtype ≠ idtypeSyscall then n.idtype ||| isAddr else n.idtype) &&& idtypeAddress ≠ 0

def variableAccesses (n : Node) (isAddr : ℕ) (type : FinshType) : List Access :=
  match type.width with
  | none => []
  | some w => [.push (if n.wantsAddress isAddr then .dword else w)]

def preAccesses (w : Width) : List Access := [.push w, .push w, .combine w, .store w, .reload .dword]

def postAccesses (w : Width) : List Access := [.push .dword, .push w, .push w, .combine w, .store w, .drop]

def incrementAccesses (accesses : Width → List Access) (d : ℕ) : Tree → List Access
  | .null => []
  | .node c _ _ =>
    if c.nodeType = .id then
      match dataWidth d, c.id with
      | some w, some _ => accesses w
      | _, _ => []
    else []

def assignAccesses (d : ℕ) : List Access :=
  match dataWidth d with
  | some w => [.store w, .reload w]
  | none => []

/-- What a node does after its operands, when its data type is `d` and that of its first child is `e`. -/
def nodeAccesses (n : Node) (isAddr d e : ℕ) (child : Tree) : List Access :=
  match n.nodeType with
  | .id =>
    match n.id with
    | some (.syscall _) => [.push .dword]
    | some (.sysvar v) => variableAccesses n isAddr v.type
    | some (.var i) => variableAccesses n isAddr (globalVariable i).type
    | none => []
  | .valueChar => [.push .byte]
  | .valueInt | .valueLong | .valueNull | .valueString => [.push .dword]
  | .sysBitwise =>
    match dataWidth d with
    | some w => [.complement w]
    | none => []
  | .sysFunc =>
    match child with
    | .null => []
    | .node _ _ sibling => [.call (BitVec.ofNat 8 sibling.siblings).toNat]
  | .sysAssign =>
    match child with
    | .null => []
    | .node c _ _ =>
      if c.nodeType = .id then assignAccesses e
      else if c.nodeType = .sysGetvalue then assignAccesses (e &&& 0x0F)
      else []
  | .sysPreinc | .sysPredec => incrementAccesses preAccesses d child
  | .sysInc | .sysDec => incrementAccesses postAccesses d child
  | .sysGetvalue =>
    if n.wantsAddress isAddr then []
    else
      match dataWidth d with
      | some w => [.reload w]
      | none => []
  | .sysGetaddr => []
  | type =>
    match type.binOp, dataWidth d with
    | some _, some w => [.combine w]
    | _, _ => []

def Tree.accesses : Tree → ℕ → List Access
  | .null, _ => []
  | .node n child sibling, isAddr =>
    Tree.accesses child (childAddr n.nodeType isAddr) ++
      nodeAccesses globalVariable n isAddr (Tree.dataType globalVariable (.node n child sibling))
        (Tree.dataType globalVariable child) child ++
      Tree.accesses sibling 0

/-- The statements of a line, with the value of each but the last dropped. -/
def Tree.lineAccesses : Tree → List Access
  | .null => []
  | .node n child sibling =>
    Tree.accesses globalVariable (.node n child .null) 0 ++
      (match sibling with
      | .null => []
      | .node .. => [.drop]) ++
      Tree.lineAccesses sibling

variable {globalVariable}

/-! ### The checked tree -/

theorem Tree.dataType_sibling (n : Node) (child sibling sibling' : Tree) :
    Tree.dataType globalVariable (.node n child sibling) = Tree.dataType globalVariable (.node n child sibling') := by
  cases child with
  | null => rfl
  | node c cc cs => rfl

/-- The checked node. -/
def Node.checked (n : Node) (isAddr d : ℕ) : Node :=
  { n with idtype := if n.idtype ≠ idtypeSyscall then n.idtype ||| isAddr else n.idtype, dataType := d }

theorem finshTypeCheck_fst (n : Node) (child sibling : Tree) (isAddr : ℕ) :
    (finshTypeCheck globalVariable (.node n child sibling) isAddr).1 =
      .node (n.checked isAddr (Tree.dataType globalVariable (.node n child sibling)))
        (finshTypeCheck globalVariable child (childAddr n.nodeType isAddr)).1
        (finshTypeCheck globalVariable sibling 0).1 := by
  induction child generalizing n sibling isAddr with
  | null =>
    simp only [finshTypeCheck, Tree.dataType, Node.checked]
    split
    · rfl
    · rfl
  | node c cc cs ihc ihs =>
    have hchild := ihc c cs (childAddr n.nodeType isAddr)
    rw [finshTypeCheck]
    simp only [hchild, Tree.dataType, Node.checked]
    split
    · rfl
    · rfl

theorem finshTypeCheck_siblings (t : Tree) (isAddr : ℕ) :
    (finshTypeCheck globalVariable t isAddr).1.siblings = t.siblings := by
  induction t generalizing isAddr with
  | null => rfl
  | node n child sibling _ ih => rw [finshTypeCheck_fst, Tree.siblings, Tree.siblings, ih]

/-! ### The code -/

/-- The code is instructions with these accesses. -/
def Encodes (code : List Byte) (as : List Access) : Prop := ∃ is, code = encode is ∧ is.map Instr.access = as

theorem Encodes.nil : Encodes [] [] := ⟨[], rfl, rfl⟩

theorem Encodes.append {a b : List Byte} {as bs : List Access} (ha : Encodes a as) (hb : Encodes b bs) :
    Encodes (a ++ b) (as ++ bs) := by
  obtain ⟨is, rfl, rfl⟩ := ha
  obtain ⟨js, rfl, rfl⟩ := hb
  exact ⟨is ++ js, (encode_append is js).symm, List.map_append⟩

theorem encodes_instr (i : Instr) : Encodes i.encode [i.access] := ⟨[i], (List.append_nil _).symm, rfl⟩

theorem encodes_ld (v : Word) : Encodes (codeLd v) [.push .dword] := encodes_instr (instrLd v)

theorem encodes_ldValue (w : Width) (addr : Word) : Encodes (codeLdValue w addr) [.push w] :=
  encodes_instr (instrLdValue w addr)

theorem encodes_one (w : Width) : Encodes (codeOne w) [.push w] := by
  cases w with
  | byte => exact encodes_instr (instrOne .byte)
  | word => exact encodes_instr (instrOne .word)
  | dword => exact encodes_ld 1

theorem encodes_op (op : Op) (h : ([] : List Byte).length = op.arity) : Encodes [op.code] [op.access []] :=
  encodes_instr ⟨op, [], h⟩

theorem encodes_variable (n : Node) (isAddr d : ℕ) (type : FinshType) (addr : Word) :
    Encodes (codeVariable (n.checked isAddr d) type addr) (variableAccesses n isAddr type) := by
  rw [codeVariable, variableAccesses]
  cases type.width with
  | none => exact .nil
  | some w =>
    by_cases h : (n.checked isAddr d).idtype &&& idtypeAddress ≠ 0
    · have hwants : n.wantsAddress isAddr = true := decide_eq_true h
      simp only [if_pos h, if_pos hwants]
      exact encodes_ld addr
    · have hwants : ¬ n.wantsAddress isAddr = true := fun hw => h (of_decide_eq_true hw)
      simp only [if_neg h, if_neg hwants]
      exact encodes_ldValue w addr

theorem encodes_pre (op : BinOp) (w : Width) (addr : Word) : Encodes (codePre op w addr) (preAccesses w) :=
  ((encodes_ldValue w addr).append (encodes_one w)).append
    (((encodes_op (.binary op w) rfl).append (encodes_op (.st w) rfl)).append (encodes_op (.ldValueStack .dword) rfl))

theorem encodes_post (op : BinOp) (w : Width) (addr : Word) : Encodes (codePost op w addr) (postAccesses w) :=
  (((encodes_ld addr).append (encodes_ldValue w addr)).append (encodes_one w)).append
    (((encodes_op (.binary op w) rfl).append (encodes_op (.st w) rfl)).append (encodes_op .pop rfl))

theorem encodes_assign (d : ℕ) : Encodes (codeAssign d).code (assignAccesses d) := by
  rw [codeAssign, assignAccesses]
  cases dataWidth d with
  | none => exact .nil
  | some w => exact (encodes_op (.st w) rfl).append (encodes_op (.ldValueStack w) rfl)

theorem encodes_assignTo (type : NodeType) (d : ℕ) :
    Encodes (if type = .id then codeAssign d else if type = .sysGetvalue then codeAssign (d &&& 0x0F) else emit []).code
      (if type = .id then assignAccesses d else if type = .sysGetvalue then assignAccesses (d &&& 0x0F) else []) := by
  split
  · exact encodes_assign d
  · split
    · exact encodes_assign _
    · exact .nil

theorem encodes_getvalue {b : Bool} {p : Prop} [Decidable p] (h : b = true ↔ p) (d : ℕ) :
    Encodes (if p then emit [] else
        match dataWidth d with
        | some w => emit [(Op.ldValueStack w).code]
        | none => emit []).code
      (if b then [] else
        match dataWidth d with
        | some w => [.reload w]
        | none => []) := by
  by_cases hp : p
  · rw [if_pos hp, if_pos (h.mpr hp)]
    exact .nil
  · rw [if_neg hp, if_neg (fun hb => hp (h.mp hb))]
    cases dataWidth d with
    | none => exact .nil
    | some w => exact encodes_op (.ldValueStack w) rfl

theorem encodes_increment (layout : Layout) {code : BinOp → Width → Word → List Byte} {accesses : Width → List Access}
    (hcode : ∀ op w addr, Encodes (code op w addr) (accesses w)) (op : BinOp) (n : Node) (child : Tree) (isAddr : ℕ) :
    Encodes (codeIncrement layout code op n (finshTypeCheck globalVariable child isAddr).1).code
      (incrementAccesses accesses n.dataType child) := by
  cases child with
  | null => exact .nil
  | node c cc cs =>
    rw [finshTypeCheck_fst, codeIncrement, incrementAccesses]
    change Encodes (if c.nodeType = .id then _ else _ : Output).code _
    by_cases hid : c.nodeType = .id
    · rw [if_pos hid, if_pos hid]
      simp only [Node.checked]
      cases dataWidth n.dataType with
      | none => exact .nil
      | some w =>
        cases c.id with
        | none => exact .nil
        | some id => exact hcode op w (layout.valueAddr id)
    · rw [if_neg hid, if_neg hid]
      exact .nil

theorem encodes_call (sibling : Tree) :
    Encodes [Op.call.code, BitVec.ofNat 8 sibling.siblings] [.call (BitVec.ofNat 8 sibling.siblings).toNat] :=
  encodes_instr ⟨.call, [BitVec.ofNat 8 sibling.siblings], rfl⟩

theorem compileNode_encodes (layout : Layout) (n : Node) (isAddr d isAddr' : ℕ) (child : Tree) :
    Encodes (compileNode globalVariable layout (n.checked isAddr d) (finshTypeCheck globalVariable child isAddr').1).code
      (nodeAccesses globalVariable n isAddr d (Tree.dataType globalVariable child) child) := by
  have hbinary : ∀ op : BinOp, Encodes (match some op, dataWidth d with
      | some op, some w => emit [(Op.binary op w).code]
      | _, _ => emit [] : Output).code (match some op, dataWidth d with
      | some _, some w => [.combine w]
      | _, _ => []) := by
    intro op
    cases dataWidth d with
    | none => exact .nil
    | some w => exact encodes_op (.binary op w) rfl
  have hpre := fun op => @encodes_increment globalVariable layout _ _ encodes_pre op (n.checked isAddr d) child isAddr'
  have hpost := fun op => @encodes_increment globalVariable layout _ _ encodes_post op (n.checked isAddr d) child isAddr'
  obtain ⟨type, d0, idtype, value, id⟩ := n
  cases type with
  | id =>
    cases id with
    | none => exact .nil
    | some id =>
      cases id with
      | var i => exact encodes_variable _ isAddr d _ _
      | sysvar v => exact encodes_variable _ isAddr d _ _
      | syscall func => exact encodes_ld func
  | valueChar => exact encodes_instr ⟨.ld .byte, [value.setWidth 8], rfl⟩
  | valueInt => exact encodes_ld value
  | valueLong => exact encodes_ld value
  | valueNull => exact encodes_ld value
  | valueString => exact encodes_ld value
  | sysBitwise =>
    simp only [compileNode, nodeAccesses, Node.checked]
    cases dataWidth d with
    | none => exact .nil
    | some w => exact encodes_op (.bw w) rfl
  | sysFunc =>
    cases child with
    | null => exact .nil
    | node c cc cs =>
      have hcall : Encodes [Op.call.code, BitVec.ofNat 8 (finshTypeCheck globalVariable cs 0).1.siblings]
          [.call (BitVec.ofNat 8 cs.siblings).toNat] := by
        rw [finshTypeCheck_siblings]
        exact encodes_call cs
      rw [finshTypeCheck_fst]
      exact hcall
  | sysAssign =>
    cases child with
    | null => exact .nil
    | node c cc cs =>
      rw [finshTypeCheck_fst]
      exact encodes_assignTo c.nodeType _
  | sysGetvalue => exact encodes_getvalue decide_eq_true_iff d
  | sysGetaddr => exact .nil
  | sysPreinc => exact hpre .add
  | sysPredec => exact hpre .sub
  | sysInc => exact hpost .add
  | sysDec => exact hpost .sub
  | sysAdd => exact hbinary .add
  | sysSub => exact hbinary .sub
  | sysMul => exact hbinary .mul
  | sysDiv => exact hbinary .div
  | sysMod => exact hbinary .mod
  | sysAnd => exact hbinary .and
  | sysOr => exact hbinary .or
  | sysXor => exact hbinary .xor
  | sysShl => exact hbinary .shl
  | sysShr => exact hbinary .shr

theorem finshCompile_encodes (layout : Layout) (t : Tree) (isAddr : ℕ) :
    Encodes (finshCompile globalVariable layout (finshTypeCheck globalVariable t isAddr).1).code
      (Tree.accesses globalVariable t isAddr) := by
  induction t generalizing isAddr with
  | null => exact .nil
  | node n child sibling ihc ihs =>
    rw [finshTypeCheck_fst, finshCompile, Tree.accesses]
    exact ((ihc _).append (compileNode_encodes layout n isAddr _ _ child)).append (ihs 0)

theorem compileStatements_encodes (layout : Layout) (t : Tree) :
    Encodes (compileStatements globalVariable layout (finshTypeCheck globalVariable t 0).1).code
      (Tree.lineAccesses globalVariable t) := by
  induction t with
  | null => exact .nil
  | node n child sibling _ ih =>
    have hfirst : Encodes _ (Tree.accesses globalVariable (.node n child .null) 0) :=
      finshCompile_encodes layout (.node n child .null) 0
    rw [finshTypeCheck_fst, Tree.dataType_sibling n child .null sibling] at hfirst
    rw [finshTypeCheck_fst]
    cases sibling with
    | null => exact (hfirst.append .nil).append .nil
    | node m c s =>
      rw [finshTypeCheck_fst] at ih ⊢
      exact (hfirst.append (encodes_op .pop rfl)).append ih

/-! ### Lines -/

/-- The slot that `finsh_compiler_run` clears. -/
def clearBottom (stack : ℕ → Word) : ℕ → Word := Function.update stack 0 0

/-- `finsh_run_line` (`shell.c:360-402`): what `finsh_stack_bottom` gives, and the memory. There is no result where an
error is printed, and where a function of the line has none. -/
def finshRunLine (sym : Symbols) (target : Target) (layout : Layout) (globalVariable : Fin finshVariableMax → Var)
    (line : List Lexeme) (n m : ℕ) (stack : ℕ → Word) (mem : Memory) : Option (Word × Memory) :=
  (finshParserRun sym n (Parser.start globalVariable line)).bind fun (root, s) =>
    if s.errno = none then
      (finshCompilerRun s.globalVariable layout root).bind fun (text, e) =>
        if e = none then
          (finshVmRun target text m (clearBottom stack) mem).map fun vm => (vm.stack 0, vm.mem)
        else none
    else none

/-- At the beginning of a line the slot at the bottom is written. -/
def Written.start : Written := ⟨0, Function.update (fun _ => none) 0 (some .dword)⟩

/-- The tree of the line reads only what it has written of the stack. -/
def FreshTree (globalVariable : Fin finshVariableMax → Var) (root : Tree) : Prop :=
  fresh (Tree.lineAccesses globalVariable root) .start = true

/-- The line reads only what it has written of the stack. -/
def FreshLine (sym : Symbols) (globalVariable : Fin finshVariableMax → Var) (line : List Lexeme) (n : ℕ) : Prop :=
  ∀ r ∈ finshParserRun sym n (Parser.start globalVariable line), FreshTree r.2.globalVariable r.1

theorem Written.start_agree (stack1 stack2 : ℕ → Word) (mem : Memory) :
    Written.start.Agree ⟨0, 0, clearBottom stack1, mem⟩ ⟨0, 0, clearBottom stack2, mem⟩ := by
  refine ⟨rfl, rfl, rfl, fun i w h => ?_⟩
  by_cases hi : i = 0
  · subst hi
    rfl
  · simp only [Written.has, Written.start, Function.update_of_ne hi, Option.any_none, Bool.false_eq_true] at h

/-- The end of the text segment is filled with `FINSH_OP_NOOP`. -/
theorem fresh_noOps (as : List Access) (j : ℕ) (k : Written) :
    fresh (as ++ List.replicate j .rest) k = fresh as k := by
  induction as generalizing k with
  | nil =>
    induction j with
    | zero => rfl
    | succ j ih => exact ih
  | cons a as ih =>
    rw [List.cons_append, fresh, fresh]
    exact congrArg (a.fresh k && Option.all · (a.after k)) (funext ih)

theorem noOp_arity : ([] : List Byte).length = Op.noOp.arity := rfl

def instrNoOp : Instr := ⟨.noOp, [], noOp_arity⟩

theorem encode_noOps (j : ℕ) : encode (List.replicate j instrNoOp) = List.replicate j 0 := by
  induction j with
  | zero => rfl
  | succ j ih =>
    rw [List.replicate_succ, List.replicate_succ, encode_cons, ih]
    rfl

theorem length_le_encode (is : List Instr) : is.length ≤ (encode is).length := by
  induction is with
  | nil => exact le_rfl
  | cons i is ih =>
    rw [encode_cons, List.length_append, List.length_cons, Instr.encode, List.length_cons]
    omega

theorem finshCompilerRun_encodes {layout : Layout} {root : Tree} {text : List Byte} {e : Option Errno}
    (h : finshCompilerRun globalVariable layout root = some (text, e)) (hfresh : FreshTree globalVariable root) :
    text.length = finshTextMax ∧ ∃ is, text = encode is ∧ fresh (is.map Instr.access) .start = true := by
  obtain ⟨is, hcode, haccess⟩ := @compileStatements_encodes globalVariable layout root
  obtain ⟨hlen, heq⟩ := Option.ite_none_right_eq_some.mp h
  cases heq
  rw [List.length_append, List.length_replicate, Nat.add_sub_cancel' hlen]
  rw [hcode]
  refine ⟨rfl, is ++ List.replicate (finshTextMax - (encode is).length) instrNoOp, ?_, ?_⟩
  · rw [encode_append, encode_noOps]
  · rw [List.map_append, haccess, List.map_replicate]
    exact (fresh_noOps _ _ _).trans hfresh

/-- A line that reads only what it has written of the stack has the same result whatever else is there. -/
theorem finshRunLine_fresh {sym : Symbols} {target : Target} {layout : Layout} {line : List Lexeme} {n m : ℕ}
    (hfresh : FreshLine sym globalVariable line n) (hm : finshTextMax < m) (stack1 stack2 : ℕ → Word) (mem : Memory) :
    finshRunLine sym target layout globalVariable line n m stack1 mem =
      finshRunLine sym target layout globalVariable line n m stack2 mem := by
  rw [finshRunLine, finshRunLine]
  cases hparse : finshParserRun sym n (Parser.start globalVariable line) with
  | none => rfl
  | some r =>
    obtain ⟨root, s⟩ := r
    have htree : FreshTree s.globalVariable root := hfresh _ hparse
    simp only [Option.bind_some]
    split
    · cases hcompile : finshCompilerRun s.globalVariable layout root with
      | none => rfl
      | some out =>
        obtain ⟨text, e⟩ := out
        obtain ⟨hlen, is, rfl, his⟩ := finshCompilerRun_encodes hcompile htree
        have hruns : ∀ stack, finshVmRun target (encode is) m (clearBottom stack) mem =
            runInstrs target is ⟨0, 0, clearBottom stack, mem⟩ := by
          intro stack
          have hstop : is.length < m := (length_le_encode is).trans_lt (hlen.trans_lt hm)
          exact vmLoop_eq_runInstrs hlen ⟨[], (List.append_nil _).symm⟩ ((Nat.zero_add _).trans hlen) hstop
        have hagree := @runInstrs_agree target .start _ _ is (Written.start_agree stack1 stack2 mem) rfl his
        simp only [Option.bind_some, hruns]
        generalize runInstrs target is ⟨0, 0, clearBottom stack1, mem⟩ = o1 at hagree
        generalize runInstrs target is ⟨0, 0, clearBottom stack2, mem⟩ = o2 at hagree
        cases hagree with
        | none => rfl
        | some h => rw [Option.map_some, Option.map_some, h.1, h.2]
    · rfl

def lexemeChar (c : Byte) : Lexeme := ⟨.valueChar, c.setWidth 32, [], none⟩

/-- `1 + 'a';` -/
def intFirst : List Lexeme := [lexemeInt 1, lexemeOf .add, lexemeChar 0x61, lexemeOf .semicolon]

/-- `'a' + 1;` -/
def charFirst : List Lexeme := [lexemeChar 0x61, lexemeOf .add, lexemeInt 1, lexemeOf .semicolon]

theorem freshLine_of_all {sym : Symbols} {line : List Lexeme} {n : ℕ}
    (h : (finshParserRun sym n (Parser.start globalVariable line)).all (fun r =>
      fresh (Tree.lineAccesses r.2.globalVariable r.1) .start) = true) : FreshLine sym globalVariable line n := by
  intro r hr
  rw [Option.mem_def.mp hr] at h
  exact h

def runExample (line : List Lexeme) (stale : Word) : Option (Word × Memory) :=
  finshRunLine noSymbols noCalls rowLayout oneVariable line 15 129 (fun _ => stale) (fun _ => 0)

/-- The sum with the `char` first is 98 on both stacks. -/
theorem finshRunLine_fresh_charFirst :
    (runExample charFirst 0).map Prod.fst = some 98 ∧ runExample charFirst 0 = runExample charFirst 0x100 := by
  have hfresh : FreshLine noSymbols oneVariable charFirst 15 := freshLine_of_all (by decide +kernel)
  exact ⟨by decide +kernel, finshRunLine_fresh hfresh (by decide) _ _ _⟩

/-- The sum with the `int` first is 98 or 354. -/
theorem intFirst_stale :
    (runExample intFirst 0).map Prod.fst = some 98 ∧ (runExample intFirst 0x100).map Prod.fst = some 354 ∧
      runExample intFirst 0 ≠ runExample intFirst 0x100 := by
  have h0 : (runExample intFirst 0).map Prod.fst = some 98 := by decide +kernel
  have h1 : (runExample intFirst 0x100).map Prod.fst = some 354 := by decide +kernel
  refine ⟨h0, h1, fun heq => ?_⟩
  rw [heq, h1] at h0
  exact absurd h0 (by decide)

end RtThread.Finsh
