import Mathlib
import RtThread.Finsh.StaleLines

/-!
# FinSH: the size of the code (`finsh_compiler.c:20-738`, `887-918`)

`finsh_code_byte` and `finsh_code_dword` write at `finsh_compile_pc` without a look at the end of `text_segment`.
-/

namespace RtThread.Finsh

variable (globalVariable : Fin finshVariableMax → Var)

/-! ### What the compiler writes, up to the first error -/

/-- The code of a node, or an error. -/
def Output.piece (o : Output) : Option (List Byte) :=
  match o.error with
  | none => some o.code
  | some _ => none

section Pieces

variable (layout : Layout)

/-- What `finsh_compile` writes, one node after the other. -/
def codePieces : Tree → List (Option (List Byte))
  | .null => []
  | .node n child sibling =>
    codePieces child ++ [(compileNode globalVariable layout n child).piece] ++ codePieces sibling

/-- What the loop of `finsh_compiler_run` writes. -/
def linePieces : Tree → List (Option (List Byte))
  | .null => []
  | .node n child sibling =>
    codePieces globalVariable layout (.node n child .null) ++
      (match sibling with
      | .null => []
      | .node .. => [some [Op.pop.code]]) ++
      linePieces sibling

end Pieces

/-- How far `finsh_compile_pc` is when the first error is raised, or at the end. -/
def writtenBefore : List (Option ℕ) → ℕ
  | [] => 0
  | none :: _ => 0
  | some n :: ps => n + writtenBefore ps

/-- The code stays in `text_segment`, as far as it is written before an error. -/
def CodeFits (layout : Layout) (root : Tree) : Prop :=
  (finshTypeCheck globalVariable root 0).2 = none →
    writtenBefore ((linePieces globalVariable layout (finshTypeCheck globalVariable root 0).1).map
      (Option.map List.length)) ≤ finshTextMax

/-! ### The sizes of the nodes -/

def variableSize (type : FinshType) : ℕ := if type.width = none then 0 else 5

/-- An operator without operands of its own, which needs a data type. -/
def operatorSize (d : ℕ) : ℕ := if dataWidth d = none then 0 else 1

/-- The load of the number one. -/
def oneSize : Width → ℕ
  | .byte => 2
  | .word => 3
  | .dword => 5

def preSize (w : Width) : ℕ := 8 + oneSize w

def postSize (w : Width) : ℕ := 13 + oneSize w

def incrementSize (size : Width → ℕ) (d : ℕ) : Tree → ℕ
  | .null => 0
  | .node c _ _ =>
    if c.nodeType = .id then
      match dataWidth d, c.id with
      | some w, some _ => size w
      | _, _ => 0
    else 0

/-- The store of an assignment, which is refused for other data types. -/
def assignSize (d : ℕ) : Option ℕ := (dataWidth d).map fun _ => 2

/-- The bytes for a node itself, when its data type is `d` and that of its first child is `e`. -/
def nodeSize (n : Node) (isAddr d e : ℕ) (child : Tree) : Option ℕ :=
  match n.nodeType with
  | .id =>
    match n.id with
    | some (.syscall _) => some 5
    | some (.sysvar v) => some (variableSize v.type)
    | some (.var i) => some (variableSize (globalVariable i).type)
    | none => some 0
  | .valueChar => some 2
  | .valueInt | .valueLong | .valueNull | .valueString => some 5
  | .sysBitwise => some (operatorSize d)
  | .sysFunc =>
    match child with
    | .null => some 0
    | .node .. => some 2
  | .sysAssign =>
    match child with
    | .null => some 0
    | .node c _ _ =>
      if c.nodeType = .id then assignSize e
      else if c.nodeType = .sysGetvalue then assignSize (e &&& 0x0F)
      else some 0
  | .sysPreinc | .sysPredec => some (incrementSize preSize d child)
  | .sysInc | .sysDec => some (incrementSize postSize d child)
  | .sysGetvalue => some (if n.wantsAddress isAddr then 0 else operatorSize d)
  | .sysGetaddr => some 0
  | _ => some (operatorSize d)

/-- The sizes of the nodes of a tree, each after its operands. -/
def Tree.sizes : Tree → ℕ → List (Option ℕ)
  | .null, _ => []
  | .node n child sibling, isAddr =>
    Tree.sizes child (childAddr n.nodeType isAddr) ++
      [nodeSize globalVariable n isAddr (Tree.dataType globalVariable (.node n child sibling))
        (Tree.dataType globalVariable child) child] ++
      Tree.sizes sibling 0

/-- The sizes of the nodes of a line, with the `FINSH_OP_POP` between its statements. -/
def Tree.lineSizes : Tree → List (Option ℕ)
  | .null => []
  | .node n child sibling =>
    Tree.sizes globalVariable (.node n child .null) 0 ++
      (match sibling with
      | .null => []
      | .node .. => [some 1]) ++
      Tree.lineSizes sibling

/-- A registered or a user variable of `finsh_type_unknown`. -/
def Node.Unknown (n : Node) : Prop :=
  match n.id with
  | some (.var i) => (globalVariable i).type = .unknown
  | some (.sysvar v) => v.type = .unknown
  | _ => False

/-- An identifier of the tree is such a variable. -/
def Tree.Unknown : Tree → Prop
  | .null => False
  | .node n child sibling =>
    (child = .null ∧ n.nodeType = .id ∧ n.Unknown globalVariable) ∨ Tree.Unknown child ∨ Tree.Unknown sibling

/-- A variable of the line has no type, or the nodes before the first refused assignment are small enough. -/
def SizesFit (root : Tree) : Prop :=
  root.Unknown globalVariable ∨ writtenBefore (root.lineSizes globalVariable) ≤ finshTextMax

/-- The code of an accepted line stays in `text_segment`. -/
def LineFits (sym : Symbols) (layout : Layout) (line : List Lexeme) (n : ℕ) : Prop :=
  ∀ r ∈ finshParserRun sym n (Parser.start globalVariable line), r.2.errno = none →
    CodeFits r.2.globalVariable layout r.1

/-- The nodes of an accepted line are small enough. -/
def LineSizesFit (sym : Symbols) (line : List Lexeme) (n : ℕ) : Prop :=
  ∀ r ∈ finshParserRun sym n (Parser.start globalVariable line), r.2.errno = none → SizesFit r.2.globalVariable r.1

variable {globalVariable}

/-! ### The pieces are the code -/

theorem codeAssign_cases (d : ℕ) : (codeAssign d).error = none ∨ (codeAssign d).code = [] := by
  rw [codeAssign]
  cases dataWidth d with
  | none => exact Or.inr rfl
  | some w => exact Or.inl rfl

theorem codeIncrement_error (layout : Layout) (code : BinOp → Width → Word → List Byte) (op : BinOp) (n : Node)
    (child : Tree) : (codeIncrement layout code op n child).error = none := by
  cases child with
  | null => rfl
  | node c cc cs =>
    rw [codeIncrement]
    split
    · split <;> rfl
    · rfl

theorem compileNode_cases (layout : Layout) (n : Node) (child : Tree) :
    (compileNode globalVariable layout n child).error = none ∨ (compileNode globalVariable layout n child).code = [] := by
  obtain ⟨type, d, idtype, value, id⟩ := n
  cases type with
  | id =>
    left
    cases id with
    | none => rfl
    | some id => cases id <;> rfl
  | sysFunc => cases child <;> exact Or.inl rfl
  | sysAssign =>
    cases child with
    | null => exact Or.inl rfl
    | node c cc cs =>
      simp only [compileNode]
      split
      · exact codeAssign_cases c.dataType
      · split
        · exact codeAssign_cases _
        · exact Or.inl rfl
  | sysGetvalue =>
    left
    simp only [compileNode]
    split
    · rfl
    · cases dataWidth d <;> rfl
  | sysBitwise =>
    left
    simp only [compileNode]
    cases dataWidth d <;> rfl
  | sysPreinc => exact Or.inl (codeIncrement_error layout codePre .add _ child)
  | sysPredec => exact Or.inl (codeIncrement_error layout codePre .sub _ child)
  | sysInc => exact Or.inl (codeIncrement_error layout codePost .add _ child)
  | sysDec => exact Or.inl (codeIncrement_error layout codePost .sub _ child)
  | sysAdd | sysSub | sysMul | sysDiv | sysMod | sysAnd | sysOr | sysXor | sysShl | sysShr =>
    left
    simp only [compileNode]
    cases dataWidth d <;> rfl
  | _ => exact Or.inl rfl

/-- The bytes of the pieces, and whether one of them is an error. -/
def Output.Pieces (o : Output) (ps : List (Option (List Byte))) : Prop :=
  (ps.filterMap id).flatten = o.code ∧ (none ∈ ps ↔ o.error ≠ none)

theorem Output.Pieces.nil : (emit []).Pieces [] := ⟨rfl, iff_of_false List.not_mem_nil fun h => h rfl⟩

theorem Output.pieces_piece {o : Output} (h : o.error = none ∨ o.code = []) : o.Pieces [o.piece] := by
  obtain ⟨code, error⟩ := o
  cases error with
  | none => exact ⟨List.append_nil code, iff_of_false (fun hmem => by cases List.mem_singleton.mp hmem) fun hne => hne rfl⟩
  | some e =>
    rcases h with h | rfl
    · cases h
    · exact ⟨rfl, iff_of_true List.mem_cons_self (Option.some_ne_none e)⟩

theorem Output.Pieces.append {o p : Output} {ps qs : List (Option (List Byte))} (ho : o.Pieces ps) (hp : p.Pieces qs) :
    (o ++ p).Pieces (ps ++ qs) := by
  constructor
  · rw [List.filterMap_append, List.flatten_append, ho.1, hp.1]
    rfl
  · change none ∈ ps ++ qs ↔ p.error.or o.error ≠ none
    rw [List.mem_append, ho.2, hp.2]
    cases p.error with
    | none => exact or_iff_left fun h => h rfl
    | some e => exact iff_of_true (Or.inr (Option.some_ne_none e)) (Option.some_ne_none e)

theorem codePieces_spec (layout : Layout) (t : Tree) :
    (finshCompile globalVariable layout t).Pieces (codePieces globalVariable layout t) := by
  induction t with
  | null => exact .nil
  | node n child sibling ihc ihs =>
    rw [finshCompile, codePieces]
    exact (ihc.append (Output.pieces_piece (compileNode_cases layout n child))).append ihs

theorem linePieces_spec (layout : Layout) (t : Tree) :
    (compileStatements globalVariable layout t).Pieces (linePieces globalVariable layout t) := by
  induction t with
  | null => exact .nil
  | node n child sibling _ ih =>
    have hfirst := @codePieces_spec globalVariable layout (.node n child .null)
    cases sibling with
    | null => exact (hfirst.append .nil).append ih
    | node m c s => exact (hfirst.append (Output.pieces_piece (o := emit [Op.pop.code]) (Or.inl rfl))).append ih

/-! ### The sizes are those of the code -/

theorem dataType_eq_none (type : FinshType) : type.dataType = none ↔ type = .unknown := by
  cases type <;> decide

theorem leafDataType_snd (n : Node) :
    (leafDataType globalVariable n).2 ≠ none ↔ n.nodeType = .id ∧ n.Unknown globalVariable := by
  obtain ⟨type, d, idtype, value, id⟩ := n
  cases type with
  | id =>
    rw [and_iff_right rfl]
    cases id with
    | none => exact iff_of_false (fun h => h rfl) not_false
    | some id =>
      cases id with
      | var i =>
        simp only [leafDataType, Node.Unknown]
        rw [← dataType_eq_none]
        cases (globalVariable i).type.dataType with
        | none => exact iff_of_true (Option.some_ne_none _) rfl
        | some w => exact iff_of_false (fun h => h rfl) (Option.some_ne_none w)
      | sysvar v =>
        simp only [leafDataType, Node.Unknown]
        rw [← dataType_eq_none]
        cases v.type.dataType with
        | none => exact iff_of_true (Option.some_ne_none _) rfl
        | some w => exact iff_of_false (fun h => h rfl) (Option.some_ne_none w)
      | syscall func => exact iff_of_false (fun h => h rfl) not_false
  | _ => exact iff_of_false (fun h => h rfl) fun h => by cases h.1

theorem or_ne_none {α : Type} (a b : Option α) : a.or b ≠ none ↔ a ≠ none ∨ b ≠ none := by
  cases a with
  | none => exact (or_iff_right fun h => h rfl).symm
  | some x => exact iff_of_true (Option.some_ne_none x) (Or.inl (Option.some_ne_none x))

theorem finshTypeCheck_snd (t : Tree) (isAddr : ℕ) :
    (finshTypeCheck globalVariable t isAddr).2 ≠ none ↔ t.Unknown globalVariable := by
  induction t generalizing isAddr with
  | null => exact iff_of_false (fun h => h rfl) not_false
  | node n child sibling ihc ihs =>
    cases child with
    | null =>
      have hleaf : (finshTypeCheck globalVariable (.node n .null sibling) isAddr).2 =
          (leafDataType globalVariable n).2.or ((finshTypeCheck globalVariable sibling 0).2.or none) := by
        simp only [finshTypeCheck]
        split
        · rfl
        · rfl
      rw [hleaf, or_ne_none, or_ne_none, leafDataType_snd, ihs]
      simp only [Tree.Unknown, true_and, ne_eq, not_true_eq_false, or_false, false_or]
    | node c cc cs =>
      have hnode : (finshTypeCheck globalVariable (.node n (.node c cc cs) sibling) isAddr).2 =
          (finshTypeCheck globalVariable sibling 0).2.or
            (finshTypeCheck globalVariable (.node c cc cs) (childAddr n.nodeType isAddr)).2 := by
        have hchild := @finshTypeCheck_fst globalVariable c cc cs (childAddr n.nodeType isAddr)
        rw [finshTypeCheck]
        simp only [hchild]
      have hinner : Tree.Unknown globalVariable (.node n (.node c cc cs) sibling) ↔
          Tree.Unknown globalVariable (.node c cc cs) ∨ Tree.Unknown globalVariable sibling :=
        or_iff_right fun h => Tree.noConfusion h.1
      rw [hnode, or_ne_none, ihs, ihc, hinner]
      exact or_comm

/-- The size of a node is the length of its code, and it has none if the compiler raises an error. -/
def Output.Sized (o : Output) (size : Option ℕ) : Prop := o.piece.map List.length = size

theorem codeVariable_sized (n : Node) (type : FinshType) (addr : Word) :
    (emit (codeVariable n type addr)).Sized (some (variableSize type)) := by
  rw [codeVariable, variableSize]
  cases type.width with
  | none => rfl
  | some w =>
    simp only
    split
    · rfl
    · rfl

theorem operator_sized (d : ℕ) (code : Width → Byte) : (match dataWidth d with
    | some w => emit [code w]
    | none => emit [] : Output).Sized (some (operatorSize d)) := by
  rw [operatorSize]
  cases dataWidth d with
  | none => rfl
  | some w => rfl

theorem binary_sized (d : ℕ) (op : BinOp) : (match some op, dataWidth d with
    | some op, some w => emit [(Op.binary op w).code]
    | _, _ => emit [] : Output).Sized (some (operatorSize d)) := by
  rw [operatorSize]
  cases dataWidth d with
  | none => rfl
  | some w => rfl

theorem codeAssign_sized (d : ℕ) : (codeAssign d).Sized (assignSize d) := by
  rw [codeAssign, assignSize]
  cases dataWidth d with
  | none => rfl
  | some w => rfl

theorem codeIncrement_sized (layout : Layout) {code : BinOp → Width → Word → List Byte} {size : Width → ℕ}
    (hcode : ∀ op w addr, (code op w addr).length = size w) (op : BinOp) (n : Node) (child : Tree) (isAddr : ℕ) :
    (codeIncrement layout code op n (finshTypeCheck globalVariable child isAddr).1).Sized
      (some (incrementSize size n.dataType child)) := by
  cases child with
  | null => rfl
  | node c cc cs =>
    rw [finshTypeCheck_fst, codeIncrement, incrementSize]
    change (if c.nodeType = .id then _ else _ : Output).Sized _
    by_cases hid : c.nodeType = .id
    · rw [if_pos hid, if_pos hid]
      simp only [Node.checked]
      cases dataWidth n.dataType with
      | none => rfl
      | some w =>
        cases c.id with
        | none => rfl
        | some id => exact congrArg some (hcode op w (layout.valueAddr id))
    · rw [if_neg hid, if_neg hid]
      rfl

theorem codePre_length (op : BinOp) (w : Width) (addr : Word) : (codePre op w addr).length = preSize w := by
  cases w <;> rfl

theorem codePost_length (op : BinOp) (w : Width) (addr : Word) : (codePost op w addr).length = postSize w := by
  cases w <;> rfl

theorem compileNode_sized (layout : Layout) (n : Node) (isAddr d isAddr' : ℕ) (child : Tree) :
    (compileNode globalVariable layout (n.checked isAddr d) (finshTypeCheck globalVariable child isAddr').1).Sized
      (nodeSize globalVariable n isAddr d (Tree.dataType globalVariable child) child) := by
  have hpre := fun op => @codeIncrement_sized globalVariable layout _ _ codePre_length op (n.checked isAddr d) child isAddr'
  have hpost := fun op => @codeIncrement_sized globalVariable layout _ _ codePost_length op (n.checked isAddr d) child isAddr'
  obtain ⟨type, d0, idtype, value, id⟩ := n
  cases type with
  | id =>
    cases id with
    | none => rfl
    | some id =>
      cases id with
      | var i => exact codeVariable_sized _ _ _
      | sysvar v => exact codeVariable_sized _ _ _
      | syscall func => rfl
  | valueChar => rfl
  | valueInt => rfl
  | valueLong => rfl
  | valueNull => rfl
  | valueString => rfl
  | sysBitwise => exact operator_sized d _
  | sysFunc =>
    cases child with
    | null => rfl
    | node c cc cs =>
      rw [finshTypeCheck_fst]
      rfl
  | sysAssign =>
    cases child with
    | null => rfl
    | node c cc cs =>
      rw [finshTypeCheck_fst]
      change (if c.nodeType = .id then _ else if c.nodeType = .sysGetvalue then _ else _ : Output).Sized
        (if c.nodeType = .id then _ else if c.nodeType = .sysGetvalue then _ else _)
      split
      · exact codeAssign_sized _
      · split
        · exact codeAssign_sized _
        · rfl
  | sysGetvalue =>
    simp only [compileNode, nodeSize]
    by_cases haddr : ((Node.mk .sysGetvalue d0 idtype value id).checked isAddr d).idtype &&& idtypeAddress ≠ 0
    · have hwants : (Node.mk .sysGetvalue d0 idtype value id).wantsAddress isAddr = true := decide_eq_true haddr
      rw [if_pos haddr, if_pos hwants]
      rfl
    · have hwants : ¬(Node.mk .sysGetvalue d0 idtype value id).wantsAddress isAddr = true :=
        fun hw => haddr (of_decide_eq_true hw)
      rw [if_neg haddr, if_neg hwants]
      exact operator_sized d _
  | sysGetaddr => rfl
  | sysPreinc => exact hpre .add
  | sysPredec => exact hpre .sub
  | sysInc => exact hpost .add
  | sysDec => exact hpost .sub
  | sysAdd => exact binary_sized d .add
  | sysSub => exact binary_sized d .sub
  | sysMul => exact binary_sized d .mul
  | sysDiv => exact binary_sized d .div
  | sysMod => exact binary_sized d .mod
  | sysAnd => exact binary_sized d .and
  | sysOr => exact binary_sized d .or
  | sysXor => exact binary_sized d .xor
  | sysShl => exact binary_sized d .shl
  | sysShr => exact binary_sized d .shr

theorem codePieces_sizes (layout : Layout) (t : Tree) (isAddr : ℕ) :
    (codePieces globalVariable layout (finshTypeCheck globalVariable t isAddr).1).map (Option.map List.length) =
      t.sizes globalVariable isAddr := by
  induction t generalizing isAddr with
  | null => rfl
  | node n child sibling ihc ihs =>
    have hnode : _ = _ := @compileNode_sized globalVariable layout n isAddr
      (Tree.dataType globalVariable (.node n child sibling)) (childAddr n.nodeType isAddr) child
    rw [finshTypeCheck_fst, codePieces, Tree.sizes, List.map_append, List.map_append, ihc, ihs, List.map_singleton, hnode]

theorem linePieces_sizes (layout : Layout) (t : Tree) :
    (linePieces globalVariable layout (finshTypeCheck globalVariable t 0).1).map (Option.map List.length) =
      t.lineSizes globalVariable := by
  induction t with
  | null => rfl
  | node n child sibling _ ih =>
    have hfirst := @codePieces_sizes globalVariable layout (.node n child .null) 0
    rw [finshTypeCheck_fst, Tree.dataType_sibling n child .null sibling] at hfirst
    rw [finshTypeCheck_fst]
    cases sibling with
    | null =>
      change List.map _ (_ ++ [] ++ []) = _ ++ [] ++ []
      rw [List.append_nil, List.append_nil, List.append_nil, List.append_nil]
      exact hfirst
    | node m c s =>
      rw [finshTypeCheck_fst] at ih ⊢
      change List.map _ (_ ++ [some [Op.pop.code]] ++ _) = _ ++ [some 1] ++ _
      rw [List.map_append, List.map_append]
      exact congrArg₂ (· ++ [some 1] ++ ·) hfirst ih

theorem codeFits_iff (layout : Layout) (root : Tree) :
    CodeFits globalVariable layout root ↔ SizesFit globalVariable root := by
  rw [CodeFits, SizesFit, linePieces_sizes, ← finshTypeCheck_snd root 0, or_iff_not_imp_left, not_not]

/-- The code of an accepted line stays in its segment exactly if the nodes are small enough. -/
theorem code_fits_iff (globalVariable : Fin finshVariableMax → Var) (sym : Symbols) (layout : Layout)
    (line : List Lexeme) (n : ℕ) : LineFits globalVariable sym layout line n ↔ LineSizesFit globalVariable sym line n :=
  forall₃_congr fun r _ _ => codeFits_iff layout r.1

/-- `a++;` six times: twelve nodes and 143 bytes. -/
def sixIncrements : List Lexeme :=
  (List.replicate 6 [lexemeA, lexemeOf .inc, lexemeOf .semicolon]).flatten

theorem sixIncrements_overrun : ¬LineFits oneVariable noSymbols rowLayout sixIncrements 20 := by
  intro h
  have hrun : ((finshParserRun noSymbols 20 (Parser.start oneVariable sixIncrements)).any fun r =>
      decide (r.2.errno = none) && decide ((finshTypeCheck r.2.globalVariable r.1 0).2 = none) &&
        decide (finshTextMax < writtenBefore ((linePieces r.2.globalVariable rowLayout
          (finshTypeCheck r.2.globalVariable r.1 0).1).map (Option.map List.length)))) = true := by decide +kernel
  obtain ⟨r, hr, hall⟩ := (Option.any_eq_true _ _).mp hrun
  rw [Bool.and_eq_true, Bool.and_eq_true, decide_eq_true_eq, decide_eq_true_eq, decide_eq_true_eq] at hall
  exact absurd (h r hr hall.1.1 hall.1.2) (Nat.not_le.mpr hall.2)

end RtThread.Finsh
