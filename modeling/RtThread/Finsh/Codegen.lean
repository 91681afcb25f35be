import RtThread.Finsh.Compiler
import RtThread.Finsh.ParserGrammar
import Mathlib

/-!
# FinSH: the code of an integer expression
-/

namespace RtThread.Finsh

variable {globalVariable : Fin finshVariableMax → Var}

/-! ### Output -/

theorem append_emit_nil (o : Output) : o ++ emit [] = o := by
  obtain ⟨code, error⟩ := o
  exact congrArg (Output.mk · error) (List.append_nil code)

/-! ### The code -/

def StepOp.binOp : StepOp → BinOp
  | .inc => .add
  | .dec => .sub

section Code

variable (layout : Layout)

def IntVar.addr (x : IntVar globalVariable) : Word := layout.valueAddr (.var x.1)

/-- What the compiler writes for the tree of an expression. -/
def Expr.code : Expr (IntVar globalVariable) → List Byte
  | .const _ v => codeLd v
  | .var x => codeLdValue .dword (x.addr layout)
  | .assign x e => codeLd (x.addr layout) ++ e.code ++ [(Op.st .dword).code, (Op.ldValueStack .dword).code]
  | .binary op a b => a.code ++ b.code ++ [(Op.binary op .dword).code]
  | .unary .plus e => e.code
  | .unary .minus e => codeLd 0 ++ e.code ++ [(Op.binary .sub .dword).code]
  | .unary .bitwise e => e.code ++ [(Op.bw .dword).code]
  | .pre op x => codeLd (x.addr layout) ++ codePre op.binOp .dword (x.addr layout)
  | .post op x => codeLdValue .dword (x.addr layout) ++ codePost op.binOp .dword (x.addr layout)

def statementsCode : List (Expr (IntVar globalVariable)) → List Byte
  | [] => []
  | [e] => e.code layout
  | e :: es => e.code layout ++ [Op.pop.code] ++ statementsCode es

end Code

/-! ### Checked trees -/

theorem finshTypeCheck_variable (x : IntVar globalVariable) (isAddr : ℕ) {sibling sibling' : Tree}
    (h : finshTypeCheck globalVariable sibling 0 = (sibling', none)) :
    finshTypeCheck globalVariable ((variableTree x).setSibling sibling) isAddr =
      (.node ⟨.id, dataTypeDword, idtypeVar ||| isAddr, 0, some (.var x.1)⟩ .null sibling', none) := by
  have hne : idtypeVar ≠ idtypeSyscall := by decide
  obtain ht | ht := x.2
  all_goals
    simp only [variableTree, Tree.setSibling, finshTypeCheck, h, if_pos hne, leafDataType, ht, FinshType.dataType,
      Option.or_none]

theorem finshTypeCheck_value (long : Bool) (v : Word) {sibling sibling' : Tree}
    (h : finshTypeCheck globalVariable sibling 0 = (sibling', none)) :
    finshTypeCheck globalVariable ((valueTree long v).setSibling sibling) 0 =
      (.node ⟨if long then .valueLong else .valueInt, dataTypeDword, 0, v, none⟩ .null sibling', none) := by
  have hne : 0 ≠ idtypeSyscall := by decide
  cases long
  all_goals
    simp only [valueTree, Tree.setSibling, finshTypeCheck, h, if_pos hne, leafDataType, Bool.false_eq_true, if_true,
      if_false, Option.or_none, Nat.or_zero]

theorem finshTypeCheck_node (type : NodeType) {child c cc cs sibling sibling' : Tree} {n : Node}
    (hchild : finshTypeCheck globalVariable child (childAddr type 0) = (c, none)) (hc : c = .node n cc cs)
    (h : finshTypeCheck globalVariable sibling 0 = (sibling', none)) :
    finshTypeCheck globalVariable (.node (plainNode type) child sibling) 0 =
      (.node { plainNode type with dataType := n.dataType } c sibling', none) := by
  subst hc
  have hne : 0 ≠ idtypeSyscall := by decide
  simp only [plainNode, finshTypeCheck, hchild, h, if_pos hne, Option.or_none, Nat.or_zero]

/-- The tree of `e` is checked without an error, as a `dword`, and compiled to the code of `e`. -/
def Compiles (layout : Layout) (e : Expr (IntVar globalVariable)) : Prop :=
  ∀ sibling sibling' : Tree, finshTypeCheck globalVariable sibling 0 = (sibling', none) →
    ∃ n child, finshTypeCheck globalVariable (e.tree.setSibling sibling) 0 = (.node n child sibling', none) ∧
      n.dataType = dataTypeDword ∧
      finshCompile globalVariable layout child ++ compileNode globalVariable layout n child = emit (e.code layout)

theorem Compiles.null {layout : Layout} {e : Expr (IntVar globalVariable)} (h : Compiles layout e) :
    ∃ n child, finshTypeCheck globalVariable e.tree 0 = (.node n child .null, none) ∧ n.dataType = dataTypeDword ∧
      finshCompile globalVariable layout (.node n child .null) = emit (e.code layout) := by
  obtain ⟨n, child, hcheck, htype, hcode⟩ := h .null .null rfl
  rw [e.tree_setSibling_null] at hcheck
  refine ⟨n, child, hcheck, htype, ?_⟩
  rw [finshCompile, finshCompile, hcode]
  exact append_emit_nil _

theorem compiles_const (layout : Layout) (long : Bool) (v : Word) :
    Compiles layout (.const long v : Expr (IntVar globalVariable)) := by
  intro sibling sibling' h
  refine ⟨_, _, finshTypeCheck_value long v h, rfl, ?_⟩
  cases long <;> rfl

theorem compiles_var (layout : Layout) (x : IntVar globalVariable) : Compiles layout (.var x) := by
  intro sibling sibling' h
  refine ⟨_, _, finshTypeCheck_variable x 0 h, rfl, ?_⟩
  have hvalue : ¬(idtypeVar ||| 0) &&& idtypeAddress ≠ 0 := by decide
  obtain ht | ht := x.2
  all_goals
    simp only [finshCompile, compileNode, codeVariable, ht, FinshType.width, if_neg hvalue]
    rfl

theorem finshCompile_address (layout : Layout) (x : IntVar globalVariable) (sibling : Tree) :
    finshCompile globalVariable layout
        (.node ⟨.id, dataTypeDword, idtypeVar ||| idtypeAddress, 0, some (.var x.1)⟩ .null sibling) =
      emit (codeLd (x.addr layout)) ++ finshCompile globalVariable layout sibling := by
  have haddr : (idtypeVar ||| idtypeAddress) &&& idtypeAddress ≠ 0 := by decide
  obtain ht | ht := x.2
  all_goals
    simp only [finshCompile, compileNode, codeVariable, ht, FinshType.width, if_pos haddr]
    rfl

theorem Compiles.assign {layout : Layout} (x : IntVar globalVariable) {e : Expr (IntVar globalVariable)}
    (h : Compiles layout e) : Compiles layout (.assign x e) := by
  intro sibling sibling' hs
  obtain ⟨n, child, hcheck, htype, hcode⟩ := h.null
  have hx := finshTypeCheck_variable x idtypeAddress hcheck
  refine ⟨_, _, finshTypeCheck_node .sysAssign hx rfl hs, rfl, ?_⟩
  rw [finshCompile_address, hcode]
  rfl

theorem Compiles.binary {layout : Layout} (op : BinOp) {a b : Expr (IntVar globalVariable)} (ha : Compiles layout a)
    (hb : Compiles layout b) : Compiles layout (.binary op a b) := by
  intro sibling sibling' hs
  obtain ⟨nb, cb, hcheckb, -, hcodeb⟩ := hb.null
  obtain ⟨na, ca, hchecka, htype, hcodea⟩ := ha _ _ hcheckb
  have haddr : childAddr op.nodeType 0 = 0 := by cases op <;> rfl
  refine ⟨_, _, finshTypeCheck_node op.nodeType (by rw [haddr]; exact hchecka) rfl hs, htype, ?_⟩
  rw [finshCompile, hcodea, hcodeb]
  simp only [plainNode, htype]
  cases op <;> rfl

theorem Compiles.unary {layout : Layout} (op : UnaryOp) {e : Expr (IntVar globalVariable)} (h : Compiles layout e) :
    Compiles layout (.unary op e) := by
  intro sibling sibling' hs
  obtain ⟨n, child, hcheck, htype, hcode⟩ := h.null
  cases op with
  | plus => exact h sibling sibling' hs
  | minus =>
    have hzero := finshTypeCheck_value true 0 hcheck
    refine ⟨_, _, finshTypeCheck_node .sysSub hzero rfl hs, rfl, ?_⟩
    rw [finshCompile, hcode]
    rfl
  | bitwise =>
    refine ⟨_, _, finshTypeCheck_node .sysBitwise hcheck rfl hs, htype, ?_⟩
    rw [hcode]
    simp only [plainNode, htype]
    rfl

theorem compiles_pre (layout : Layout) (op : StepOp) (x : IntVar globalVariable) :
    Compiles layout (.pre op x) := by
  intro sibling sibling' hs
  have hx : finshTypeCheck globalVariable (variableTree x) idtypeAddress = _ := finshTypeCheck_variable x idtypeAddress rfl
  have haddr : childAddr op.preType 0 = idtypeAddress := by cases op <;> rfl
  refine ⟨_, _, finshTypeCheck_node op.preType (by rw [haddr]; exact hx) rfl hs, rfl, ?_⟩
  rw [finshCompile_address]
  cases op <;> rfl

theorem compiles_post (layout : Layout) (op : StepOp) (x : IntVar globalVariable) :
    Compiles layout (.post op x) := by
  intro sibling sibling' hs
  have hx : finshTypeCheck globalVariable (variableTree x) 0 = _ := finshTypeCheck_variable x 0 rfl
  obtain ⟨n, child, hvar, htype, hcode⟩ := (compiles_var layout x).null
  have haddr : childAddr op.postType 0 = 0 := by cases op <;> rfl
  refine ⟨_, _, finshTypeCheck_node op.postType (by rw [haddr]; exact hx) rfl hs, rfl, ?_⟩
  rw [Expr.tree, hx] at hvar
  cases hvar
  rw [hcode]
  cases op <;> rfl

theorem Expr.compiles (layout : Layout) (e : Expr (IntVar globalVariable)) : Compiles layout e := by
  induction e with
  | const long v => exact compiles_const layout long v
  | var x => exact compiles_var layout x
  | assign x e ih => exact ih.assign x
  | binary op a b iha ihb => exact iha.binary op ihb
  | unary op e ih => exact ih.unary op
  | pre op x => exact compiles_pre layout op x
  | post op x => exact compiles_post layout op x

/-! ### Statements -/

theorem link_cons (e : Expr (IntVar globalVariable)) (es : List (Expr (IntVar globalVariable))) :
    Tree.link ((e :: es).map Expr.tree) = e.tree.setSibling (Tree.link (es.map Expr.tree)) := by
  cases es with
  | nil => exact e.tree_setSibling_null.symm
  | cons e' es => rfl

theorem compileStatements_link (layout : Layout) (es : List (Expr (IntVar globalVariable))) :
    ∃ root, finshTypeCheck globalVariable (Tree.link (es.map Expr.tree)) 0 = (root, none) ∧
      (root = .null ↔ es = []) ∧ compileStatements globalVariable layout root = emit (statementsCode layout es) := by
  induction es with
  | nil => exact ⟨.null, rfl, ⟨fun _ => rfl, fun _ => rfl⟩, rfl⟩
  | cons e es ih =>
    obtain ⟨root, hcheck, hnull, hcode⟩ := ih
    obtain ⟨n, child, hnode, -, hexpr⟩ := e.compiles layout _ _ hcheck
    have hfirst : finshCompile globalVariable layout (.node n child .null) = emit (e.code layout) := by
      rw [finshCompile, finshCompile, hexpr]
      exact append_emit_nil _
    refine ⟨.node n child root, by rw [link_cons, hnode], ⟨fun h => (by cases h), fun h => (by cases h)⟩, ?_⟩
    cases es with
    | nil =>
      obtain rfl := hnull.mpr rfl
      simp only [compileStatements, hfirst, append_emit_nil, statementsCode]
    | cons e' es =>
      cases root with
      | null => exact absurd (hnull.mp rfl) (List.cons_ne_nil e' es)
      | node m c s =>
        rw [compileStatements, hfirst, hcode]
        rfl

theorem finshCompilerRun_link (layout : Layout) {es : List (Expr (IntVar globalVariable))} {text : List Byte}
    {e : Option Errno} (h : finshCompilerRun globalVariable layout (Tree.link (es.map Expr.tree)) = some (text, e)) :
    e = none ∧ (statementsCode layout es).length ≤ finshTextMax ∧
      text = statementsCode layout es ++ List.replicate (finshTextMax - (statementsCode layout es).length) 0 := by
  obtain ⟨root, hcheck, -, hcode⟩ := compileStatements_link layout es
  simp only [finshCompilerRun, hcheck, hcode, emit] at h
  split_ifs at h with hle
  cases h
  exact ⟨rfl, hle, rfl⟩

end RtThread.Finsh
