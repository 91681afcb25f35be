import RtThread.Lib.Stateful
import RtThread.Finsh.Parser
import RtThread.Finsh.Expr
import Mathlib

/-!
# FinSH: the parser builds the tree of an integer expression
-/

namespace RtThread.Finsh

open Lib.Stateful

variable {globalVariable : Fin finshVariableMax → Var}

/-! ### Trees -/

def BinOp.nodeType : BinOp → NodeType
  | .add => .sysAdd
  | .sub => .sysSub
  | .mul => .sysMul
  | .div => .sysDiv
  | .mod => .sysMod
  | .and => .sysAnd
  | .or => .sysOr
  | .xor => .sysXor
  | .shl => .sysShl
  | .shr => .sysShr

def StepOp.preType : StepOp → NodeType
  | .inc => .sysPreinc
  | .dec => .sysPredec

def StepOp.postType : StepOp → NodeType
  | .inc => .sysInc
  | .dec => .sysDec

/-- A node before its type is checked. -/
def plainNode (type : NodeType) : Node := ⟨type, 0, 0, 0, none⟩

def variableTree (x : IntVar globalVariable) : Tree := .node ⟨.id, 0, idtypeVar, 0, some (.var x.1)⟩ .null .null

def valueTree (long : Bool) (v : Word) : Tree :=
  .node ⟨if long then .valueLong else .valueInt, 0, 0, v, none⟩ .null .null

def Expr.tree : Expr (IntVar globalVariable) → Tree
  | .const long v => valueTree long v
  | .var x => variableTree x
  | .assign x e => .node (plainNode .sysAssign) ((variableTree x).setSibling e.tree) .null
  | .binary op a b => .node (plainNode op.nodeType) (a.tree.setSibling b.tree) .null
  | .unary .plus e => e.tree
  | .unary .minus e => .node (plainNode .sysSub) ((valueTree true 0).setSibling e.tree) .null
  | .unary .bitwise e => .node (plainNode .sysBitwise) e.tree .null
  | .pre op x => .node (plainNode op.preType) (variableTree x) .null
  | .post op x => .node (plainNode op.postType) (variableTree x) .null

theorem Expr.tree_eq (e : Expr (IntVar globalVariable)) : ∃ n child, e.tree = .node n child .null := by
  induction e with
  | const long v => exact ⟨_, _, rfl⟩
  | var x => exact ⟨_, _, rfl⟩
  | assign x e ih => exact ⟨_, _, rfl⟩
  | binary op a b iha ihb => exact ⟨_, _, rfl⟩
  | unary op e ih =>
    cases op with
    | plus => exact ih
    | minus => exact ⟨_, _, rfl⟩
    | bitwise => exact ⟨_, _, rfl⟩
  | pre op x => exact ⟨_, _, rfl⟩
  | post op x => exact ⟨_, _, rfl⟩

theorem Expr.tree_setSibling_null (e : Expr (IntVar globalVariable)) : e.tree.setSibling .null = e.tree := by
  obtain ⟨n, child, he⟩ := e.tree_eq
  rw [he]
  rfl

/-! ### States -/

/-- No error is set, `used` nodes are taken and `ls` is what comes next. -/
structure At (globalVariable : Fin finshVariableMax → Var) (used : ℕ) (ls : List Lexeme) (s : Parser) : Prop where
  upcoming : s.upcoming = ls
  used : s.used = used
  errno : s.errno = none
  globalVariable : s.globalVariable = globalVariable

/-- `l` has just been read. -/
structure Read (globalVariable : Fin finshVariableMax → Var) (used : ℕ) (l : Lexeme) (ls : List Lexeme) (s : Parser) :
    Prop extends At globalVariable used ls s where
  current : s.current = l
  replay : s.replay = false

/-- From `ls`, `m` gives `a` and comes to `ls'`. -/
def Gives {α : Type} (globalVariable : Fin finshVariableMax → Var) (m : P α) (used : ℕ) (ls : List Lexeme) (a : α) (used' : ℕ)
    (ls' : List Lexeme) : Prop :=
  ∀ s, At globalVariable used ls s → ∃ s', m s = some (a, s') ∧ At globalVariable used' ls' s'

theorem nextToken_read {used : ℕ} {l : Lexeme} {ls : List Lexeme} {s : Parser} (h : At globalVariable used (l :: ls) s)
    (hl : l.error = none) : ∃ s', nextToken s = some (l.token, s') ∧ Read globalVariable used l ls s' := by
  obtain ⟨hup, hused, herrno, hvars⟩ := h
  obtain ⟨rest, c, r, u, e, v⟩ := s
  cases r with
  | true =>
    simp only [Parser.upcoming, if_true, List.cons.injEq] at hup
    obtain ⟨rfl, rfl⟩ := hup
    refine ⟨_, nextToken_eq _, ⟨rfl, hused, herrno, hvars⟩, rfl, rfl⟩
  | false =>
    simp only [Parser.upcoming, Bool.false_eq_true, if_false] at hup
    subst hup
    refine ⟨_, nextToken_eq _, ⟨rfl, hused, ?_, hvars⟩, rfl, rfl⟩
    simp only [hl, Option.none_or]
    exact herrno

theorem tokenReplay_at {used : ℕ} {l : Lexeme} {ls : List Lexeme} {s : Parser} (h : Read globalVariable used l ls s) :
    ∃ s', tokenReplay s = some ((), s') ∧ At globalVariable used (l :: ls) s' := by
  refine ⟨{ s with replay := true }, rfl, ?_, h.used, h.errno, h.globalVariable⟩
  have hup := h.upcoming
  rw [Parser.upcoming, h.replay] at hup
  simp only [Parser.upcoming, if_true, h.current]
  exact congrArg _ hup

theorem Gives.bind {α β : Type} {m : P α} {f : α → P β} {u u' u'' : ℕ} {ls ls' ls'' : List Lexeme} {a : α} {b : β}
    (hm : Gives globalVariable m u ls a u' ls') (hf : Gives globalVariable (f a) u' ls' b u'' ls'') :
    Gives globalVariable (m >>= f) u ls b u'' ls'' := by
  intro s hs
  obtain ⟨s1, h1, hs1⟩ := hm s hs
  obtain ⟨s2, h2, hs2⟩ := hf s1 hs1
  exact ⟨s2, (bind_eq h1).trans h2, hs2⟩

theorem Gives.pure {α : Type} (a : α) (u : ℕ) (ls : List Lexeme) :
    Gives globalVariable (Pure.pure a : P α) u ls a u ls :=
  fun s hs => ⟨s, rfl, hs⟩

theorem nextToken_gives {l : Lexeme} (hl : l.error = none) (u : ℕ) (ls : List Lexeme) :
    Gives globalVariable nextToken u (l :: ls) l.token u ls := by
  intro s hs
  obtain ⟨s', hnext, hread⟩ := nextToken_read hs hl
  exact ⟨s', hnext, hread.toAt⟩

theorem Gives.peek {α : Type} {m : P α} {f : TokenType → P α} {u u' : ℕ} {l : Lexeme} {ls ls' : List Lexeme} {a : α}
    (hl : l.error = none) (hf : f l.token = tokenReplay >>= fun _ => m)
    (hm : Gives globalVariable m u (l :: ls) a u' ls') :
    Gives globalVariable (nextToken >>= f) u (l :: ls) a u' ls' := by
  intro s hs
  obtain ⟨s1, h1, hs1⟩ := nextToken_read hs hl
  obtain ⟨s2, h2, hs2⟩ := tokenReplay_at hs1
  obtain ⟨s3, h3, hs3⟩ := hm s2 hs2
  refine ⟨s3, (bind_eq h1).trans ?_, hs3⟩
  rw [hf, bind_eq h2, h3]

theorem finshNodeAllocate_gives (type : NodeType) {u : ℕ} (hu : u < finshNodeMax) (ls : List Lexeme) :
    Gives globalVariable (finshNodeAllocate type) u ls (some (plainNode type)) (u + 1) ls := by
  intro s hs
  have hne : s.used ≠ finshNodeMax := by
    rw [hs.used]
    exact hu.ne
  refine ⟨{ s with used := s.used + 1 }, ?_, hs.upcoming, congrArg (· + 1) hs.used, hs.errno, hs.globalVariable⟩
  unfold finshNodeAllocate
  rw [bind_eq (rfl : (get : P Parser) s = some (s, s)), if_neg hne]
  rfl

theorem finshNodeNewValue_gives (type : NodeType) (v : Word) {u : ℕ} (hu : u < finshNodeMax) (ls : List Lexeme) :
    Gives globalVariable (finshNodeNewValue type v) u ls (.node ⟨type, 0, 0, v, none⟩ .null .null) (u + 1) ls :=
  (finshNodeAllocate_gives type hu ls).bind (Gives.pure _ _ _)

theorem makeSysNode_gives (type : NodeType) {node1 : Tree} (hnode : node1 ≠ .null) (node2 : Tree) {u : ℕ}
    (hu : u < finshNodeMax) (ls : List Lexeme) :
    Gives globalVariable (makeSysNode type node1 node2) u ls (.node (plainNode type) (node1.setSibling node2) .null)
      (u + 1) ls := by
  refine (finshNodeAllocate_gives type hu ls).bind ?_
  cases node1 with
  | null => exact absurd rfl hnode
  | node n child sibling => exact Gives.pure _ _ _

/-! ### Operands -/

theorem finshVarLookup_take (name : List Char) :
    finshVarLookup globalVariable (name.take finshNameMax) = finshVarLookup globalVariable name := by
  simp only [finshVarLookup, List.take_take, min_self]

/-- The tokens that may follow an expression of level `k`: those that do not go on with one of its level. -/
def TokenType.continues : TokenType → Option ℕ
  | .assign => some 0
  | .or => some 1
  | .xor => some 2
  | .and => some 3
  | .shl | .shr => some 4
  | .add | .sub => some 5
  | .mul | .div | .mod => some 6
  | .inc | .dec | .leftParen => some 8
  | _ => none

def TokenType.Ends (t : TokenType) (k : ℕ) : Prop := ∀ j, t.continues = some j → j < k

theorem TokenType.Ends.mono {t : TokenType} {k j : ℕ} (h : t.Ends k) (hkj : k ≤ j) : t.Ends j :=
  fun i hi => (h i hi).trans_le hkj

theorem BinOp.ends (op : BinOp) : op.token.Ends (op.level + 1) := by
  intro j hj
  cases op <;> cases hj <;> decide

section Operands

variable (sym : Symbols)

theorem finshNodeNewId_gives {l : Lexeme} {x : IntVar globalVariable} (hl : l.Names globalVariable x) {u : ℕ}
    (hu : u < finshNodeMax) (ls : List Lexeme) :
    Gives globalVariable (finshNodeNewId sym (l.string.take finshNameMax)) u ls (variableTree x) (u + 1) ls := by
  intro s hs
  obtain ⟨s1, h1, hs1⟩ := finshNodeAllocate_gives .id hu ls s hs
  refine ⟨s1, ?_, hs1⟩
  unfold finshNodeNewId
  rw [bind_eq (rfl : (get : P Parser) s = some (s, s)), hs.globalVariable, finshVarLookup_take, hl.2]
  exact bind_eq h1

theorem procIdentifier_gives {l : Lexeme} (hl : l.Is .identifier) (u : ℕ) (ls : List Lexeme) :
    Gives globalVariable procIdentifier u (l :: ls) (l.string.take finshNameMax) u ls := by
  intro s hs
  obtain ⟨s1, h1, hs1⟩ := nextToken_read hs hl.2
  refine ⟨s1, ?_, hs1.toAt⟩
  have hmatch : matchToken .identifier s = some ((), s1) := by
    unfold matchToken
    rw [bind_eq h1, hl.1]
    rfl
  unfold procIdentifier
  rw [bind_eq hmatch, bind_eq (rfl : (get : P Parser) s1 = some (s1, s1)), hs1.current]
  rfl

theorem procPrimaryExpr_variable {l : Lexeme} {x : IntVar globalVariable} (hl : l.Names globalVariable x) (assign : P Tree)
    {u : ℕ} (hu : u < finshNodeMax) (ls : List Lexeme) :
    Gives globalVariable (procPrimaryExpr sym assign) u (l :: ls) (variableTree x) (u + 1) ls := by
  intro s hs
  obtain ⟨s1, h1, hs1⟩ := nextToken_read hs hl.1.2
  obtain ⟨s2, h2, hs2⟩ := tokenReplay_at hs1
  obtain ⟨s3, h3, hs3⟩ := ((procIdentifier_gives hl.1 u ls).bind (finshNodeNewId_gives sym hl hu ls)) s2 hs2
  refine ⟨s3, ?_, hs3⟩
  unfold procPrimaryExpr
  rw [bind_eq h1, bind_eq (rfl : (get : P Parser) s1 = some (s1, s1)), hl.1.1]
  exact (bind_eq h2).trans h3

theorem procPrimaryExpr_const {l : Lexeme} (long : Bool) (hl : l.Is (if long then .valueLong else .valueInt))
    (assign : P Tree) {u : ℕ} (hu : u < finshNodeMax) (ls : List Lexeme) :
    Gives globalVariable (procPrimaryExpr sym assign) u (l :: ls) (valueTree long l.value) (u + 1) ls := by
  intro s hs
  obtain ⟨s1, h1, hs1⟩ := nextToken_read hs hl.2
  obtain ⟨s2, h2, hs2⟩ := finshNodeNewValue_gives (if long then .valueLong else .valueInt) l.value hu ls s1 hs1.toAt
  refine ⟨s2, ?_, hs2⟩
  unfold procPrimaryExpr
  rw [bind_eq h1, bind_eq (rfl : (get : P Parser) s1 = some (s1, s1)), hl.1, hs1.current]
  cases long with
  | true => exact h2
  | false => exact h2

theorem procPostfixLoop_stops {l : Lexeme} (hl : l.error = none) (hends : l.token.Ends 8) (assign : P Tree) (n : ℕ)
    (node : Tree) (u : ℕ) (ls : List Lexeme) :
    Gives globalVariable (nextToken >>= fun token => procPostfixLoop assign (n + 1) node token) u (l :: ls) node u
      (l :: ls) := by
  refine Gives.peek hl ?_ (Gives.pure node u (l :: ls))
  have hno : ∀ j, l.token.continues = some j → j < 8 := hends
  unfold procPostfixLoop
  split
  · next h =>
    rw [h] at hno
    exact absurd (hno 8 rfl) (lt_irrefl 8)
  · next h =>
    rw [h] at hno
    exact absurd (hno 8 rfl) (lt_irrefl 8)
  · next h =>
    rw [h] at hno
    exact absurd (hno 8 rfl) (lt_irrefl 8)
  · rfl

theorem procPostfixLoop_step (op : StepOp) {o : Lexeme} (ho : o.Is op.token) (assign : P Tree) (n : ℕ)
    {node : Tree} (hnode : node ≠ .null) {l : Lexeme} (hl : l.error = none) (hends : l.token.Ends 8) {u : ℕ}
    (hu : u < finshNodeMax) (ls : List Lexeme) :
    Gives globalVariable (nextToken >>= fun token => procPostfixLoop assign (n + 2) node token) u (o :: l :: ls)
      (.node (plainNode op.postType) (node.setSibling .null) .null) (u + 1) (l :: ls) := by
  refine (nextToken_gives ho.2 u (l :: ls)).bind ?_
  rw [ho.1]
  cases op
  all_goals
    exact (makeSysNode_gives _ hnode .null hu (l :: ls)).bind (procPostfixLoop_stops hl hends assign n _ _ ls)

/-! ### Levels -/

/-- The operators of a level of the parser. -/
def levelOp : ℕ → TokenType → Option NodeType
  | 1 => inclusiveOrOp
  | 2 => exclusiveOrOp
  | 3 => andOp
  | 4 => shiftOp
  | 5 => additiveOp
  | 6 => multiplicativeOp
  | _ => fun _ => none

/-- The function of the parser for each level, where `proc_cast_expr` has fuel `n`. -/
def procLevel (n : ℕ) : ℕ → P Tree
  | 1 => procInclusiveOrExpr (procCastExpr sym n) n
  | 2 => procExclusiveOrExpr (procCastExpr sym n) n
  | 3 => procAndExpr (procCastExpr sym n) n
  | 4 => procShiftExpr (procCastExpr sym n) n
  | 5 => procAdditiveExpr (procCastExpr sym n) n
  | 6 => procMultiplicativeExpr (procCastExpr sym n) n
  | 7 => procCastExpr sym n
  | _ => procPostfixExpr sym (procAssignExpr sym (n - 1)) (n - 1)

theorem procLevel_eq (n : ℕ) {k : ℕ} (hk : 1 ≤ k) (hk6 : k ≤ 6) :
    procLevel sym n k = procBinaryExpr (procLevel sym n (k + 1)) (levelOp k) n := by
  interval_cases k <;> rfl

theorem levelOp_token (op : BinOp) : levelOp op.level op.token = some op.nodeType := by
  cases op <;> rfl

theorem BinOp.level_pos (op : BinOp) : 1 ≤ op.level := by
  cases op <;> decide

theorem BinOp.level_le (op : BinOp) : op.level ≤ 6 := by
  cases op <;> decide

theorem levelOp_ends {t : TokenType} {k : ℕ} (ht : t.Ends k) : levelOp k t = none := by
  unfold TokenType.Ends at ht
  unfold levelOp
  split
  all_goals
    cases t
    all_goals first
      | rfl
      | exact absurd (ht _ rfl) (by decide)

theorem procBinaryLoop_stops (operand : P Tree) {op : TokenType → Option NodeType} {l : Lexeme} (hop : op l.token = none)
    (n : ℕ) (left : Tree) {used : ℕ} {ls : List Lexeme} {s : Parser} (h : Read globalVariable used l ls s) :
    ∃ s', procBinaryLoop operand op (n + 1) left l.token s = some (left, s') ∧ At globalVariable used (l :: ls) s' := by
  obtain ⟨s', h', hs'⟩ := tokenReplay_at h
  refine ⟨s', ?_, hs'⟩
  simp only [procBinaryLoop, hop]
  exact bind_eq h'

/-- Before a token that ends level `k`, the function of the level gives the tree of `e`. -/
def Parses (globalVariable : Fin finshVariableMax → Var) (k : ℕ) (ls : List Lexeme) (e : Expr (IntVar globalVariable)) : Prop :=
  ∀ n, ls.length < n → ∀ (l : Lexeme) (rest : List Lexeme) (u : ℕ), l.error = none → l.token.Ends k →
    u + e.nodes ≤ finshNodeMax →
      Gives globalVariable (procLevel sym n k) u (ls ++ l :: rest) e.tree (u + e.nodes) (l :: rest)

/-- Before a token that ends the next level, the function of level `k` comes to its loop, with the tree of
`e` and with fuel left. -/
def Loops (globalVariable : Fin finshVariableMax → Var) (k : ℕ) (ls : List Lexeme) (e : Expr (IntVar globalVariable)) : Prop :=
  ∀ n, ls.length < n → ∀ (l : Lexeme) (rest : List Lexeme) (u : ℕ), l.error = none → l.token.Ends (k + 1) →
    u + e.nodes ≤ finshNodeMax → ∀ s, At globalVariable u (ls ++ l :: rest) s →
      ∃ m s', n < m + ls.length + 1 ∧ Read globalVariable (u + e.nodes) l rest s' ∧
        procLevel sym n k s = procBinaryLoop (procLevel sym n (k + 1)) (levelOp k) (m + 1) e.tree l.token s'

variable {sym}

theorem Loops.parses {k : ℕ} {ls : List Lexeme} {e : Expr (IntVar globalVariable)} (h : Loops sym globalVariable k ls e) :
    Parses sym globalVariable k ls e := by
  intro n hn l rest u hl hends hu s hs
  obtain ⟨m, s1, -, hs1, heq⟩ := h n hn l rest u hl (hends.mono (Nat.le_succ k)) hu s hs
  obtain ⟨s2, h2, hs2⟩ := procBinaryLoop_stops (procLevel sym n (k + 1)) (levelOp_ends hends) m e.tree hs1
  exact ⟨s2, heq.trans h2, hs2⟩

theorem Parses.loops {k : ℕ} (hk : 1 ≤ k) (hk6 : k ≤ 6) {ls : List Lexeme} (hls : ls ≠ [])
    {e : Expr (IntVar globalVariable)} (h : Parses sym globalVariable (k + 1) ls e) : Loops sym globalVariable k ls e := by
  intro n hn l rest u hl hends hu s hs
  obtain ⟨s1, h1, hs1⟩ := h n hn l rest u hl hends hu s hs
  obtain ⟨s2, h2, hs2⟩ := nextToken_read hs1 hl
  have hpos := List.length_pos_of_ne_nil hls
  obtain ⟨m, rfl⟩ : ∃ m, n = m + 1 := ⟨n - 1, by omega⟩
  refine ⟨m, s2, by omega, hs2, ?_⟩
  rw [procLevel_eq sym (m + 1) hk hk6, procBinaryExpr, bind_eq h1, bind_eq h2]

theorem Loops.binary {op : BinOp} {o : Lexeme} {ls ms : List Lexeme} {a b : Expr (IntVar globalVariable)}
    (ho : o.Is op.token) (hms : ms ≠ []) (ha : Loops sym globalVariable op.level ls a)
    (hb : Parses sym globalVariable (op.level + 1) ms b) :
    Loops sym globalVariable op.level (ls ++ o :: ms) (.binary op a b) := by
  intro n hn l rest u hl hends hu s hs
  simp only [List.length_append, List.length_cons] at hn
  simp only [Expr.nodes] at hu ⊢
  have hposm := List.length_pos_of_ne_nil hms
  rw [List.append_assoc, List.cons_append] at hs
  obtain ⟨m, s1, hm, hs1, heq⟩ := ha n (by omega) o (ms ++ l :: rest) u ho.2 (ho.1 ▸ op.ends) (by omega) s hs
  obtain ⟨s2, h2, hs2⟩ := hb n (by omega) l rest (u + a.nodes) hl hends (by omega) s1 hs1.toAt
  obtain ⟨na, ca, hna⟩ := a.tree_eq
  obtain ⟨nb, cb, hnb⟩ := b.tree_eq
  have hjoin : Gives globalVariable (joinOperand op.nodeType a.tree b.tree) (u + a.nodes + b.nodes) (l :: rest)
      (Expr.binary op a b).tree (u + a.nodes + b.nodes + 1) (l :: rest) := by
    simp only [Expr.tree, hna, hnb]
    exact makeSysNode_gives op.nodeType Tree.noConfusion _ (by omega) (l :: rest)
  obtain ⟨s3, h3, hs3⟩ := hjoin s2 hs2
  obtain ⟨s4, h4, hs4⟩ := nextToken_read hs3 hl
  obtain ⟨m, rfl⟩ : ∃ m', m = m' + 1 := ⟨m - 1, by omega⟩
  refine ⟨m, s4, ?_, ?_, ?_⟩
  · simp only [List.length_append, List.length_cons]
    omega
  · rw [← Nat.add_assoc, ← Nat.add_assoc]
    exact hs4
  · rw [heq, ho.1]
    conv_lhs => unfold procBinaryLoop
    simp only [levelOp_token]
    rw [bind_eq h2, bind_eq h3, bind_eq h4]

end Operands

/-! ### Expressions -/

section Expressions

variable (sym : Symbols)

/-- An expression starts with none of the tokens that the parser treats in another way. -/
def TokenType.Starts (t : TokenType) : Prop :=
  t.baseType = none ∧ t ≠ .unsigned ∧ t ≠ .leftParen ∧ t ≠ .semicolon ∧ t ≠ .eof ∧ t ≠ .bad

def TokenType.StartsOperand (t : TokenType) : Prop := t = .identifier ∨ t = .valueInt ∨ t = .valueLong

theorem TokenType.StartsOperand.starts {t : TokenType} (h : t.StartsOperand) : t.Starts := by
  rcases h with rfl | rfl | rfl <;> exact ⟨rfl, by decide, by decide, by decide, by decide, by decide⟩

theorem Derives.head {k : ℕ} {ls : List Lexeme} {e : Expr (IntVar globalVariable)} (h : Derives globalVariable k ls e) :
    ∃ l ls', ls = l :: ls' ∧ l.error = none ∧ l.token.Starts ∧ (k = 8 → l.token.StartsOperand) := by
  induction h with
  | lift hk h ih =>
    obtain ⟨l, ls', rfl, herr, hstarts, -⟩ := ih
    exact ⟨l, ls', rfl, herr, hstarts, fun h8 => absurd h8 hk.ne⟩
  | @assign x l o ls e hl ho h ih =>
    have hstart : l.token.StartsOperand := .inl hl.1.1
    exact ⟨l, _, rfl, hl.1.2, hstart.starts, fun _ => hstart⟩
  | @binary op o ls ms a b ho ha hb iha ihb =>
    obtain ⟨l, ls', rfl, herr, hstarts, -⟩ := iha
    exact ⟨l, _, rfl, herr, hstarts, fun h8 => absurd h8 (op.level_le.trans_lt (by decide)).ne⟩
  | @unary op o ls e ho h ih =>
    refine ⟨o, _, rfl, ho.2, ?_, fun h8 => by cases h8⟩
    rw [ho.1]
    cases op <;> exact ⟨rfl, by decide, by decide, by decide, by decide, by decide⟩
  | @pre op o l x ho hl =>
    refine ⟨o, _, rfl, ho.2, ?_, fun h8 => by cases h8⟩
    rw [ho.1]
    cases op <;> exact ⟨rfl, by decide, by decide, by decide, by decide, by decide⟩
  | @post op l o x hl ho =>
    have hstart : l.token.StartsOperand := .inl hl.1.1
    exact ⟨l, _, rfl, hl.1.2, hstart.starts, fun _ => hstart⟩
  | @var l x hl =>
    have hstart : l.token.StartsOperand := .inl hl.1.1
    exact ⟨l, _, rfl, hl.1.2, hstart.starts, fun _ => hstart⟩
  | @const l long hl =>
    have hstart : l.token.StartsOperand := by
      rw [hl.1]
      cases long with
      | true => exact .inr (.inr rfl)
      | false => exact .inr (.inl rfl)
    exact ⟨l, _, rfl, hl.2, hstart.starts, fun _ => hstart⟩

/-- Without a parenthesis, `proc_cast_expr` is `proc_unary_expr`. -/
theorem procCastExpr_gives {n u u' : ℕ} {l : Lexeme} {ls ls' : List Lexeme} {t : Tree} (hl : l.error = none)
    (hstarts : l.token.Starts)
    (h : Gives globalVariable (procUnaryExpr sym (procCastExpr sym n) (procAssignExpr sym n) n) u (l :: ls) t u' ls') :
    Gives globalVariable (procCastExpr sym (n + 1)) u (l :: ls) t u' ls' := by
  rw [procCastExpr]
  exact Gives.peek hl (if_neg hstarts.2.2.1) h

/-- Before an operand, `proc_unary_expr` is `proc_postfix_expr`. -/
theorem procUnaryExpr_operand {cast assign : P Tree} {n u u' : ℕ} {l : Lexeme} {ls ls' : List Lexeme} {t : Tree}
    (hl : l.error = none) (hstarts : l.token.StartsOperand)
    (h : Gives globalVariable (procPostfixExpr sym assign n) u (l :: ls) t u' ls') :
    Gives globalVariable (procUnaryExpr sym cast assign n) u (l :: ls) t u' ls' := by
  refine Gives.peek hl ?_ h
  rcases hstarts with hs | hs | hs <;> rw [hs]

theorem procUnaryExpr_unary (op : UnaryOp) {o : Lexeme} (ho : o.Is op.token) {cast assign : P Tree} {n u : ℕ}
    {ls ls' : List Lexeme} {e : Expr (IntVar globalVariable)} (hu : u + (Expr.unary op e).nodes ≤ finshNodeMax)
    (h : Gives globalVariable cast u ls e.tree (u + e.nodes) ls') :
    Gives globalVariable (procUnaryExpr sym cast assign n) u (o :: ls) (Expr.unary op e).tree
      (u + (Expr.unary op e).nodes) ls' := by
  obtain ⟨ne, ce, hne⟩ := e.tree_eq
  refine (nextToken_gives ho.2 u ls).bind ?_
  rw [ho.1]
  cases op with
  | plus => exact h
  | minus =>
    simp only [Expr.nodes] at hu
    refine h.bind ((finshNodeNewValue_gives .valueLong 0 (by omega) ls').bind ?_)
    exact makeSysNode_gives .sysSub Tree.noConfusion e.tree (by omega) ls'
  | bitwise =>
    simp only [Expr.nodes] at hu
    refine h.bind ?_
    have hnode := @makeSysNode_gives globalVariable .sysBitwise e.tree (by rw [hne]; exact Tree.noConfusion) .null
      (u + e.nodes) (by omega) ls'
    rw [e.tree_setSibling_null] at hnode
    exact hnode

theorem procUnaryExpr_pre (op : StepOp) {o : Lexeme} (ho : o.Is op.token) {cast assign : P Tree} {n u : ℕ}
    {ls ls' : List Lexeme} {x : IntVar globalVariable} (hu : u + 2 ≤ finshNodeMax)
    (h : Gives globalVariable cast u ls (variableTree x) (u + 1) ls') :
    Gives globalVariable (procUnaryExpr sym cast assign n) u (o :: ls) (Expr.pre op x).tree (u + 2) ls' := by
  refine (nextToken_gives ho.2 u ls).bind ?_
  rw [ho.1]
  cases op
  all_goals exact h.bind (makeSysNode_gives _ Tree.noConfusion .null (by omega) ls')

variable {sym}

theorem parses_operand {l : Lexeme} {e : Expr (IntVar globalVariable)} (hnodes : e.nodes = 1)
    (h : ∀ (assign : P Tree) (u : ℕ), u < finshNodeMax → ∀ ls,
      Gives globalVariable (procPrimaryExpr sym assign) u (l :: ls) e.tree (u + 1) ls) :
    Parses sym globalVariable 8 [l] e := by
  intro n hn m rest u hm hends hu
  rw [List.length_singleton] at hn
  rw [hnodes] at hu ⊢
  obtain ⟨n, rfl⟩ : ∃ n', n = n' + 2 := ⟨n - 2, by omega⟩
  exact (h _ u (by omega) (m :: rest)).bind (procPostfixLoop_stops hm hends _ n _ _ rest)

theorem parses_variable {l : Lexeme} {x : IntVar globalVariable} (hl : l.Names globalVariable x) :
    Parses sym globalVariable 8 [l] (.var x) :=
  parses_operand rfl fun assign _ hu ls => procPrimaryExpr_variable sym hl assign hu ls

theorem parses_post {l o : Lexeme} {x : IntVar globalVariable} (hl : l.Names globalVariable x) {op : StepOp}
    (ho : o.Is op.token) : Parses sym globalVariable 8 [l, o] (.post op x) := by
  intro n hn m rest u hm hends hu
  simp only [List.length_cons, List.length_nil] at hn
  simp only [Expr.nodes] at hu
  obtain ⟨n, rfl⟩ : ∃ n', n = n' + 3 := ⟨n - 3, by omega⟩
  refine (procPrimaryExpr_variable sym hl _ (by omega) (o :: m :: rest)).bind ?_
  exact procPostfixLoop_step op ho _ n Tree.noConfusion hm hends (by omega) rest

theorem Parses.cast {l : Lexeme} {ls : List Lexeme} {e : Expr (IntVar globalVariable)}
    (h : Parses sym globalVariable 8 (l :: ls) e) (hl : l.error = none) (hstarts : l.token.StartsOperand) :
    Parses sym globalVariable 7 (l :: ls) e := by
  intro n hn m rest u hm hends hu
  obtain ⟨n, rfl⟩ : ∃ n', n = n' + 1 := ⟨n - 1, by omega⟩
  refine procCastExpr_gives sym hl hstarts.starts (procUnaryExpr_operand sym hl hstarts ?_)
  exact h (n + 1) hn m rest u hm (hends.mono (by decide)) hu

theorem Derives.parses {k : ℕ} {ls : List Lexeme} {e : Expr (IntVar globalVariable)} (h : Derives globalVariable k ls e) :
    1 ≤ k → Parses sym globalVariable k ls e ∧ (k ≤ 6 → Loops sym globalVariable k ls e) := by
  induction h with
  | @lift k ls e hk h ih =>
    intro hpos
    have hparses := (ih (Nat.succ_pos k)).1
    obtain ⟨l, ls', rfl, herr, -, hoperand⟩ := h.head
    by_cases hk6 : k ≤ 6
    · have hloops := hparses.loops hpos hk6 (List.cons_ne_nil l ls')
      exact ⟨hloops.parses, fun _ => hloops⟩
    · obtain rfl : k = 7 := by omega
      exact ⟨hparses.cast herr (hoperand rfl), fun h7 => absurd h7 hk6⟩
  | assign hl ho h ih => exact fun hpos => absurd hpos (by decide)
  | @binary op o ls ms a b ho ha hb iha ihb =>
    intro hpos
    obtain ⟨m, ms', rfl, -⟩ := hb.head
    have hloops := ((iha op.level_pos).2 op.level_le).binary ho (List.cons_ne_nil m ms') (ihb (Nat.succ_pos _)).1
    exact ⟨hloops.parses, fun _ => hloops⟩
  | @unary op o ls e ho h ih =>
    refine fun hpos => ⟨fun n hn m rest u hm hends hu => ?_, fun h7 => absurd h7 (by decide)⟩
    obtain ⟨o', ls', he, herr, hstarts, -⟩ := (Derives.unary ho h).head
    cases he
    rw [List.length_cons] at hn
    obtain ⟨n, rfl⟩ : ∃ n', n = n' + 1 := ⟨n - 1, by omega⟩
    have hle : u + e.nodes ≤ finshNodeMax := by
      cases op <;> simp only [Expr.nodes] at hu <;> omega
    exact procCastExpr_gives sym herr hstarts
      (procUnaryExpr_unary sym op ho hu ((ih hpos).1 n (by omega) m rest u hm hends hle))
  | @pre op o l x ho hl =>
    refine fun hpos => ⟨fun n hn m rest u hm hends hu => ?_, fun h7 => absurd h7 (by decide)⟩
    obtain ⟨o', ls', he, herr, hstarts, -⟩ := (Derives.pre ho hl).head
    cases he
    simp only [List.length_cons, List.length_nil] at hn
    simp only [Expr.nodes] at hu
    obtain ⟨n, rfl⟩ : ∃ n', n = n' + 1 := ⟨n - 1, by omega⟩
    have hvar : Parses sym globalVariable 7 [l] (.var x) := (parses_variable hl).cast hl.1.2 (.inl hl.1.1)
    have hle : u + (Expr.var x).nodes ≤ finshNodeMax := by
      simp only [Expr.nodes]
      omega
    exact procCastExpr_gives sym herr hstarts
      (procUnaryExpr_pre sym op ho hu (hvar n (by simp only [List.length_singleton]; omega) m rest u hm hends hle))
  | post hl ho => exact fun _ => ⟨parses_post hl ho, fun h8 => absurd h8 (by decide)⟩
  | var hl => exact fun _ => ⟨parses_variable hl, fun h8 => absurd h8 (by decide)⟩
  | const long hl =>
    exact fun _ => ⟨parses_operand rfl fun assign _ hu ls => procPrimaryExpr_const sym long hl assign hu ls,
      fun h8 => absurd h8 (by decide)⟩

variable (sym)

theorem Derives.parses_assign {k : ℕ} {ls : List Lexeme} {e : Expr (IntVar globalVariable)}
    (h : Derives globalVariable k ls e) : k = 0 → ∀ n, ls.length + 1 < n → ∀ (l : Lexeme) (rest : List Lexeme) (u : ℕ),
      l.error = none → l.token.Ends 0 → u + e.nodes ≤ finshNodeMax →
        Gives globalVariable (procAssignExpr sym n) u (ls ++ l :: rest) e.tree (u + e.nodes) (l :: rest) := by
  induction h with
  | @lift k ls e hk h ih =>
    rintro rfl n hn l rest u hl hends hu
    obtain ⟨n, rfl⟩ : ∃ n', n = n' + 1 := ⟨n - 1, by omega⟩
    rw [procAssignExpr]
    refine ((h.parses le_rfl).1 n (by omega) l rest u hl (hends.mono (Nat.zero_le 1)) hu).bind ?_
    refine Gives.peek hl (if_neg ?_) (Gives.pure _ _ _)
    intro heq
    exact absurd (hends 0 (by rw [heq]; rfl)) (lt_irrefl 0)
  | @assign x l o ls e hl ho h ih =>
    rintro - n hn m rest u hm hends hu
    simp only [List.length_cons] at hn
    simp only [Expr.nodes] at hu ⊢
    obtain ⟨n, rfl⟩ : ∃ n', n = n' + 1 := ⟨n - 1, by omega⟩
    have hvar : Derives globalVariable 1 [l] (.var x) := by
      iterate 7 refine .lift (by decide) ?_
      exact .var hl
    have hends' : o.token.Ends 1 := by
      intro j hj
      rw [ho.1] at hj
      cases hj
      exact Nat.one_pos
    have hle : u + (Expr.var x).nodes ≤ finshNodeMax := by
      simp only [Expr.nodes]
      omega
    rw [procAssignExpr]
    refine ((hvar.parses le_rfl).1 n (by simp only [List.length_singleton]; omega) o (ls ++ m :: rest) u ho.2 hends' hle).bind ?_
    refine (nextToken_gives ho.2 _ _).bind ?_
    rw [ho.1, if_pos rfl]
    refine (ih rfl n (by omega) m rest (u + 1) hm hends (by omega)).bind ?_
    have hnode := @makeSysNode_gives globalVariable .sysAssign (variableTree x) Tree.noConfusion e.tree (u + 1 + e.nodes)
      (by omega) (m :: rest)
    have he : u + (e.nodes + 2) = u + 1 + e.nodes + 1 := by omega
    rw [he]
    exact hnode
  | @binary op o ls ms a b ho ha hb iha ihb => exact fun hk => absurd hk (Nat.pos_iff_ne_zero.mp op.level_pos)
  | unary ho h ih => exact fun hk => by cases hk
  | pre ho hl => exact fun hk => by cases hk
  | post hl ho => exact fun hk => by cases hk
  | var hl => exact fun hk => by cases hk
  | const long hl => exact fun hk => by cases hk

/-! ### Lines -/

theorem ends_semicolon {o : Lexeme} (ho : o.Is .semicolon) : o.token.Ends 0 := by
  intro j hj
  rw [ho.1] at hj
  cases hj

theorem procStatement_gives {ls : List Lexeme} {e : Expr (IntVar globalVariable)} (h : Derives globalVariable 0 ls e)
    {o : Lexeme} (ho : o.Is .semicolon) {n : ℕ} (hn : ls.length + 1 < n) (rest : List Lexeme) {u : ℕ}
    (hu : u + e.nodes ≤ finshNodeMax) {l : Lexeme} {ls' : List Lexeme} (hls : ls = l :: ls') :
    Gives globalVariable (procStatement sym n l.token) u (ls ++ o :: rest) e.tree (u + e.nodes) rest := by
  obtain ⟨m, ms, he, herr, hstarts, -⟩ := h.head
  rw [hls] at he
  cases he
  have htype : ¬(l.token.baseType.isSome = true ∨ l.token = .unsigned) := by
    rw [hstarts.1]
    exact not_or.mpr ⟨Bool.false_ne_true, hstarts.2.1⟩
  have hexpr := h.parses_assign sym rfl n hn o rest u ho.2 (ends_semicolon ho) hu
  have hmatch : Gives globalVariable (matchToken .semicolon) (u + e.nodes) (o :: rest) () (u + e.nodes) rest := by
    refine (nextToken_gives ho.2 _ _).bind ?_
    rw [ho.1]
    exact Gives.pure _ _ _
  rw [procStatement, if_neg htype]
  unfold procExprStatement
  rw [hls] at hexpr ⊢
  exact Gives.peek herr (if_neg hstarts.2.2.2.1) (hexpr.bind (hmatch.bind (Gives.pure _ _ _)))

theorem nextToken_eof {used : ℕ} {s : Parser} (h : At globalVariable used [] s) :
    ∃ s', nextToken s = some (.eof, s') ∧ s'.errno = none := by
  obtain ⟨hup, hused, herrno, hvars⟩ := h
  obtain ⟨rest, c, r, u, e, v⟩ := s
  cases r with
  | true =>
    simp only [Parser.upcoming, if_true] at hup
    cases hup
  | false =>
    simp only [Parser.upcoming, Bool.false_eq_true, if_false] at hup
    subst hup
    exact ⟨_, nextToken_eq _, herrno⟩

theorem finshParserLoop_gives {line : List Lexeme} {es : List (Expr (IntVar globalVariable))}
    (h : DerivesLine globalVariable line es) (fuel : ℕ) (hfuel : line.length < fuel) :
    ∀ (n : ℕ), line.length < n → ∀ (done : List Tree) (u : ℕ), u + (es.map Expr.nodes).sum ≤ finshNodeMax →
      ∀ s, At globalVariable u line s →
        ∃ s', (nextToken >>= fun token => finshParserLoop sym fuel n done token) s = some (done ++ es.map Expr.tree, s') ∧
          s'.errno = none := by
  induction h with
  | nil =>
    intro n hn done u hu s hs
    obtain ⟨s', hnext, herrno⟩ := nextToken_eof hs
    obtain ⟨n, rfl⟩ : ∃ n', n = n' + 1 := ⟨n - 1, by omega⟩
    refine ⟨s', ?_, herrno⟩
    rw [bind_eq hnext, List.map_nil, List.append_nil]
    rfl
  | @cons ls ms o e es h ho hs ih =>
    intro n hn done u hu s hs'
    simp only [List.map_cons, List.sum_cons] at hu
    simp only [List.length_append, List.length_cons] at hn hfuel
    obtain ⟨n, rfl⟩ : ∃ n', n = n' + 1 := ⟨n - 1, by omega⟩
    obtain ⟨l, ls', hls, herr, hstarts, -⟩ := h.head
    have hup : At globalVariable u (l :: (ls' ++ o :: ms)) s := by
      rw [hls] at hs'
      exact hs'
    obtain ⟨s1, h1, hs1⟩ := nextToken_read hup herr
    obtain ⟨s2, h2, hs2⟩ := tokenReplay_at hs1
    have hup2 : At globalVariable u (ls ++ o :: ms) s2 := by
      rw [hls]
      exact hs2
    obtain ⟨s3, h3, hs3⟩ := procStatement_gives sym h ho (n := fuel) (by omega) ms (by omega) hls s2 hup2
    obtain ⟨s4, h4, hs4⟩ := ih (by omega) n (by omega) (done ++ [e.tree]) (u + e.nodes) (by omega) s3 hs3
    have hend : ¬(l.token = .eof ∨ l.token = .bad) := not_or.mpr hstarts.2.2.2.2
    refine ⟨s4, ?_, hs4⟩
    rw [bind_eq h1]
    unfold finshParserLoop
    rw [if_neg hend, bind_eq h2, bind_eq h3]
    rw [List.map_cons, ← List.singleton_append, ← List.append_assoc, ← h4]
    obtain ⟨ne, ce, hne⟩ := e.tree_eq
    rw [hne]
    cases done <;> rfl

theorem finshParserRun_gives {line : List Lexeme} {es : List (Expr (IntVar globalVariable))}
    (h : DerivesLine globalVariable line es) (hnodes : (es.map Expr.nodes).sum ≤ finshNodeMax) {n : ℕ}
    (hn : line.length < n) :
    ∃ s, finshParserRun sym n (Parser.start globalVariable line) = some (Tree.link (es.map Expr.tree), s) ∧
      s.errno = none := by
  have hstart : At globalVariable 0 line (Parser.start globalVariable line) := ⟨rfl, rfl, rfl, rfl⟩
  obtain ⟨s, hs, herrno⟩ := finshParserLoop_gives sym h n hn n hn [] 0 (by omega) _ hstart
  refine ⟨s, ?_, herrno⟩
  have hrun : finshParserRun sym n =
      (nextToken >>= fun token => finshParserLoop sym n n [] token) >>= fun statements => pure (Tree.link statements) := by
    rw [finshParserRun, bind_assoc]
  rw [hrun, bind_eq hs, List.nil_append]
  rfl

end Expressions

end RtThread.Finsh
