import RtThread.Finsh.Node
import Mathlib

/-!
# FinSH: the parser (`finsh_parser.c`)

Each loop and each recursion of the source takes fuel; the six levels of binary operators are one loop.
-/

namespace RtThread.Finsh

/-- The macro `is_base_type`, with the type that `proc_type` gives for the token. -/
def TokenType.baseType : TokenType → Option FinshType
  | .void => some .void
  | .char => some .char
  | .short => some .short
  | .int => some .int
  | .long => some .long
  | _ => none

def FinshType.unsigned : FinshType → Option FinshType
  | .char => some .uchar
  | .short => some .ushort
  | .int => some .uint
  | .long => some .ulong
  | _ => none

def FinshType.pointer : FinshType → FinshType
  | .char | .uchar => .charp
  | .short | .ushort => .shortp
  | .int | .uint => .intp
  | .long | .ulong => .longp
  | _ => .voidp

def FinshType.toNat : FinshType → ℕ
  | .unknown => 0
  | .void => 1
  | .voidp => 2
  | .char => 3
  | .uchar => 4
  | .charp => 5
  | .short => 6
  | .ushort => 7
  | .shortp => 8
  | .int => 9
  | .uint => 10
  | .intp => 11
  | .long => 12
  | .ulong => 13
  | .longp => 14

/-- The star that may follow a type (`finsh_parser.c:329-365`). -/
def procPointer (type : FinshType) : P FinshType := do
  let token ← nextToken
  if token = .mul then return type.pointer
  else
    tokenReplay
    return type

/-- The label `__return` of `proc_type`. -/
def procTypeReturn : P FinshType := do
  tokenReplay
  errorSet .unknownType
  return .unknown

/-- `proc_type` (`finsh_parser.c:245-373`). -/
def procType : P FinshType := do
  let token ← nextToken
  match token.baseType with
  | some type => procPointer type
  | none =>
    if token = .unsigned then do
      let token ← nextToken
      match token.baseType with
      | some type =>
        match type.unsigned with
        | some type => procPointer type
        | none => procTypeReturn
      | none =>
        tokenReplay
        errorSet .expectType
        procPointer .unknown
    else procTypeReturn

/-- `proc_identifier` (`finsh_parser.c:378-387`). -/
def procIdentifier : P (List Char) := do
  matchToken .identifier
  let s ← get
  return s.current.string.take finshNameMax

/-- `make_sys_node` (`finsh_parser.c:880-894`). -/
def makeSysNode (type : NodeType) (node1 node2 : Tree) : P Tree := do
  let node ← finshNodeAllocate type
  match node, node1 with
  | some n, .node n1 child _ => return .node n (.node n1 child node2) .null
  | some n, .null =>
    errorSet .nullNode
    return .node n .null .null
  | none, _ =>
    errorSet .nullNode
    return .null

/-! ### Binary operators -/

/-- The right operand joins the tree, if there is one. -/
def joinOperand (type : NodeType) (left : Tree) : Tree → P Tree
  | .null => do
    errorSet .expectOperator
    return left
  | .node m child sibling => makeSysNode type left (.node m child sibling)

/-- The loop of a level, with the operand of the level above and the node of each of its operators. -/
def procBinaryLoop (operand : P Tree) (op : TokenType → Option NodeType) : ℕ → Tree → TokenType → P Tree
  | 0, _, _ => failure
  | n + 1, left, token =>
    match op token with
    | none => do
      tokenReplay
      return left
    | some type => do
      let right ← operand
      let left ← joinOperand type left right
      let token ← nextToken
      procBinaryLoop operand op n left token

def procBinaryExpr (operand : P Tree) (op : TokenType → Option NodeType) (n : ℕ) : P Tree := do
  let left ← operand
  let token ← nextToken
  procBinaryLoop operand op n left token

def multiplicativeOp : TokenType → Option NodeType
  | .mul => some .sysMul
  | .div => some .sysDiv
  | .mod => some .sysMod
  | _ => none

def additiveOp : TokenType → Option NodeType
  | .sub => some .sysSub
  | .add => some .sysAdd
  | _ => none

def shiftOp : TokenType → Option NodeType
  | .shl => some .sysShl
  | .shr => some .sysShr
  | _ => none

def andOp : TokenType → Option NodeType
  | .and => some .sysAnd
  | _ => none

def exclusiveOrOp : TokenType → Option NodeType
  | .xor => some .sysXor
  | _ => none

def inclusiveOrOp : TokenType → Option NodeType
  | .or => some .sysOr
  | _ => none

/-- `proc_multiplicative_expr` (`finsh_parser.c:604-644`); `cast` is `proc_cast_expr`. -/
def procMultiplicativeExpr (cast : P Tree) (n : ℕ) : P Tree := procBinaryExpr cast multiplicativeOp n

/-- `proc_additive_expr` (`finsh_parser.c:561-596`). -/
def procAdditiveExpr (cast : P Tree) (n : ℕ) : P Tree := procBinaryExpr (procMultiplicativeExpr cast n) additiveOp n

/-- `proc_shift_expr` (`finsh_parser.c:520-554`). -/
def procShiftExpr (cast : P Tree) (n : ℕ) : P Tree := procBinaryExpr (procAdditiveExpr cast n) shiftOp n

/-- `proc_and_expr` (`finsh_parser.c:492-513`). -/
def procAndExpr (cast : P Tree) (n : ℕ) : P Tree := procBinaryExpr (procShiftExpr cast n) andOp n

/-- `proc_exclusive_or_expr` (`finsh_parser.c:467-486`). -/
def procExclusiveOrExpr (cast : P Tree) (n : ℕ) : P Tree := procBinaryExpr (procAndExpr cast n) exclusiveOrOp n

/-- `proc_inclusive_or_expr` (`finsh_parser.c:441-461`). -/
def procInclusiveOrExpr (cast : P Tree) (n : ℕ) : P Tree := procBinaryExpr (procExclusiveOrExpr cast n) inclusiveOrOp n

/-! ### Unary operators -/

section Unary

variable (sym : Symbols)

/-- `proc_primary_expr` (`finsh_parser.c:790-838`); `expr` is `proc_expr`. -/
def procPrimaryExpr (expr : P Tree) : P Tree := do
  let token ← nextToken
  let s ← get
  match token with
  | .identifier =>
    tokenReplay
    let id ← procIdentifier
    finshNodeNewId sym id
  | .leftParen =>
    let e ← expr
    matchToken .rightParen
    return e
  | .valueInt => finshNodeNewInt s.current.value
  | .valueLong => finshNodeNewLong s.current.value
  | .valueChar => finshNodeNewChar (s.current.value.setWidth 8)
  | .valueString => finshNodeNewString sym s.current.string
  | .valueNull => finshNodeNewPtr 0
  | _ =>
    errorSet .invalidToken
    return .null

def joinParam (params : List Tree) : Tree → P (List Tree)
  | .null => do
    errorSet .expectOperator
    return params
  | .node m child sibling => return params ++ [.node m child sibling]

def procParamLoop (assign : P Tree) : ℕ → List Tree → TokenType → P Tree
  | 0, _, _ => failure
  | n + 1, params, token =>
    if token = .comma then do
      let param ← assign
      let params ← joinParam params param
      let token ← nextToken
      procParamLoop assign n params token
    else do
      tokenReplay
      return Tree.link params

/-- `proc_param_list` (`finsh_parser.c:845-869`). -/
def procParamList (assign : P Tree) (n : ℕ) : P Tree := do
  match ← assign with
  | .null => return .null
  | .node m child sibling =>
    let token ← nextToken
    procParamLoop assign n [.node m child sibling] token

/-- The arguments of a call with the parenthesis that closes them (`finsh_parser.c:761-771`). -/
def procArguments (assign : P Tree) (n : ℕ) : P Tree := do
  let token ← nextToken
  if token = .rightParen then return .null
  else
    tokenReplay
    let params ← procParamList assign n
    matchToken .rightParen
    return params

def procPostfixLoop (assign : P Tree) : ℕ → Tree → TokenType → P Tree
  | 0, _, _ => failure
  | n + 1, node, token =>
    match token with
    | .inc => do
      let node ← makeSysNode .sysInc node .null
      let token ← nextToken
      procPostfixLoop assign n node token
    | .dec => do
      let node ← makeSysNode .sysDec node .null
      let token ← nextToken
      procPostfixLoop assign n node token
    | .leftParen => do
      let params ← procArguments assign n
      let node ← makeSysNode .sysFunc node params
      let token ← nextToken
      procPostfixLoop assign n node token
    | _ => do
      tokenReplay
      return node

/-- `proc_postfix_expr` (`finsh_parser.c:736-783`). -/
def procPostfixExpr (assign : P Tree) (n : ℕ) : P Tree := do
  let node ← procPrimaryExpr sym assign
  let token ← nextToken
  procPostfixLoop assign n node token

/-- `proc_unary_expr` (`finsh_parser.c:691-731`). -/
def procUnaryExpr (cast assign : P Tree) (n : ℕ) : P Tree := do
  let token ← nextToken
  match token with
  | .add => cast
  | .inc =>
    let c ← cast
    makeSysNode .sysPreinc c .null
  | .sub =>
    let c ← cast
    let zero ← finshNodeNewLong 0
    makeSysNode .sysSub zero c
  | .dec =>
    let c ← cast
    makeSysNode .sysPredec c .null
  | .bitwise =>
    let c ← cast
    makeSysNode .sysBitwise c .null
  | .mul =>
    let c ← cast
    makeSysNode .sysGetvalue c .null
  | .and =>
    let c ← cast
    makeSysNode .sysGetaddr c .null
  | _ =>
    tokenReplay
    procPostfixExpr sym assign n

mutual

/-- `proc_cast_expr` (`finsh_parser.c:651-678`). -/
def procCastExpr : ℕ → P Tree
  | 0 => failure
  | n + 1 => do
    let token ← nextToken
    if token = .leftParen then
      let type ← procType
      matchToken .rightParen
      match ← procCastExpr n with
      | .node m child sibling => return .node { m with dataType := type.toNat } child sibling
      | .null =>
        tokenReplay
        procUnaryExpr sym (procCastExpr n) (procAssignExpr n) n
    else
      tokenReplay
      procUnaryExpr sym (procCastExpr n) (procAssignExpr n) n

/-- `proc_assign_expr` (`finsh_parser.c:423-435`). -/
def procAssignExpr : ℕ → P Tree
  | 0 => failure
  | n + 1 => do
    let left ← procInclusiveOrExpr (procCastExpr n) n
    let token ← nextToken
    if token = .assign then
      let right ← procAssignExpr n
      makeSysNode .sysAssign left right
    else
      tokenReplay
      return left

end

/-- `proc_expr` (`finsh_parser.c:413-416`). -/
def procExpr (n : ℕ) : P Tree := procAssignExpr sym n

/-! ### Statements -/

/-- `proc_expr_statement` (`finsh_parser.c:393-408`). -/
def procExprStatement (n : ℕ) : P Tree := do
  let token ← nextToken
  if token = .semicolon then return .null
  else
    tokenReplay
    let expr ← procExpr sym n
    matchToken .semicolon
    return expr

/-- The part of a declarator from its `=`, whose assignment is appended to `nodes`. -/
def procInitializer (n : ℕ) (id : List Char) (nodes : List Tree) (token : TokenType) : P (List Tree × TokenType) := do
  if token = .assign then
    match ← procAssignExpr sym n with
    | .null => return (nodes, token)
    | .node m child sibling =>
      let idnode ← finshNodeNewId sym id
      let node ← makeSysNode .sysAssign idnode (.node m child sibling)
      let token ← nextToken
      return (nodes ++ [node], token)
  else return (nodes, token)

def procDeclarators (fuel : ℕ) (type : FinshType) : ℕ → List Tree → TokenType → P Tree
  | 0, _, _ => failure
  | n + 1, nodes, token =>
    if token = .comma then do
      let id ← procIdentifier
      finshVarInsert id type
      let token ← nextToken
      let (nodes, token) ← procInitializer sym fuel id nodes token
      procDeclarators fuel type n nodes token
    else do
      checkToken token .semicolon
      return Tree.link nodes

/-- `proc_variable_decl` (`finsh_parser.c:76-235`). -/
def procVariableDecl (n : ℕ) : P Tree := do
  let type ← procType
  let id ← procIdentifier
  finshVarInsert id type
  let token ← nextToken
  match token with
  | .comma => procDeclarators sym n type n [] .comma
  | .assign =>
    let (nodes, token) ← procInitializer sym n id [] .assign
    procDeclarators sym n type n nodes token
  | .semicolon => return .null
  | _ =>
    errorSet .expectType
    return .null

def procStatement (n : ℕ) (token : TokenType) : P Tree :=
  if token.baseType.isSome ∨ token = .unsigned then procVariableDecl sym n else procExprStatement sym n

/-- The loop of `finsh_parser_run`, with the statements that the root reaches. -/
def finshParserLoop (fuel : ℕ) : ℕ → List Tree → TokenType → P (List Tree)
  | 0, _, _ => failure
  | n + 1, statements, token =>
    if token = .eof ∨ token = .bad then return statements
    else do
      tokenReplay
      match statements, ← procStatement sym fuel token with
      | [], .null => return []
      | statements, .node m child sibling =>
        let token ← nextToken
        finshParserLoop fuel n (statements ++ [.node m child sibling]) token
      | statements, .null =>
        -- the link that is written here is that of the last statement
        let statements := statements.dropLast ++ (statements.getLast?.map fun t => t.setSibling .null).toList
        if token.baseType.isSome ∨ token = .unsigned ∨ token = .identifier then
          let token ← nextToken
          finshParserLoop fuel n statements token
        else
          let _ ← nextToken
          let token ← nextToken
          finshParserLoop fuel n statements token

/-- `finsh_parser_run` (`finsh_parser.c:899-979`), which gives the root. -/
def finshParserRun (n : ℕ) : P Tree := do
  let token ← nextToken
  let statements ← finshParserLoop sym n n [] token
  return Tree.link statements

end Unary

/-- The parser at the start of a line, after `finsh_flush`. -/
def Parser.start (globalVariable : Fin finshVariableMax → Var) (line : List Lexeme) : Parser :=
  ⟨line, ⟨.eof, 0, [], none⟩, false, 0, none, globalVariable⟩

/-- One `int` variable and no other name. -/
def oneVariable : Fin finshVariableMax → Var := fun i => if i.val = 0 then ⟨['a'], .int⟩ else ⟨[], .unknown⟩

def noSymbols : Symbols := ⟨fun _ => none, fun _ => none, fun _ => 0⟩

end RtThread.Finsh
