import Mathlib

/-!
# FinSH: tokens, nodes and the parser's state

`finsh.h`, `finsh_token.h`, `finsh_node.c` and `finsh_var.c`, on a 32-bit target.
-/

namespace RtThread.Finsh

def finshNameMax : ℕ := 16
def finshNodeMax : ℕ := 16
abbrev finshVariableMax : ℕ := 8

/-- `enum finsh_token_type`. -/
inductive TokenType where
  | leftParen
  | rightParen
  | comma
  | semicolon
  | mul
  | add
  | inc
  | sub
  | dec
  | div
  | mod
  | assign
  | and
  | or
  | xor
  | bitwise
  | shl
  | shr
  | void
  | char
  | short
  | int
  | long
  | unsigned
  | valueChar
  | valueInt
  | valueLong
  | valueString
  | valueNull
  | identifier
  | bad
  | eof
  deriving DecidableEq, Repr

/-- `enum finsh_type`. -/
inductive FinshType where
  | unknown
  | void
  | voidp
  | char
  | uchar
  | charp
  | short
  | ushort
  | shortp
  | int
  | uint
  | intp
  | long
  | ulong
  | longp
  deriving DecidableEq, Repr

/-- The errors that `finsh_error_set` is called with. -/
inductive Errno where
  | invalidToken
  | expectType
  | unknownType
  | variableExist
  | expectOperator
  | memoryFull
  | unknownNode
  | expectChar
  | unexpectEnd
  | unknownToken
  | unknownSymbol
  | nullNode
  deriving DecidableEq, Repr

/-- What `token_run` leaves: the token with `value` and `string`, and the error it sets. The member
`char_value` is the lowest byte of `value`. -/
structure Lexeme where
  token : TokenType
  value : BitVec 32
  string : List Char
  error : Option Errno
  deriving DecidableEq

inductive NodeType where
  | id
  | valueChar
  | valueInt
  | valueLong
  | valueString
  | valueNull
  | sysAdd
  | sysSub
  | sysMul
  | sysDiv
  | sysMod
  | sysAnd
  | sysOr
  | sysXor
  | sysBitwise
  | sysShl
  | sysShr
  | sysFunc
  | sysAssign
  | sysPreinc
  | sysPredec
  | sysInc
  | sysDec
  | sysGetvalue
  | sysGetaddr
  deriving DecidableEq, Repr

/-- A registered variable: its type and its address. -/
structure Sysvar where
  type : FinshType
  addr : BitVec 32
  deriving DecidableEq

/-- The union `id` of a node; a user variable is its place in `global_variable`. -/
inductive NodeId where
  | var (i : Fin finshVariableMax)
  | sysvar (v : Sysvar)
  | syscall (func : BitVec 32)
  deriving DecidableEq

def idtypeVar : ℕ := 1
def idtypeSysvar : ℕ := 2
def idtypeSyscall : ℕ := 4
def idtypeAddress : ℕ := 8

def NodeId.idtype : NodeId → ℕ
  | .var _ => idtypeVar
  | .sysvar _ => idtypeSysvar
  | .syscall _ => idtypeSyscall

/-- The fields of `struct finsh_node` other than its links. -/
structure Node where
  nodeType : NodeType
  dataType : ℕ
  idtype : ℕ
  value : BitVec 32
  id : Option NodeId
  deriving DecidableEq

/-- A pointer to a node, with what its links reach. No node is reached twice, so that writing a link of a
node makes a new tree. -/
inductive Tree where
  | null
  | node (n : Node) (child sibling : Tree)
  deriving DecidableEq

def Tree.setSibling : Tree → Tree → Tree
  | .null, _ => .null
  | .node n child _, sibling => .node n child sibling

/-- The list of nodes, each the sibling of the one before it. -/
def Tree.link : List Tree → Tree
  | [] => .null
  | [t] => t
  | t :: ts => t.setSibling (link ts)

/-- `struct finsh_var` without its value. -/
structure Var where
  name : List Char
  type : FinshType

/-- What the parser finds outside: the registered variables and functions, and where `finsh_heap_allocate`
puts a string. -/
structure Symbols where
  sysvarLookup : List Char → Option Sysvar
  syscallLookup : List Char → Option (BitVec 32)
  heapAllocate : List Char → BitVec 32

/-- The parser with the state it writes. `rest` is what `token_run` is still to give, and `used` is the
number of nodes taken from `global_node_table`; no error is `FINSH_ERROR_OK`. -/
structure Parser where
  rest : List Lexeme
  current : Lexeme
  replay : Bool
  used : ℕ
  errno : Option Errno
  globalVariable : Fin finshVariableMax → Var

/-- The lexemes that `finsh_token_token` will give. -/
def Parser.upcoming (s : Parser) : List Lexeme := if s.replay then s.current :: s.rest else s.rest

/-- A function of the parser; it gives `none` only when it runs out of fuel. -/
abbrev P := StateT Parser Option

def errorSet (e : Errno) : P Unit := modify fun s => { s with errno := some e }

/-- `finsh_token_token`; at the end of the line it gives `eof` again and again. -/
def nextToken : P TokenType := do
  let s ← get
  if s.replay then
    set { s with replay := false }
    return s.current.token
  else
    match s.rest with
    | [] =>
      set { s with current := { s.current with token := .eof } }
      return .eof
    | l :: rest =>
      set { s with current := l, rest := rest, errno := l.error.or s.errno }
      return l.token

theorem nextToken_eq (s : Parser) :
    nextToken s = some (if s.replay then (s.current.token, { s with replay := false })
      else match s.rest with
        | [] => (.eof, { s with current := { s.current with token := .eof } })
        | l :: rest => (l.token, { s with current := l, rest := rest, errno := l.error.or s.errno })) := by
  rcases s with ⟨_ | ⟨l, rest⟩, c, _ | _, u, e, v⟩ <;> rfl

def tokenReplay : P Unit := modify fun s => { s with replay := true }

/-- The macro `check_token`. -/
def checkToken (token type : TokenType) : P Unit :=
  if token ≠ type then do
    errorSet .invalidToken
    tokenReplay
  else pure ()

/-- The macro `match_token`. -/
def matchToken (type : TokenType) : P Unit := do
  let token ← nextToken
  checkToken token type

/-- `finsh_node_allocate` (`finsh_node.c:26-43`). -/
def finshNodeAllocate (type : NodeType) : P (Option Node) := do
  let s ← get
  if s.used = finshNodeMax then return none
  else
    set { s with used := s.used + 1 }
    return some ⟨type, 0, 0, 0, none⟩

/-- `finsh_node_new_char`, `finsh_node_new_int`, `finsh_node_new_long`, `finsh_node_new_string` and
`finsh_node_new_ptr` (`finsh_node.c:104-183`) with the value they store. -/
def finshNodeNewValue (type : NodeType) (value : BitVec 32) : P Tree := do
  match ← finshNodeAllocate type with
  | none =>
    errorSet .memoryFull
    return .null
  | some n => return .node { n with value := value } .null .null

def finshNodeNewInt (i : BitVec 32) : P Tree := finshNodeNewValue .valueInt i
def finshNodeNewLong (l : BitVec 32) : P Tree := finshNodeNewValue .valueLong l
def finshNodeNewChar (c : BitVec 8) : P Tree := finshNodeNewValue .valueChar (c.setWidth 32)
def finshNodeNewString (sym : Symbols) (s : List Char) : P Tree := finshNodeNewValue .valueString (sym.heapAllocate s)
def finshNodeNewPtr (ptr : BitVec 32) : P Tree := finshNodeNewValue .valueNull ptr

/-- `finsh_var_lookup` (`finsh_var.c:72-86`). -/
def finshVarLookup (globalVariable : Fin finshVariableMax → Var) (name : List Char) : Option (Fin finshVariableMax) :=
  (List.finRange finshVariableMax).find? fun i => (globalVariable i).name.take finshNameMax = name.take finshNameMax

/-- `finsh_var_insert` (`finsh_var.c:24-51`), called for a declaration: no entry is a `VARIABLE_EXIST`. -/
def finshVarInsert (name : List Char) (type : FinshType) : P Unit := do
  let s ← get
  match finshVarLookup s.globalVariable name with
  | some _ => errorSet .variableExist
  | none =>
    match (List.finRange finshVariableMax).find? fun i => (s.globalVariable i).type = .unknown with
    | none => errorSet .variableExist
    | some empty =>
      set { s with globalVariable := Function.update s.globalVariable empty ⟨name.take finshNameMax, type⟩ }

/-- `finsh_node_new_id` (`finsh_node.c:45-102`). -/
def finshNodeNewId (sym : Symbols) (id : List Char) : P Tree := do
  let s ← get
  let symbol :=
    (((finshVarLookup s.globalVariable id).map NodeId.var).or ((sym.sysvarLookup id).map NodeId.sysvar)).or
      ((sym.syscallLookup id).map NodeId.syscall)
  match symbol with
  | none =>
    errorSet .unknownSymbol
    return .null
  | some symbol =>
    match ← finshNodeAllocate .id with
    | none =>
      errorSet .memoryFull
      return .null
    | some n => return .node { n with id := some symbol, idtype := symbol.idtype } .null .null

end RtThread.Finsh
