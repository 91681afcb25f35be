import RtThread.Finsh.Node
import RtThread.Finsh.Vm
import Mathlib

/-!
# FinSH: the compiler (`finsh_compiler.c`)
-/

namespace RtThread.Finsh

def dataTypeVoid : ℕ := 0
def dataTypeByte : ℕ := 1
def dataTypeWord : ℕ := 2
def dataTypeDword : ℕ := 3

/-- Where the member `value` of an `id.var` is. What stands at the address of a system variable or a function,
when that is taken for the address of a user variable, has such a place as well. -/
structure Layout where
  valueAddr : NodeId → Word
  separate : ∀ i j : Fin finshVariableMax, i ≠ j → ∀ p q : Word, p < 4 → q < 4 →
    valueAddr (.var i) + p ≠ valueAddr (.var j) + q

/-! ### Types and addresses -/

/-- The data type of a variable, if its type has one (`finsh_compiler.c:795-825`, `834-863`). -/
def FinshType.dataType : FinshType → Option ℕ
  | .unknown => none
  | .void => some dataTypeVoid
  | .char | .uchar => some dataTypeByte
  | .short | .ushort => some dataTypeWord
  | .int | .uint | .long | .ulong => some dataTypeDword
  | .charp | .voidp | .shortp | .intp | .longp => some dataTypeDword

/-- The data type of a node without a child, and the error (`finsh_compiler.c:784-882`). -/
def leafDataType (globalVariable : Fin finshVariableMax → Var) (n : Node) : ℕ × Option Errno :=
  match n.nodeType with
  | .id =>
    let type :=
      match n.id with
      | some (.var i) => some (globalVariable i).type
      | some (.sysvar v) => some v.type
      | _ => none
    match type with
    | none => (n.dataType, none)
    | some type =>
      match type.dataType with
      | some d => (d, none)
      | none => (n.dataType, some .unknownType)
  | .valueChar => (dataTypeByte, none)
  | .valueInt | .valueLong | .valueString | .valueNull => (dataTypeDword, none)
  | _ => (n.dataType, none)

/-- The attribute that a child is checked with (`finsh_compiler.c:745-763`). -/
def childAddr (type : NodeType) (isAddr : ℕ) : ℕ :=
  match type with
  | .sysAssign | .sysPreinc | .sysPredec | .sysGetaddr => idtypeAddress
  | .sysGetvalue => 0
  | _ => isAddr

/-- `finsh_type_check` (`finsh_compiler.c:740-885`), with the last error it sets. -/
def finshTypeCheck (globalVariable : Fin finshVariableMax → Var) : Tree → ℕ → Tree × Option Errno
  | .null, _ => (.null, none)
  | .node n child sibling, isAddr =>
    let (child, e1) := finshTypeCheck globalVariable child (childAddr n.nodeType isAddr)
    let (sibling, e2) := finshTypeCheck globalVariable sibling 0
    let n := if n.idtype ≠ idtypeSyscall then { n with idtype := n.idtype ||| isAddr } else n
    match child with
    | .node c cc cs => (.node { n with dataType := c.dataType } (.node c cc cs) sibling, e2.or e1)
    | .null =>
      let (d, e3) := leafDataType globalVariable n
      (.node { n with dataType := d } .null sibling, e3.or (e2.or e1))

/-! ### Code -/

structure Output where
  code : List Byte
  error : Option Errno

def Output.append (a b : Output) : Output := ⟨a.code ++ b.code, b.error.or a.error⟩

instance : Append Output := ⟨Output.append⟩

def emit (code : List Byte) : Output := ⟨code, none⟩

/-- The width of the code that loads a variable; there is none for a `void` pointer. -/
def FinshType.width : FinshType → Option Width
  | .char | .uchar => some .byte
  | .short | .ushort => some .word
  | .int | .uint | .long | .ulong | .charp | .shortp | .intp | .longp => some .dword
  | _ => none

def dataWidth : ℕ → Option Width
  | 1 => some .byte
  | 2 => some .word
  | 3 => some .dword
  | _ => none

def codeLd (v : Word) : List Byte := (Op.ld .dword).code :: bytesOf v

def codeLdValue (w : Width) (addr : Word) : List Byte := (Op.ldValue w).code :: bytesOf addr

/-- The code of a variable (`finsh_compiler.c:46-174`). -/
def codeVariable (n : Node) (type : FinshType) (addr : Word) : List Byte :=
  match type.width with
  | none => []
  | some w => if n.idtype &&& idtypeAddress ≠ 0 then codeLd addr else codeLdValue w addr

def codeOne : Width → List Byte
  | .byte => [(Op.ld .byte).code, 1]
  | .word => [(Op.ld .word).code, 1, 0]
  | .dword => codeLd 1

/-- The code of `++` and `--` before a variable (`finsh_compiler.c:353-513`). -/
def codePre (op : BinOp) (w : Width) (addr : Word) : List Byte :=
  codeLdValue w addr ++ codeOne w ++ [(Op.binary op w).code, (Op.st w).code, (Op.ldValueStack .dword).code]

/-- The code of `++` and `--` after a variable (`finsh_compiler.c:516-693`). -/
def codePost (op : BinOp) (w : Width) (addr : Word) : List Byte :=
  codeLd addr ++ codeLdValue w addr ++ codeOne w ++ [(Op.binary op w).code, (Op.st w).code, Op.pop.code]

/-- The store of an assignment (`finsh_compiler.c:292-351`). -/
def codeAssign (dataType : ℕ) : Output :=
  match dataWidth dataType with
  | some w => emit [(Op.st w).code, (Op.ldValueStack w).code]
  | none => ⟨[], some .unknownType⟩

def NodeType.binOp : NodeType → Option BinOp
  | .sysAdd => some .add
  | .sysSub => some .sub
  | .sysMul => some .mul
  | .sysDiv => some .div
  | .sysMod => some .mod
  | .sysAnd => some .and
  | .sysOr => some .or
  | .sysXor => some .xor
  | .sysShl => some .shl
  | .sysShr => some .shr
  | _ => none

def Tree.siblings : Tree → ℕ
  | .null => 0
  | .node _ _ sibling => sibling.siblings + 1

section Compile

variable (globalVariable : Fin finshVariableMax → Var) (layout : Layout)

/-- `++` or `--` of a node whose child is an identifier. -/
def codeIncrement (code : BinOp → Width → Word → List Byte) (op : BinOp) (n : Node) : Tree → Output
  | .null => emit []
  | .node c _ _ =>
    if c.nodeType = .id then
      match dataWidth n.dataType, c.id with
      | some w, some id => emit (code op w (layout.valueAddr id))
      | _, _ => emit []
    else emit []

/-- The code of a node itself (`finsh_compiler.c:33-731`). -/
def compileNode (n : Node) (child : Tree) : Output :=
  match n.nodeType with
  | .id =>
    match n.id with
    | some (.syscall func) => emit (codeLd func)
    | some (.sysvar v) => emit (codeVariable n v.type v.addr)
    | some (.var i) => emit (codeVariable n (globalVariable i).type (layout.valueAddr (.var i)))
    | none => emit []
  | .valueChar => emit [(Op.ld .byte).code, n.value.setWidth 8]
  | .valueInt | .valueLong | .valueNull | .valueString => emit (codeLd n.value)
  | .sysBitwise =>
    match dataWidth n.dataType with
    | some w => emit [(Op.bw w).code]
    | none => emit []
  | .sysFunc =>
    match child with
    | .null => emit []
    | .node _ _ sibling => emit [Op.call.code, BitVec.ofNat 8 sibling.siblings]
  | .sysAssign =>
    match child with
    | .null => emit []
    | .node c _ _ =>
      if c.nodeType = .id then codeAssign c.dataType
      else if c.nodeType = .sysGetvalue then codeAssign (c.dataType &&& 0x0F)
      else emit []
  | .sysPreinc => codeIncrement layout codePre .add n child
  | .sysPredec => codeIncrement layout codePre .sub n child
  | .sysInc => codeIncrement layout codePost .add n child
  | .sysDec => codeIncrement layout codePost .sub n child
  | .sysGetvalue =>
    if n.idtype &&& idtypeAddress ≠ 0 then emit []
    else
      match dataWidth n.dataType with
      | some w => emit [(Op.ldValueStack w).code]
      | none => emit []
  | .sysGetaddr => emit []
  | type =>
    match type.binOp, dataWidth n.dataType with
    | some op, some w => emit [(Op.binary op w).code]
    | _, _ => emit []

/-- `finsh_compile` (`finsh_compiler.c:24-738`). -/
def finshCompile : Tree → Output
  | .null => emit []
  | .node n child sibling => finshCompile child ++ compileNode globalVariable layout n child ++ finshCompile sibling

/-- The loop of `finsh_compiler_run` (`finsh_compiler.c:902-917`). -/
def compileStatements : Tree → Output
  | .null => emit []
  | .node n child sibling =>
    finshCompile globalVariable layout (.node n child .null) ++
      (match sibling with
      | .null => emit []
      | .node .. => emit [Op.pop.code]) ++
      compileStatements sibling

/-- `finsh_compiler_run` (`finsh_compiler.c:887-918`): the text segment, when the code fits in it, and the
last error. -/
def finshCompilerRun (node : Tree) : Option (List Byte × Option Errno) :=
  let (node, e) := finshTypeCheck globalVariable node 0
  let out := compileStatements globalVariable layout node
  if out.code.length ≤ finshTextMax then
    some (out.code ++ List.replicate (finshTextMax - out.code.length) 0, out.error.or e)
  else none

end Compile

end RtThread.Finsh
