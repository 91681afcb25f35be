import RtThread.Finsh.Node
import RtThread.Finsh.Vm
import Mathlib

/-!
# Integer expressions

The part of C that FinSH is to compute on `int` and `long` variables: its expressions without parentheses,
their values from left to right modulo 2^32, and its grammar with the precedence and the associativity of C.
-/

namespace RtThread.Finsh

/-- The user variables that hold a 32-bit signed integer. -/
def IntVar (globalVariable : Fin finshVariableMax → Var) : Type :=
  { i : Fin finshVariableMax // (globalVariable i).type = .int ∨ (globalVariable i).type = .long }

inductive UnaryOp where
  | plus
  | minus
  | bitwise
  deriving DecidableEq

/-- `++` and `--`. -/
inductive StepOp where
  | inc
  | dec
  deriving DecidableEq

inductive Expr (V : Type) where
  | const (long : Bool) (v : Word)
  | var (x : V)
  | assign (x : V) (e : Expr V)
  | binary (op : BinOp) (a b : Expr V)
  | unary (op : UnaryOp) (e : Expr V)
  | pre (op : StepOp) (x : V)
  | post (op : StepOp) (x : V)

/-- The values of the variables. -/
abbrev Values := Fin finshVariableMax → Word

def UnaryOp.eval : UnaryOp → Word → Word
  | .plus, v => v
  | .minus, v => -v
  | .bitwise, v => ~~~v

def StepOp.eval : StepOp → Word → Word
  | .inc, v => v + 1
  | .dec, v => v - 1

section Eval

variable {globalVariable : Fin finshVariableMax → Var}

def Values.set (ρ : Values) (x : IntVar globalVariable) (v : Word) : Values := Function.update ρ x.1 v

/-- The value of an expression and what the variables hold after it, unless an operation has no value. -/
def Expr.eval : Expr (IntVar globalVariable) → Values → Option (Word × Values)
  | .const _ v, ρ => some (v, ρ)
  | .var x, ρ => some (ρ x.1, ρ)
  | .assign x e, ρ => (e.eval ρ).map fun r => (r.1, r.2.set x r.1)
  | .binary op a b, ρ =>
    (a.eval ρ).bind fun r => (b.eval r.2).bind fun q => (op.eval r.1 q.1).map fun v => (v, q.2)
  | .unary op e, ρ => (e.eval ρ).map fun r => (op.eval r.1, r.2)
  | .pre op x, ρ => some (op.eval (ρ x.1), ρ.set x (op.eval (ρ x.1)))
  | .post op x, ρ => some (ρ x.1, ρ.set x (op.eval (ρ x.1)))

/-- The value of the last of several statements. -/
def evalStatements : List (Expr (IntVar globalVariable)) → Values → Option (Word × Values)
  | [], _ => none
  | [e], ρ => e.eval ρ
  | e :: es, ρ => (e.eval ρ).bind fun r => evalStatements es r.2

end Eval

/-! ### The grammar -/

/-- The places of the binary operators in the precedence of C, from the weakest, which is 1; 0 is that of
the assignment, 7 that of the unary operators and 8 that of the postfix operators. -/
def BinOp.level : BinOp → ℕ
  | .or => 1
  | .xor => 2
  | .and => 3
  | .shl | .shr => 4
  | .add | .sub => 5
  | .mul | .div | .mod => 6

def BinOp.token : BinOp → TokenType
  | .or => .or
  | .xor => .xor
  | .and => .and
  | .shl => .shl
  | .shr => .shr
  | .add => .add
  | .sub => .sub
  | .mul => .mul
  | .div => .div
  | .mod => .mod

def UnaryOp.token : UnaryOp → TokenType
  | .plus => .add
  | .minus => .sub
  | .bitwise => .bitwise

def StepOp.token : StepOp → TokenType
  | .inc => .inc
  | .dec => .dec

/-- The lexer gives the token without an error. -/
def Lexeme.Is (l : Lexeme) (t : TokenType) : Prop := l.token = t ∧ l.error = none

variable (globalVariable : Fin finshVariableMax → Var)

def Lexeme.Names (l : Lexeme) (x : IntVar globalVariable) : Prop :=
  l.Is .identifier ∧ finshVarLookup globalVariable l.string = some x.1

/-- The lexemes are an expression of the level. -/
inductive Derives : ℕ → List Lexeme → Expr (IntVar globalVariable) → Prop
  | lift {k : ℕ} {ls : List Lexeme} {e : Expr (IntVar globalVariable)} (hk : k < 8) (h : Derives (k + 1) ls e) :
    Derives k ls e
  | assign {x : IntVar globalVariable} {l o : Lexeme} {ls : List Lexeme} {e : Expr (IntVar globalVariable)}
    (hl : l.Names globalVariable x) (ho : o.Is .assign) (h : Derives 0 ls e) : Derives 0 (l :: o :: ls) (.assign x e)
  | binary {op : BinOp} {o : Lexeme} {ls ms : List Lexeme} {a b : Expr (IntVar globalVariable)} (ho : o.Is op.token)
    (ha : Derives op.level ls a) (hb : Derives (op.level + 1) ms b) :
    Derives op.level (ls ++ o :: ms) (.binary op a b)
  | unary {op : UnaryOp} {o : Lexeme} {ls : List Lexeme} {e : Expr (IntVar globalVariable)} (ho : o.Is op.token)
    (h : Derives 7 ls e) : Derives 7 (o :: ls) (.unary op e)
  | pre {op : StepOp} {o l : Lexeme} {x : IntVar globalVariable} (ho : o.Is op.token) (hl : l.Names globalVariable x) :
    Derives 7 [o, l] (.pre op x)
  | post {op : StepOp} {l o : Lexeme} {x : IntVar globalVariable} (hl : l.Names globalVariable x) (ho : o.Is op.token) :
    Derives 8 [l, o] (.post op x)
  | var {l : Lexeme} {x : IntVar globalVariable} (hl : l.Names globalVariable x) : Derives 8 [l] (.var x)
  | const {l : Lexeme} (long : Bool) (hl : l.Is (if long then .valueLong else .valueInt)) :
    Derives 8 [l] (.const long l.value)

/-- The lexemes are statements, each with its semicolon. -/
inductive DerivesLine : List Lexeme → List (Expr (IntVar globalVariable)) → Prop
  | nil : DerivesLine [] []
  | cons {ls ms : List Lexeme} {o : Lexeme} {e : Expr (IntVar globalVariable)} {es : List (Expr (IntVar globalVariable))}
    (h : Derives globalVariable 0 ls e) (ho : o.Is .semicolon) (hs : DerivesLine ms es) :
    DerivesLine (ls ++ o :: ms) (e :: es)

variable {globalVariable}

/-- The nodes of the tree of an expression. -/
def Expr.nodes : Expr (IntVar globalVariable) → ℕ
  | .const _ _ | .var _ => 1
  | .assign _ e => e.nodes + 2
  | .binary _ a b => a.nodes + b.nodes + 1
  | .unary .plus e => e.nodes
  | .unary .minus e => e.nodes + 2
  | .unary .bitwise e => e.nodes + 1
  | .pre _ _ | .post _ _ => 2

end RtThread.Finsh
