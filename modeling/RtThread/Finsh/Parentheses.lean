import RtThread.Lib.Stateful
import RtThread.Finsh.Parser
import Mathlib

/-!
# FinSH: parentheses

The grammar in `finsh_parser.c` has a rule for an expression in parentheses. No parenthesis reaches it:
`proc_cast_expr` takes each one for the start of a cast.
-/

namespace RtThread.Finsh

open RtThread.Lib.Stateful

/-! ### An error stays set -/

def Failed (s : Parser) : Prop := s.errno ≠ none

theorem errorSet_fails (P : Parser → Prop) (e : Errno) : Triple P (errorSet e) fun _ => Failed :=
  Triple.modify _ fun _ _ => Option.some_ne_none e

theorem errorSet_keeps (e : Errno) : Keeps Failed (errorSet e) := errorSet_fails _ e

theorem tokenReplay_keeps : Keeps Failed tokenReplay := Keeps.modify _ fun _ h => h

theorem nextToken_keeps : Keeps Failed nextToken := by
  intro s a s' hs hrun
  rw [nextToken_eq] at hrun
  rcases s with ⟨_ | ⟨l, rest⟩, c, _ | _, u, e, v⟩
  · cases hrun
    exact hs
  · cases hrun
    exact hs
  · cases hrun
    intro hnone
    exact hs (Option.or_eq_none_iff.mp hnone).2
  · cases hrun
    exact hs

theorem checkToken_keeps (token type : TokenType) : Keeps Failed (checkToken token type) := by
  unfold checkToken
  split
  · exact (errorSet_keeps _).bind fun _ => tokenReplay_keeps
  · exact Keeps.pure _

theorem matchToken_keeps (type : TokenType) : Keeps Failed (matchToken type) :=
  nextToken_keeps.bind fun token => checkToken_keeps token type

theorem finshNodeAllocate_keeps (type : NodeType) : Keeps Failed (finshNodeAllocate type) := by
  intro s a s' hs hrun
  unfold finshNodeAllocate at hrun
  obtain ⟨t, t', hget, hrun⟩ := bind_eq_some.mp hrun
  cases hget
  by_cases hfull : s.used = finshNodeMax
  · rw [if_pos hfull] at hrun
    cases hrun
    exact hs
  · rw [if_neg hfull] at hrun
    cases hrun
    exact hs

theorem finshNodeNewValue_keeps (type : NodeType) (value : BitVec 32) : Keeps Failed (finshNodeNewValue type value) := by
  refine (finshNodeAllocate_keeps type).bind fun n => ?_
  cases n with
  | none => exact (errorSet_keeps _).bind fun _ => Keeps.pure _
  | some n => exact Keeps.pure _

theorem finshNodeNewId_keeps (sym : Symbols) (id : List Char) : Keeps Failed (finshNodeNewId sym id) := by
  refine Keeps.get.bind fun s => ?_
  simp only
  split
  · exact (errorSet_keeps _).bind fun _ => Keeps.pure _
  · refine (finshNodeAllocate_keeps _).bind fun n => ?_
    cases n with
    | none => exact (errorSet_keeps _).bind fun _ => Keeps.pure _
    | some n => exact Keeps.pure _

theorem makeSysNode_keeps (type : NodeType) (node1 node2 : Tree) : Keeps Failed (makeSysNode type node1 node2) := by
  refine (finshNodeAllocate_keeps type).bind fun n => ?_
  split
  · exact Keeps.pure _
  · exact (errorSet_keeps _).bind fun _ => Keeps.pure _
  · exact (errorSet_keeps _).bind fun _ => Keeps.pure _

theorem procPointer_keeps (type : FinshType) : Keeps Failed (procPointer type) := by
  refine nextToken_keeps.bind fun token => ?_
  split
  · exact Keeps.pure _
  · exact tokenReplay_keeps.bind fun _ => Keeps.pure _

theorem procTypeReturn_fails (P : Parser → Prop) : Triple P procTypeReturn fun _ => Failed :=
  Triple.bind (R := fun _ _ => True) (Triple.modify _ fun _ _ => trivial) fun _ =>
    (errorSet_fails _ _).bind fun _ => Keeps.pure _

theorem procType_keeps : Keeps Failed procType := by
  refine nextToken_keeps.bind fun token => ?_
  split
  · exact procPointer_keeps _
  · split
    · refine nextToken_keeps.bind fun token => ?_
      split
      · split
        · exact procPointer_keeps _
        · exact procTypeReturn_fails _
      · exact tokenReplay_keeps.bind fun _ => (errorSet_keeps _).bind fun _ => procPointer_keeps _
    · exact procTypeReturn_fails _

theorem procIdentifier_keeps : Keeps Failed procIdentifier :=
  (matchToken_keeps _).bind fun _ => Keeps.get.bind fun _ => Keeps.pure _

theorem joinOperand_keeps (type : NodeType) (left right : Tree) : Keeps Failed (joinOperand type left right) := by
  cases right with
  | null => exact (errorSet_keeps _).bind fun _ => Keeps.pure _
  | node m child sibling => exact makeSysNode_keeps _ _ _

theorem procBinaryLoop_keeps {operand : P Tree} (h : Keeps Failed operand) (op : TokenType → Option NodeType) (n : ℕ)
    (left : Tree) (token : TokenType) : Keeps Failed (procBinaryLoop operand op n left token) := by
  induction n generalizing left token with
  | zero => exact Keeps.failure
  | succ n ih =>
    rw [procBinaryLoop]
    split
    · exact tokenReplay_keeps.bind fun _ => Keeps.pure _
    · exact h.bind fun right => (joinOperand_keeps _ _ _).bind fun left => nextToken_keeps.bind fun token => ih left token

theorem procBinaryExpr_keeps {operand : P Tree} (h : Keeps Failed operand) (op : TokenType → Option NodeType) (n : ℕ) :
    Keeps Failed (procBinaryExpr operand op n) :=
  h.bind fun left => nextToken_keeps.bind fun token => procBinaryLoop_keeps h op n left token

theorem procInclusiveOrExpr_keeps {cast : P Tree} (h : Keeps Failed cast) (n : ℕ) :
    Keeps Failed (procInclusiveOrExpr cast n) := by
  unfold procInclusiveOrExpr procExclusiveOrExpr procAndExpr procShiftExpr procAdditiveExpr procMultiplicativeExpr
  iterate 6 refine procBinaryExpr_keeps ?_ _ n
  exact h

section Unary

variable (sym : Symbols) {cast assign : P Tree}

theorem procPrimaryExpr_keeps (h : Keeps Failed assign) : Keeps Failed (procPrimaryExpr sym assign) := by
  refine nextToken_keeps.bind fun token => Keeps.get.bind fun s => ?_
  split
  · exact tokenReplay_keeps.bind fun _ => procIdentifier_keeps.bind fun id => finshNodeNewId_keeps sym id
  · exact h.bind fun e => (matchToken_keeps _).bind fun _ => Keeps.pure _
  all_goals first
    | exact finshNodeNewValue_keeps _ _
    | exact (errorSet_keeps _).bind fun _ => Keeps.pure _

theorem joinParam_keeps (params : List Tree) (param : Tree) : Keeps Failed (joinParam params param) := by
  cases param with
  | null => exact (errorSet_keeps _).bind fun _ => Keeps.pure _
  | node m child sibling => exact Keeps.pure _

theorem procParamLoop_keeps (h : Keeps Failed assign) (n : ℕ) (params : List Tree) (token : TokenType) :
    Keeps Failed (procParamLoop assign n params token) := by
  induction n generalizing params token with
  | zero => exact Keeps.failure
  | succ n ih =>
    rw [procParamLoop]
    split
    · exact h.bind fun param => (joinParam_keeps _ _).bind fun params => nextToken_keeps.bind fun token => ih params token
    · exact tokenReplay_keeps.bind fun _ => Keeps.pure _

theorem procArguments_keeps (h : Keeps Failed assign) (n : ℕ) : Keeps Failed (procArguments assign n) := by
  have hlist : Keeps Failed (procParamList assign n) := by
    refine h.bind fun a => ?_
    cases a with
    | null => exact Keeps.pure _
    | node m child sibling => exact nextToken_keeps.bind fun token => procParamLoop_keeps h n _ token
  refine nextToken_keeps.bind fun token => ?_
  split
  · exact Keeps.pure _
  · exact tokenReplay_keeps.bind fun _ => hlist.bind fun params => (matchToken_keeps _).bind fun _ => Keeps.pure _

theorem procPostfixLoop_keeps (h : Keeps Failed assign) (n : ℕ) (node : Tree) (token : TokenType) :
    Keeps Failed (procPostfixLoop assign n node token) := by
  induction n generalizing node token with
  | zero => exact Keeps.failure
  | succ n ih =>
    unfold procPostfixLoop
    split
    · exact (makeSysNode_keeps _ _ _).bind fun node => nextToken_keeps.bind fun token => ih node token
    · exact (makeSysNode_keeps _ _ _).bind fun node => nextToken_keeps.bind fun token => ih node token
    · exact (procArguments_keeps h n).bind fun params =>
        (makeSysNode_keeps _ _ _).bind fun node => nextToken_keeps.bind fun token => ih node token
    · exact tokenReplay_keeps.bind fun _ => Keeps.pure _

theorem procUnaryExpr_keeps (hcast : Keeps Failed cast) (hassign : Keeps Failed assign) (n : ℕ) :
    Keeps Failed (procUnaryExpr sym cast assign n) := by
  refine nextToken_keeps.bind fun token => ?_
  split
  · exact hcast
  · exact hcast.bind fun c => makeSysNode_keeps _ _ _
  · exact hcast.bind fun c => (finshNodeNewValue_keeps _ _).bind fun zero => makeSysNode_keeps _ _ _
  all_goals first
    | exact hcast.bind fun c => makeSysNode_keeps _ _ _
    | exact tokenReplay_keeps.bind fun _ => (procPrimaryExpr_keeps sym hassign).bind fun node =>
        nextToken_keeps.bind fun token => procPostfixLoop_keeps hassign n node token

theorem procCastExpr_procAssignExpr_keep (n : ℕ) : Keeps Failed (procCastExpr sym n) ∧ Keeps Failed (procAssignExpr sym n) := by
  induction n with
  | zero => exact ⟨Keeps.failure, Keeps.failure⟩
  | succ n ih =>
    obtain ⟨hcast, hassign⟩ := ih
    have hunary := procUnaryExpr_keeps sym hcast hassign n
    constructor
    · rw [procCastExpr]
      refine nextToken_keeps.bind fun token => ?_
      split
      · refine procType_keeps.bind fun type => (matchToken_keeps _).bind fun _ => hcast.bind fun c => ?_
        cases c with
        | null => exact tokenReplay_keeps.bind fun _ => hunary
        | node m child sibling => exact Keeps.pure _
      · exact tokenReplay_keeps.bind fun _ => hunary
    · rw [procAssignExpr]
      refine (procInclusiveOrExpr_keeps hcast n).bind fun left => nextToken_keeps.bind fun token => ?_
      split
      · exact hassign.bind fun right => makeSysNode_keeps _ _ _
      · exact tokenReplay_keeps.bind fun _ => Keeps.pure _

end Unary

/-! ### What comes next -/

def Parser.peek (s : Parser) : TokenType :=
  match s.upcoming with
  | [] => .eof
  | l :: _ => l.token

theorem nextToken_peek (t : TokenType) :
    Triple (fun s => s.peek = t) nextToken fun a s => a = t ∧ s.current.token = t := by
  intro s a s' hs hrun
  rw [nextToken_eq] at hrun
  rcases s with ⟨_ | ⟨l, rest⟩, c, _ | _, u, e, v⟩ <;> cases hrun <;> exact ⟨hs, hs⟩

theorem nextToken_upcoming (l : Lexeme) (ls : List Lexeme) :
    Triple (fun s => s.upcoming = l :: ls) nextToken fun a s => a = l.token ∧ s.upcoming = ls := by
  intro s a s' hs hrun
  rw [nextToken_eq] at hrun
  rcases s with ⟨_ | ⟨m, rest⟩, c, _ | _, u, e, v⟩ <;> cases hs <;> cases hrun <;> exact ⟨rfl, rfl⟩

theorem tokenReplay_peek (t : TokenType) :
    Triple (fun s => s.current.token = t) tokenReplay fun _ s => s.peek = t :=
  Triple.modify _ fun _ h => h

theorem nextToken_replay_peek (t : TokenType) {α : Type} {f : TokenType → P α} {m : P α} {Q : α → Parser → Prop}
    (hf : f t = tokenReplay >>= fun _ => m) (hm : Triple (fun s => s.peek = t) m Q) :
    Triple (fun s => s.peek = t) (nextToken >>= f) Q := by
  refine (nextToken_peek t).bind fun a => Triple.of_and fun ha => ?_
  rw [ha, hf]
  exact (tokenReplay_peek t).bind fun _ => hm

/-! ### Nothing but a cast starts with a parenthesis -/

section Paren

variable (sym : Symbols) {Q : Parser → Prop}

theorem procBinaryExpr_fails {operand : P Tree} (h : Keeps Failed operand ∧ Triple Q operand fun _ => Failed)
    (op : TokenType → Option NodeType) (n : ℕ) :
    Keeps Failed (procBinaryExpr operand op n) ∧ Triple Q (procBinaryExpr operand op n) fun _ => Failed :=
  ⟨procBinaryExpr_keeps h.1 op n, h.2.bind_keeps fun left => nextToken_keeps.bind fun token =>
    procBinaryLoop_keeps h.1 op n left token⟩

theorem procAssignExpr_fails (hcast : ∀ n, Triple Q (procCastExpr sym n) fun _ => Failed) (n : ℕ) :
    Triple Q (procAssignExpr sym n) fun _ => Failed := by
  cases n with
  | zero => exact Triple.failure _
  | succ n =>
    obtain ⟨hkeeps, hassign⟩ := procCastExpr_procAssignExpr_keep sym n
    have hor : Keeps Failed (procInclusiveOrExpr (procCastExpr sym n) n) ∧
        Triple Q (procInclusiveOrExpr (procCastExpr sym n) n) fun _ => Failed := by
      unfold procInclusiveOrExpr procExclusiveOrExpr procAndExpr procShiftExpr procAdditiveExpr procMultiplicativeExpr
      iterate 6 refine procBinaryExpr_fails ?_ _ n
      exact ⟨hkeeps, hcast n⟩
    rw [procAssignExpr]
    refine hor.2.bind_keeps fun left => nextToken_keeps.bind fun token => ?_
    split
    · exact hassign.bind fun right => makeSysNode_keeps _ _ _
    · exact tokenReplay_keeps.bind fun _ => Keeps.pure _

theorem procCastExpr_fails {t : TokenType} (ht : t.baseType.isSome = true ∨ t = .unsigned ∨ t = .eof) (n : ℕ) :
    Triple (fun s => s.peek = t) (procCastExpr sym n) fun _ => Failed := by
  have hprimary : ∀ assign : P Tree, Triple (fun s => s.peek = t) (procPrimaryExpr sym assign) fun _ => Failed := by
    intro assign
    refine (nextToken_peek t).bind fun a => Triple.of_and fun ha => ?_
    rw [ha]
    refine Triple.bind (R := fun _ _ => True) (Triple.get fun _ _ => trivial) fun s => ?_
    cases t
    all_goals first
      | exact (errorSet_fails _ _).bind fun _ => Keeps.pure _
      | simp [TokenType.baseType] at ht
  cases n with
  | zero => exact Triple.failure _
  | succ n =>
    obtain ⟨hcast, hassign⟩ := procCastExpr_procAssignExpr_keep sym n
    have hnode : Triple (fun s => s.peek = t) (procPostfixExpr sym (procAssignExpr sym n) n) fun _ => Failed :=
      (hprimary _).bind_keeps fun node => nextToken_keeps.bind fun token => procPostfixLoop_keeps hassign n node token
    have hunary : Triple (fun s => s.peek = t) (procUnaryExpr sym (procCastExpr sym n) (procAssignExpr sym n) n)
        fun _ => Failed := by
      refine nextToken_replay_peek t ?_ hnode
      cases t
      all_goals first
        | rfl
        | simp [TokenType.baseType] at ht
    rw [procCastExpr]
    refine nextToken_replay_peek t (if_neg ?_) hunary
    rintro rfl
    simp [TokenType.baseType] at ht

theorem procCastExpr_paren_fails {lp l : Lexeme} {ls : List Lexeme} (hlp : lp.token = .leftParen)
    (hl : l.token.baseType = none) (hunsigned : l.token ≠ .unsigned) (n : ℕ) :
    Triple (fun s => s.upcoming = lp :: l :: ls) (procCastExpr sym n) fun _ => Failed := by
  cases n with
  | zero => exact Triple.failure _
  | succ n =>
    obtain ⟨hcast, hassign⟩ := procCastExpr_procAssignExpr_keep sym n
    have htype : Triple (fun s => s.upcoming = l :: ls) procType fun _ => Failed := by
      refine (nextToken_upcoming l ls).bind fun a => Triple.of_and fun ha => ?_
      rw [ha]
      simp only [hl, if_neg hunsigned]
      exact procTypeReturn_fails _
    rw [procCastExpr]
    refine (nextToken_upcoming lp (l :: ls)).bind fun a => Triple.of_and fun ha => ?_
    rw [ha, if_pos hlp]
    refine htype.bind_keeps fun type => (matchToken_keeps _).bind fun _ => hcast.bind fun c => ?_
    cases c with
    | null => exact tokenReplay_keeps.bind fun _ => procUnaryExpr_keeps sym hcast hassign n
    | node m child sibling => exact Keeps.pure _

/-- The parser accepts the whole of `e` as an expression, and builds `t` for it. -/
def Accepts (globalVariable : Fin finshVariableMax → Var) (e : List Lexeme) (t : Tree) : Prop :=
  ∃ n s, procExpr sym n (Parser.start globalVariable e) = some (t, s) ∧ s.errno = none ∧ t ≠ .null ∧
    s.rest = [] ∧ s.peek = .eof

theorem accepts_of_run {globalVariable : Fin finshVariableMax → Var} {e : List Lexeme} {t : Tree} {n : ℕ} (ht : t ≠ .null)
    (h : ((procExpr sym n (Parser.start globalVariable e)).map fun r => (r.1, r.2.errno, r.2.rest, r.2.peek)) =
      some (t, none, [], .eof)) : Accepts sym globalVariable e t := by
  obtain ⟨⟨t', s⟩, hrun, hr⟩ := Option.map_eq_some_iff.mp h
  simp only [Prod.mk.injEq] at hr
  obtain ⟨rfl, hok, hrest, hpeek⟩ := hr
  exact ⟨n, s, hrun, hok, ht, hrest, hpeek⟩

def parenthesised (e : List Lexeme) : List Lexeme :=
  ⟨.leftParen, 0, [], none⟩ :: e ++ [⟨.rightParen, 0, [], none⟩]

theorem not_accepts_parenthesised {globalVariable : Fin finshVariableMax → Var} {l : Lexeme} (ls : List Lexeme)
    (hl : l.token.baseType = none) (hunsigned : l.token ≠ .unsigned) (t : Tree) :
    ¬Accepts sym globalVariable (parenthesised (l :: ls)) t := by
  rintro ⟨n, s, hrun, hok, -⟩
  have hcast := @procCastExpr_paren_fails sym ⟨.leftParen, 0, [], none⟩ l (ls ++ [⟨.rightParen, 0, [], none⟩]) rfl hl
    hunsigned
  exact procAssignExpr_fails sym hcast n _ _ _ rfl hrun hok

/-- No accepted expression is accepted in parentheses, with any tree. -/
theorem parser_rejects_parentheses (globalVariable : Fin finshVariableMax → Var) {e : List Lexeme} {t : Tree}
    (he : Accepts sym globalVariable e t) (t' : Tree) : ¬Accepts sym globalVariable (parenthesised e) t' := by
  obtain ⟨n, s, hrun, hok, -⟩ := he
  have hstart : ∀ u : TokenType, (Parser.start globalVariable e).peek = u →
      ¬(u.baseType.isSome = true ∨ u = .unsigned ∨ u = .eof) := by
    intro u hu htype
    exact procAssignExpr_fails sym (procCastExpr_fails sym htype) n _ _ _ hu hrun hok
  cases e with
  | nil => exact absurd (.inr (.inr rfl)) (hstart .eof rfl)
  | cons l ls =>
    have hl := hstart l.token rfl
    rw [not_or, not_or] at hl
    exact not_accepts_parenthesised sym ls (Option.not_isSome_iff_eq_none.mp hl.1) hl.2.1 t'

end Paren

def variableA : List Lexeme := [⟨.identifier, 0, ['a'], none⟩]

theorem accepts_variableA :
    Accepts noSymbols oneVariable variableA (.node ⟨.id, 0, idtypeVar, 0, some (.var 0)⟩ .null .null) :=
  accepts_of_run noSymbols (n := 5) Tree.noConfusion (by decide +kernel)

theorem parser_rejects_parentheses_variableA :
    ¬Accepts noSymbols oneVariable (parenthesised variableA) (.node ⟨.id, 0, idtypeVar, 0, some (.var 0)⟩ .null .null) :=
  parser_rejects_parentheses noSymbols oneVariable accepts_variableA _

/-- `a` is an expression and `(a)` is none, so that the rule of the grammar fails. -/
theorem parentheses_rule_fails :
    ¬∀ (sym : Symbols) (globalVariable : Fin finshVariableMax → Var) (e : List Lexeme) (t : Tree),
      Accepts sym globalVariable e t → Accepts sym globalVariable (parenthesised e) t := by
  intro h
  exact not_accepts_parenthesised noSymbols [] rfl (by decide) _ (h noSymbols oneVariable variableA _ accepts_variableA)

example : ((procExpr noSymbols 6 (Parser.start oneVariable (parenthesised variableA))).map fun r => (r.2.errno, r.2.peek)) =
    some (some .invalidToken, .rightParen) := by decide +kernel

end RtThread.Finsh
