import RtThread.Finsh.Codegen
import RtThread.Finsh.VmRuns
import Mathlib

/-!
# FinSH: integer expressions are compiled correctly

What the parser, the compiler and the virtual machine do with a line of statements is what `Expr.eval` says of
the expressions that the grammar derives from it.
-/

namespace RtThread.Finsh

variable {globalVariable : Fin finshVariableMax → Var}

/-! ### The variables in the memory -/

def Memory.values (mem : Memory) (layout : Layout) : Values := fun i => load mem .dword (layout.valueAddr (.var i))

theorem Memory.values_store (mem : Memory) (layout : Layout) (x : IntVar globalVariable) (v : Word) :
    (store mem .dword (x.addr layout) v : Memory).values layout = (mem.values layout).set x v := by
  funext i
  simp only [Memory.values, Values.set]
  by_cases hi : i = x.1
  · rw [hi, Function.update_self]
    exact load_store_same mem _ v
  · rw [Function.update_of_ne hi]
    exact load_store_other mem v (layout.separate x.1 i (Ne.symm hi))

/-! ### Expressions -/

theorem UnaryOp.eval_minus (v : Word) : BinOp.sub.eval 0 v = some (UnaryOp.minus.eval v) :=
  congrArg some (BitVec.zero_sub v)

theorem StepOp.eval_binOp (op : StepOp) (v : Word) : op.binOp.eval v 1 = some (op.eval v) := by
  cases op <;> rfl

section Runs

variable (target : Target) {text : List Byte} (htext : text.length = finshTextMax)
include htext

theorem runs_step (op : StepOp) {st : List Word} (hst : st.length + 2 < finshStackMax) (mem : Memory) (a : Word) :
    Runs target text (codeLdValue .dword a ++ codeOne .dword ++ [(Op.binary op.binOp .dword).code, (Op.st .dword).code])
      ⟨a :: st, mem⟩ ⟨a :: st, store mem .dword a (op.eval (load mem .dword a))⟩ := by
  have hload : Runs target text (codeLdValue .dword a) ⟨a :: st, mem⟩ ⟨load mem .dword a :: a :: st, mem⟩ :=
    runs_ldValue target htext (by rw [List.length_cons]; omega) mem a
  have hone : Runs target text (codeOne .dword) ⟨load mem .dword a :: a :: st, mem⟩ ⟨1 :: load mem .dword a :: a :: st, mem⟩ :=
    runs_ld target htext (by simp only [List.length_cons]; omega) mem 1
  have hop := runs_binary target htext (op.eval_binOp (load mem .dword a)) (a :: st) mem
  exact (hload.append hone).append (hop.append (runs_st target htext _ a st mem))

theorem runs_codePre (op : StepOp) {st : List Word} (hst : st.length + 2 < finshStackMax) (mem : Memory) (a : Word) :
    Runs target text (codePre op.binOp .dword a) ⟨a :: st, mem⟩
      ⟨op.eval (load mem .dword a) :: st, store mem .dword a (op.eval (load mem .dword a))⟩ := by
  have hlast := runs_ldValueStack target htext a st (store mem .dword a (op.eval (load mem .dword a)))
  rw [load_store_same] at hlast
  have hrun := (runs_step target htext op hst mem a).append hlast
  rw [List.append_assoc] at hrun
  exact hrun

theorem runs_codePost (op : StepOp) {st : List Word} (hst : st.length + 3 < finshStackMax) (mem : Memory) (v a : Word) :
    Runs target text (codePost op.binOp .dword a) ⟨v :: st, mem⟩
      ⟨v :: st, store mem .dword a (op.eval (load mem .dword a))⟩ := by
  have haddr : Runs target text (codeLd a) ⟨v :: st, mem⟩ ⟨a :: v :: st, mem⟩ :=
    runs_ld target htext (by rw [List.length_cons]; omega) mem a
  have hst' : (v :: st).length + 2 < finshStackMax := by
    rw [List.length_cons]
    omega
  have hstep := runs_step target htext op hst' mem a
  have hrun := (haddr.append hstep).append (runs_pop target htext a (v :: st) _)
  simp only [List.append_assoc] at hrun
  simp only [codePost, List.append_assoc]
  exact hrun

theorem Expr.code_runs (layout : Layout) (e : Expr (IntVar globalVariable)) :
    ∀ {ρ ρ' : Values} {v : Word}, e.eval ρ = some (v, ρ') → ∀ (st : List Word) (mem : Memory), mem.values layout = ρ →
      st.length + e.nodes + 2 ≤ finshStackMax →
        ∃ mem' : Memory, mem'.values layout = ρ' ∧ Runs target text (e.code layout) ⟨st, mem⟩ ⟨v :: st, mem'⟩ := by
  induction e with
  | const long w =>
    intro ρ ρ' v heval st mem hmem hst
    simp only [Expr.nodes] at hst
    cases heval
    exact ⟨mem, hmem, runs_ld target htext (by omega) mem w⟩
  | var x =>
    intro ρ ρ' v heval st mem hmem hst
    simp only [Expr.nodes] at hst
    cases heval
    subst hmem
    exact ⟨mem, rfl, runs_ldValue target htext (by omega) mem (x.addr layout)⟩
  | assign x e ih =>
    intro ρ ρ' v heval st mem hmem hst
    simp only [Expr.nodes] at hst
    obtain ⟨⟨w, ρ1⟩, he, heq⟩ := Option.map_eq_some_iff.mp heval
    cases heq
    have haddr := runs_ld target htext (show st.length < finshStackMax by omega) mem (x.addr layout)
    obtain ⟨mem1, hmem1, hrun⟩ := ih he (x.addr layout :: st) mem hmem (by rw [List.length_cons]; omega)
    have hload := runs_ldValueStack target htext (x.addr layout) st (store mem1 .dword (x.addr layout) w)
    rw [load_store_same] at hload
    refine ⟨store mem1 .dword (x.addr layout) w, ?_, (haddr.append hrun).append ((runs_st target htext w _ st mem1).append hload)⟩
    rw [Memory.values_store, hmem1]
  | binary op a b iha ihb =>
    intro ρ ρ' v heval st mem hmem hst
    simp only [Expr.nodes] at hst
    obtain ⟨⟨wa, ρ1⟩, ha, heval⟩ := Option.bind_eq_some_iff.mp heval
    obtain ⟨⟨wb, ρ2⟩, hb, heval⟩ := Option.bind_eq_some_iff.mp heval
    obtain ⟨w, hw, heq⟩ := Option.map_eq_some_iff.mp heval
    cases heq
    obtain ⟨mem1, hmem1, hrun1⟩ := iha ha st mem hmem (by omega)
    -- the left operand stays below the right one
    obtain ⟨mem2, hmem2, hrun2⟩ := ihb hb (wa :: st) mem1 hmem1 (by rw [List.length_cons]; omega)
    exact ⟨mem2, hmem2, (hrun1.append hrun2).append (runs_binary target htext hw st mem2)⟩
  | unary op e ih =>
    intro ρ ρ' v heval st mem hmem hst
    obtain ⟨⟨w, ρ1⟩, he, heq⟩ := Option.map_eq_some_iff.mp heval
    cases heq
    cases op with
    | plus => exact ih he st mem hmem hst
    | minus =>
      simp only [Expr.nodes] at hst
      have hzero := runs_ld target htext (show st.length < finshStackMax by omega) mem 0
      obtain ⟨mem1, hmem1, hrun⟩ := ih he (0 :: st) mem hmem (by rw [List.length_cons]; omega)
      exact ⟨mem1, hmem1, (hzero.append hrun).append (runs_binary target htext (UnaryOp.eval_minus w) st mem1)⟩
    | bitwise =>
      simp only [Expr.nodes] at hst
      obtain ⟨mem1, hmem1, hrun⟩ := ih he st mem hmem (by omega)
      exact ⟨mem1, hmem1, hrun.append (runs_bw target htext w st mem1)⟩
  | pre op x =>
    intro ρ ρ' v heval st mem hmem hst
    simp only [Expr.nodes] at hst
    cases heval
    subst hmem
    have haddr := runs_ld target htext (show st.length < finshStackMax by omega) mem (x.addr layout)
    exact ⟨_, mem.values_store layout x _, haddr.append (runs_codePre target htext op (by omega) mem (x.addr layout))⟩
  | post op x =>
    intro ρ ρ' v heval st mem hmem hst
    simp only [Expr.nodes] at hst
    cases heval
    subst hmem
    have hload := runs_ldValue target htext (show st.length < finshStackMax by omega) mem (x.addr layout)
    exact ⟨_, mem.values_store layout x _, hload.append (runs_codePost target htext op (by omega) mem _ (x.addr layout))⟩

theorem statementsCode_runs (layout : Layout) (es : List (Expr (IntVar globalVariable))) :
    ∀ {ρ ρ' : Values} {v : Word}, evalStatements es ρ = some (v, ρ') → ∀ (st : List Word) (mem : Memory),
      mem.values layout = ρ → st.length + (es.map Expr.nodes).sum + 2 ≤ finshStackMax →
        ∃ mem' : Memory, mem'.values layout = ρ' ∧
          Runs target text (statementsCode layout es) ⟨st, mem⟩ ⟨v :: st, mem'⟩ := by
  induction es with
  | nil => exact fun heval => by cases heval
  | cons e es ih =>
    intro ρ ρ' v heval st mem hmem hst
    simp only [List.map_cons, List.sum_cons] at hst
    cases es with
    | nil => exact e.code_runs target htext layout heval st mem hmem (by omega)
    | cons e' es =>
      obtain ⟨⟨w, ρ1⟩, he, hes⟩ := Option.bind_eq_some_iff.mp heval
      obtain ⟨mem1, hmem1, hrun1⟩ := e.code_runs target htext layout he st mem hmem (by omega)
      obtain ⟨mem2, hmem2, hrun2⟩ := ih hes st mem1 hmem1 (by omega)
      exact ⟨mem2, hmem2, (hrun1.append (runs_pop target htext w st mem1)).append hrun2⟩

end Runs

/-! ### Lines -/

/-- A line of statements without an undefined operation whose nodes are no more than there are is parsed without
an error, and its code, if it fits in the text segment, leaves the value of the last statement in the first
slot of the stack and the values of the variables in the memory. -/
theorem finsh_line_correct (sym : Symbols) (layout : Layout) (target : Target) {line : List Lexeme}
    {es : List (Expr (IntVar globalVariable))} (hline : DerivesLine globalVariable line es)
    (hnodes : (es.map Expr.nodes).sum ≤ finshNodeMax) {mem : Memory} {v : Word} {ρ : Values}
    (heval : evalStatements es (mem.values layout) = some (v, ρ)) (stack : ℕ → Word) {n : ℕ} (hn : line.length < n) :
    ∃ root s, finshParserRun sym n (Parser.start globalVariable line) = some (root, s) ∧ s.errno = none ∧
      ∀ text e, finshCompilerRun globalVariable layout root = some (text, e) → e = none ∧
        ∀ m, finshTextMax < m →
          ∃ vm, finshVmRun target text m stack mem = some vm ∧ vm.stack 0 = v ∧ vm.mem.values layout = ρ := by
  obtain ⟨s, hparse, herrno⟩ := finshParserRun_gives sym hline hnodes hn
  refine ⟨_, s, hparse, herrno, fun text e hcompile => ?_⟩
  obtain ⟨he, hlen, htext⟩ := finshCompilerRun_link layout hcompile
  refine ⟨he, fun m hm => ?_⟩
  have hlength : text.length = finshTextMax := by
    rw [htext, List.length_append, List.length_replicate]
    omega
  have hmax : finshNodeMax + 2 ≤ finshStackMax := by decide
  obtain ⟨mem', hmem', hrun⟩ := statementsCode_runs target hlength layout es heval [] mem rfl
    (by rw [List.length_nil]; omega)
  have hwhole := hrun.append (runs_noOps target hlength (finshTextMax - (statementsCode layout es).length) ⟨[v], mem'⟩)
  have htext' : statementsCode layout es ++
      List.replicate (finshTextMax - (statementsCode layout es).length) Op.noOp.code = text := htext.symm
  rw [htext'] at hwhole
  obtain ⟨vm, hvm, hhas⟩ := hwhole.finshVmRun hlength stack hm
  exact ⟨vm, hvm, hhas.stack.1, (congrArg (Memory.values · layout) hhas.mem).trans hmem'⟩

/-- The variables lie one after the other, from the address 0x1000. -/
def rowAddr : NodeId → Word
  | .var i => 0x1000 + BitVec.ofNat 32 (4 * i)
  | .sysvar v => v.addr
  | .syscall func => func

theorem rowAddr_separate (i j : Fin finshVariableMax) (hij : i ≠ j) (p q : Word) (hp : p < 4) (hq : q < 4) :
    rowAddr (.var i) + p ≠ rowAddr (.var j) + q := by
  intro h
  have hne : i.val ≠ j.val := fun h => hij (Fin.ext h)
  have hi := i.isLt
  have hj := j.isLt
  simp only [finshVariableMax] at hi hj
  simp only [rowAddr] at h
  bv_omega

def rowLayout : Layout := ⟨rowAddr, rowAddr_separate⟩

def lexemeOf (t : TokenType) : Lexeme := ⟨t, 0, [], none⟩

def lexemeInt (v : Word) : Lexeme := ⟨.valueInt, v, [], none⟩

def lexemeA : Lexeme := ⟨.identifier, 0, ['a'], none⟩

def intA : IntVar oneVariable := ⟨0, .inl rfl⟩

/-- `a = 7 - 2 * 3; a++ + ~a;` -/
def twoStatements : List Lexeme :=
  [lexemeA, lexemeOf .assign, lexemeInt 7, lexemeOf .sub, lexemeInt 2, lexemeOf .mul, lexemeInt 3, lexemeOf .semicolon,
    lexemeA, lexemeOf .inc, lexemeOf .add, lexemeOf .bitwise, lexemeA, lexemeOf .semicolon]

def twoExprs : List (Expr (IntVar oneVariable)) :=
  [.assign intA (.binary .sub (.const false 7) (.binary .mul (.const false 2) (.const false 3))),
    .binary .add (.post .inc intA) (.unary .bitwise (.var intA))]

theorem derives_lift {globalVariable : Fin finshVariableMax → Var} {k j : ℕ} {ls : List Lexeme}
    {e : Expr (IntVar globalVariable)} (hkj : k ≤ j) (hj : j ≤ 8) (h : Derives globalVariable j ls e) :
    Derives globalVariable k ls e := by
  induction j, hkj using Nat.le_induction with
  | base => exact h
  | succ j hkj ih => exact ih (by omega) (.lift (by omega) h)

theorem twoStatements_derives : DerivesLine oneVariable twoStatements twoExprs := by
  have hA : lexemeA.Names oneVariable intA := ⟨⟨rfl, rfl⟩, rfl⟩
  have hint : ∀ v, Derives oneVariable 8 [lexemeInt v] (.const false v) := fun v => .const false ⟨rfl, rfl⟩
  have hmul := @Derives.binary oneVariable .mul (lexemeOf .mul) _ _ _ _ ⟨rfl, rfl⟩
    (derives_lift (by decide) (by decide) (hint 2)) (derives_lift (by decide) (by decide) (hint 3))
  have hsub := @Derives.binary oneVariable .sub (lexemeOf .sub) _ _ _ _ ⟨rfl, rfl⟩
    (derives_lift (by decide) (by decide) (hint 7)) hmul
  have hassign : Derives oneVariable 0 _ _ :=
    .assign hA (o := lexemeOf .assign) ⟨rfl, rfl⟩ (derives_lift (by decide) (by decide) hsub)
  have hpost : Derives oneVariable 8 [lexemeA, lexemeOf .inc] (.post .inc intA) := .post hA ⟨rfl, rfl⟩
  have hnot : Derives oneVariable 7 [lexemeOf .bitwise, lexemeA] (.unary .bitwise (.var intA)) :=
    .unary ⟨rfl, rfl⟩ (derives_lift (by decide) (by decide) (.var hA))
  have hadd := @Derives.binary oneVariable .add (lexemeOf .add) _ _ _ _ ⟨rfl, rfl⟩
    (derives_lift (by decide) (by decide) hpost) (derives_lift (by decide) (by decide) hnot)
  have hline := DerivesLine.cons hassign (o := lexemeOf .semicolon) ⟨rfl, rfl⟩
    (.cons (derives_lift (by decide) (by decide) hadd) (o := lexemeOf .semicolon) ⟨rfl, rfl⟩ .nil)
  exact hline

def noCalls : Target := ⟨true, fun _ _ _ => none⟩

theorem twoStatements_eval : evalStatements twoExprs (Memory.values (fun _ => 0) rowLayout) =
    some (-2, Values.set (fun _ => 0) intA 2) := by
  have hzero : Memory.values (fun _ => 0) rowLayout = fun _ => 0 := funext fun _ => (by decide : ofBytes 0 0 0 0 = 0)
  have hset : Values.set (Values.set (fun _ => 0) intA 1) intA 2 = Values.set (fun _ => 0) intA 2 :=
    Function.update_idem _ _ _
  rw [hzero, ← hset]
  rfl

/-- `a` is 2 and the value of the line is -2. -/
theorem finsh_line_correct_twoStatements :
    ∃ root s text, finshParserRun noSymbols 15 (Parser.start oneVariable twoStatements) = some (root, s) ∧
      s.errno = none ∧ finshCompilerRun oneVariable rowLayout root = some (text, none) ∧
        ∀ m, finshTextMax < m →
          ∃ vm, finshVmRun noCalls text m (fun _ => 0) (fun _ => 0) = some vm ∧ vm.stack 0 = -2 ∧
            vm.mem.values rowLayout = Values.set (fun _ => 0) intA 2 := by
  obtain ⟨root, s, hparse, herrno, h⟩ := finsh_line_correct noSymbols rowLayout noCalls twoStatements_derives (by decide)
    twoStatements_eval (fun _ => 0) (show twoStatements.length < 15 by decide)
  have hfits : ((finshParserRun noSymbols 15 (Parser.start oneVariable twoStatements)).bind fun r =>
      finshCompilerRun oneVariable rowLayout r.1).isSome = true := by decide +kernel
  rw [hparse] at hfits
  obtain ⟨⟨text, e⟩, hcompile⟩ := Option.isSome_iff_exists.mp hfits
  obtain ⟨rfl, hvm⟩ := h text e hcompile
  exact ⟨root, s, text, hparse, herrno, hcompile, hvm⟩

end RtThread.Finsh
