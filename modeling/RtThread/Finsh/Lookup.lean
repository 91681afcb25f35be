import RtThread.Finsh.Node
import Mathlib

/-!
# FinSH: the registered functions and variables (`finsh_vm.c:54-127`, `finsh_var.c:87-142`)

The names in the table of the linker are compared whole, and those in the list of the appended ones as far as the
name that is looked up goes.
-/

namespace RtThread.Finsh

/-- A name with what is registered under it. -/
structure Entry (α : Type*) where
  name : List Char
  value : α

/-- `strcmp(a, b) == 0`; a string is its characters before the NUL. -/
def strcmpEq (a b : List Char) : Bool := a = b

/-- `strncmp(a, b, n) == 0`. -/
def strncmpEq (a b : List Char) (n : ℕ) : Bool := a.take n = b.take n

/-- The table between its begin and its end, and the list of items, the last appended first. -/
structure Registry (α : Type*) where
  table : List (Entry α)
  list : List (Entry α)

variable {α : Type*}

/-- An item in front of the list, when there is memory for it. -/
def Registry.append (r : Registry α) (name : List Char) (value : α) (memory : Bool) : Registry α :=
  if memory then { r with list := ⟨name, value⟩ :: r.list } else r

def Registry.lookup (r : Registry α) (name : List Char) : Option (Entry α) :=
  match r.table.find? fun index => strcmpEq index.name name with
  | some index => some index
  | none => r.list.find? fun item => strncmpEq item.name name name.length

/-- `finsh_syscall_append` (`finsh_vm.c:55-77`), with the address of the function. -/
def finshSyscallAppend (r : Registry (BitVec 32)) (name : List Char) (func : BitVec 32) (memory : Bool) :
    Registry (BitVec 32) := r.append name func memory

/-- `finsh_syscall_lookup` (`finsh_vm.c:103-127`). -/
def finshSyscallLookup (r : Registry (BitVec 32)) (name : List Char) : Option (Entry (BitVec 32)) := r.lookup name

/-- `finsh_sysvar_append` (`finsh_var.c:88-111`). -/
def finshSysvarAppend (r : Registry Sysvar) (name : List Char) (type : FinshType) (addr : BitVec 32) (memory : Bool) :
    Registry Sysvar := r.append name ⟨type, addr⟩ memory

/-- `finsh_sysvar_lookup` (`finsh_var.c:114-142`). -/
def finshSysvarLookup (r : Registry Sysvar) (name : List Char) : Option (Entry Sysvar) := r.lookup name

/-! ### Exact lookup -/

/-- What is registered is found under its own name and no other. -/
structure Registry.Exact (r : Registry α) (name : List Char) (result : Option (Entry α)) : Prop where
  found : result.isSome = true ↔ ∃ e ∈ r.table ++ r.list, e.name = name
  named : ∀ e ∈ result, e ∈ r.table ++ r.list ∧ e.name = name

/-- The table has the name, or each item whose name begins with it has it or stands behind an item that has it. -/
def Registry.Unshadowed (r : Registry α) (name : List Char) : Prop :=
  (∃ e ∈ r.table, e.name = name) ∨
    ∀ us e vs, r.list = us ++ e :: vs → name <+: e.name → e.name = name ∨ ∃ e' ∈ us, e'.name = name

theorem strncmpEq_iff (a name : List Char) : strncmpEq a name name.length = true ↔ name <+: a := by
  rw [strncmpEq, decide_eq_true_eq, List.take_length, List.prefix_iff_eq_take]
  exact eq_comm

theorem find?_named_iff (l : List (Entry α)) (name : List Char) :
    (∀ e ∈ l.find? fun item => strncmpEq item.name name name.length, e.name = name) ↔
      ∀ us e vs, l = us ++ e :: vs → name <+: e.name → e.name = name ∨ ∃ e' ∈ us, e'.name = name := by
  induction l with
  | nil =>
    refine iff_of_true (fun e he => by cases he) fun us e vs h => ?_
    cases us with
    | nil => cases h
    | cons a us => cases h
  | cons a l ih =>
    by_cases ha : name <+: a.name
    · have hcmp : strncmpEq a.name name name.length = true := (strncmpEq_iff a.name name).mpr ha
      simp only [List.find?_cons, hcmp]
      constructor
      · intro h us e vs hsplit _
        have hname := h a rfl
        cases us with
        | nil =>
          cases hsplit
          exact Or.inl hname
        | cons b us =>
          cases hsplit
          exact Or.inr ⟨a, List.mem_cons_self, hname⟩
      · intro h e he
        cases he
        rcases h [] a l rfl ha with hname | ⟨e', he', -⟩
        · exact hname
        · cases he'
    · have hcmp : strncmpEq a.name name name.length = false :=
        Bool.eq_false_iff.mpr fun h => ha ((strncmpEq_iff a.name name).mp h)
      simp only [List.find?_cons, hcmp]
      rw [ih]
      constructor
      · intro h us e vs hsplit hprefix
        cases us with
        | nil =>
          cases hsplit
          exact absurd hprefix ha
        | cons b us =>
          cases hsplit
          rcases h us e vs rfl hprefix with hname | ⟨e', he', hname⟩
          · exact Or.inl hname
          · exact Or.inr ⟨e', List.mem_cons_of_mem a he', hname⟩
      · intro h us e vs hsplit hprefix
        rcases h (a :: us) e vs (by rw [hsplit]; rfl) hprefix with hname | ⟨e', he', hname⟩
        · exact Or.inl hname
        · rcases List.mem_cons.mp he' with rfl | he'
          · exact absurd (by rw [hname]) ha
          · exact Or.inr ⟨e', he', hname⟩

theorem Registry.lookup_mem {r : Registry α} {name : List Char} {e : Entry α} (h : r.lookup name = some e) :
    e ∈ r.table ++ r.list := by
  rw [Registry.lookup] at h
  cases htable : r.table.find? fun index => strcmpEq index.name name with
  | some index =>
    rw [htable] at h
    cases h
    exact List.mem_append_left _ (List.mem_of_find?_eq_some htable)
  | none =>
    rw [htable] at h
    exact List.mem_append_right _ (List.mem_of_find?_eq_some h)

theorem Registry.lookup_isSome {r : Registry α} {name : List Char} (h : ∃ e ∈ r.table ++ r.list, e.name = name) :
    (r.lookup name).isSome = true := by
  obtain ⟨e, he, rfl⟩ := h
  rw [Registry.lookup]
  cases htable : r.table.find? fun index => strcmpEq index.name e.name with
  | some index => rfl
  | none =>
    rcases List.mem_append.mp he with hmem | hmem
    · exact absurd (decide_eq_true rfl) (List.find?_eq_none.mp htable e hmem)
    · exact List.find?_isSome.mpr ⟨e, hmem, (strncmpEq_iff e.name e.name).mpr (List.prefix_refl _)⟩

theorem Registry.exact_iff (r : Registry α) (name : List Char) :
    r.Exact name (r.lookup name) ↔ r.Unshadowed name := by
  have hnamed : r.Exact name (r.lookup name) ↔ ∀ e ∈ r.lookup name, e.name = name := by
    constructor
    · intro h e he
      exact (h.named e he).2
    · intro h
      refine ⟨⟨fun hsome => ?_, Registry.lookup_isSome⟩, fun e he => ⟨Registry.lookup_mem he, h e he⟩⟩
      obtain ⟨e, he⟩ := Option.isSome_iff_exists.mp hsome
      exact ⟨e, Registry.lookup_mem he, h e he⟩
  rw [hnamed, Registry.lookup, Registry.Unshadowed]
  cases htable : r.table.find? fun index => strcmpEq index.name name with
  | some index =>
    have hcmp := List.find?_some htable
    have hname : index.name = name := of_decide_eq_true hcmp
    refine iff_of_true (fun e he => ?_) (Or.inl ⟨index, List.mem_of_find?_eq_some htable, hname⟩)
    cases he
    exact hname
  | none =>
    have hnot : ¬ ∃ e ∈ r.table, e.name = name := by
      intro ⟨e, he, hname⟩
      exact List.find?_eq_none.mp htable e he (decide_eq_true hname)
    rw [or_iff_right hnot]
    exact find?_named_iff r.list name

/-- The two lookups are exact for a name exactly if it is not shadowed. -/
theorem lookup_exact_iff (syscalls : Registry (BitVec 32)) (sysvars : Registry Sysvar) (name : List Char) :
    (syscalls.Exact name (finshSyscallLookup syscalls name) ↔ syscalls.Unshadowed name) ∧
      (sysvars.Exact name (finshSysvarLookup sysvars name) ↔ sysvars.Unshadowed name) :=
  ⟨syscalls.exact_iff name, sysvars.exact_iff name⟩

/-- `list_thread` alone is registered, and `list` is found. -/
theorem list_found : ¬ (finshSyscallAppend ⟨[], []⟩ "list_thread".toList 0x08001000 true).Exact "list".toList
    (finshSyscallLookup (finshSyscallAppend ⟨[], []⟩ "list_thread".toList 0x08001000 true) "list".toList) := by
  intro h
  have hfound : (finshSyscallLookup (finshSyscallAppend ⟨[], []⟩ "list_thread".toList 0x08001000 true)
      "list".toList).isSome = true := by decide
  obtain ⟨e, he, hname⟩ := h.found.mp hfound
  rw [List.mem_singleton.mp he] at hname
  exact absurd hname (by decide)

end RtThread.Finsh
