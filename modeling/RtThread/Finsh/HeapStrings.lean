import Mathlib
import RtThread.Finsh.HeapRuns
import RtThread.Finsh.Parser
import RtThread.Finsh.Token

/-!
# FinSH: the strings of a line

The parser allocates the strings of a line one after the other, and then the line is executed. A collection during the
parse knows the variables only.
-/

namespace RtThread.Finsh.Heap

open RtThread.Lib.Bytes RtThread.Lib.Word RtThread.Lib.Chain RtThread.Lib.Tiling RtThread.Lib.Transition

/-- The bytes of `l` at the address. -/
def strncpy (m : Mem) (a : ℕ) (l : List (BitVec 8)) : Mem :=
  fun x => if a ≤ x ∧ x < a + l.length then l.getD (x - a) 0 else m x

/-- `finsh_node_new_string` (`finsh_node.c:151-168`), with the `value.ptr` of the node. -/
def finshNodeNewString (s : FinshHeap) (string : List (BitVec 8)) : Option (ℕ × FinshHeap) := do
  let (ptr, s) ← finshHeapAllocate s (string.length + 1)
  some (ptr, { s with mem := strncpy s.mem ptr (string ++ [0]) })

/-- The heap with the pointers to the strings of the line. -/
structure Session where
  heap : FinshHeap
  literals : List ℕ

inductive Event where
  | literal (string : List (BitVec 8))
  | assign (i : Fin finshVariableMax) (v : GlobalVariable)
  | write (header i : ℕ) (value : BitVec 8)
  | finish

/-- The parser comes to a string, the line that is executed assigns a variable or writes data, or it has finished. A
string is one of a token. -/
def Session.step (s : Session) : Event → Option Session
  | .literal string =>
    if string.length < finshStringMax then (finshNodeNewString s.heap string).map fun r => ⟨r.2, r.1 :: s.literals⟩
    else none
  | .assign i v => (Heap.step s.heap (.assign i v)).map fun heap => { s with heap := heap }
  | .write header i value => (Heap.step s.heap (.write header i value)).map fun heap => { s with heap := heap }
  | .finish => some { s with literals := [] }

/-- The strings of the line are in allocated blocks that do not overlap, and a collection keeps the blocks that variables
hold. -/
structure Session.Spared (s : Session) : Prop where
  allocated : ∀ d ∈ s.literals, d ≠ 0 ∧ ∃ a ∈ s.heap.allocated, d = getData a
  disjoint : s.literals.Pairwise fun d e => Disjoint (s.heap.block (getHeader d)) (s.heap.block (getHeader e))
  held : ∀ h, finshHeapGc s.heap = some h → ∀ a ∈ s.heap.allocated, s.heap.isHeld (getData a) = true → a ∈ h.allocated

/-- No collection is needed for a string, or variables hold the strings that the line already has and there is room beside
the blocks that variables hold. -/
def Session.HasSpace (heap : ℕ) (s : Session) : Event → Prop
  | .literal string => s.heap.HasRoom (heapAlignSize (string.length + 1)) ∨
      (∀ d ∈ s.literals, s.heap.isHeld d = true) ∧
        s.heap.HasGap heap (heapAlignSize (string.length + 1) + 2 * headerSize)
  | _ => True

variable {heap : ℕ} {s s' : Session} {bs : List Block} {string : List (BitVec 8)} {a : ℕ}

/-! ### Whole heaps -/

theorem getData_injOn (hheap : Placed heap) (hs : Shape heap s.heap bs) :
    Set.InjOn getData {a | a ∈ headers heap bs} := by
  intro a ha c hc he
  rw [hs.getData_eq hheap ha, hs.getData_eq hheap hc] at he
  exact Nat.add_right_cancel he

theorem Whole.gc_keeps (hheap : Placed heap) (hw : Whole heap s.heap bs) {h : FinshHeap}
    (hgc : finshHeapGc s.heap = some h) (ha : a ∈ s.heap.allocated) (hheld : s.heap.isHeld (getData a) = true) : a ∈ h.allocated := by
  obtain ⟨h', bs', hrun, hw', hocc, -, -⟩ := gc_spec hheap hw
  obtain rfl := Option.some.inj (hgc.symm.trans hrun)
  rw [hw.shape.allocated_eq] at ha
  rw [hw'.shape.allocated_eq, hocc]
  exact List.mem_filter.mpr ⟨ha, hheld⟩

theorem Whole.spared_iff (hheap : Placed heap) (hw : Whole heap s.heap bs) :
    s.Spared ↔ (∀ d ∈ s.literals, ∃ a ∈ occupied heap bs, d = getData a) ∧ s.literals.Nodup := by
  have hs := hw.shape
  have hdata : ∀ a ∈ occupied heap bs, getHeader (getData a) = a ∧ getData a ≠ 0 := by
    intro a ha
    have hin := occupied_subset heap bs a ha
    have hbound := (headers_bound hs.room hin).2
    rw [hs.size] at hbound
    exact ⟨getHeader_getData hheap hbound, getData_ne_zero hheap hs hin⟩
  constructor
  · intro h
    have hall : ∀ d ∈ s.literals, ∃ a ∈ occupied heap bs, d = getData a := by
      intro d hd
      rw [← hs.allocated_eq]
      exact (h.allocated d hd).2
    refine ⟨hall, h.disjoint.imp_of_mem fun {d e} hd _ hdis he => ?_⟩
    obtain ⟨a, ha, rfl⟩ := hall d hd
    rw [← he, (hdata a ha).1, disjoint_self] at hdis
    have hin : a ∈ s.heap.block a := ⟨le_rfl, by rw [headerSize]; omega⟩
    rw [hdis] at hin
    exact hin
  · rintro ⟨hall, hnodup⟩
    refine ⟨fun d hd => ?_, hnodup.imp_of_mem fun {d e} hd he hne => ?_,
      fun h hgc a ha hheld => hw.gc_keeps hheap hgc ha hheld⟩
    · obtain ⟨a, ha, rfl⟩ := hall d hd
      exact ⟨(hdata a ha).2, a, by rwa [hs.allocated_eq], rfl⟩
    · obtain ⟨a, ha, rfl⟩ := hall d hd
      obtain ⟨c, hc, rfl⟩ := hall e he
      rw [(hdata a ha).1, (hdata c hc).1]
      obtain ⟨x, hx⟩ := exists_place (occupied_subset heap bs a ha)
      obtain ⟨y, hy⟩ := exists_place (occupied_subset heap bs c hc)
      rw [hs.block_eq hx, hs.block_eq hy]
      have hac : a ≠ c := fun he => hne (congrArg getData he)
      have hapart := place_disjoint hx hy hac
      rw [Set.disjoint_left]
      intro z hz hz'
      obtain ⟨hz1, hz2⟩ := hz
      obtain ⟨hz3, hz4⟩ := hz'
      omega

/-! ### A string -/

theorem strncpy_outside {m : Mem} {x : ℕ} {l : List (BitVec 8)} (h : x < a ∨ a + l.length ≤ x) : strncpy m a l x = m x :=
  if_neg (by omega)

theorem newString_spec (hheap : Placed heap) {h : FinshHeap} (hw : Whole heap h bs)
    (hlength : string.length < finshStringMax) :
    ∃ r h', finshNodeNewString h string = some (r, h') ∧
      (r = 0 ∧ ¬h.HasRoom (heapAlignSize (string.length + 1)) ∧
          ¬h.HasGap heap (heapAlignSize (string.length + 1) + 2 * headerSize) ∨
        ∃ bs' kept a, r = getData a ∧ Whole heap h' bs' ∧ (occupied heap bs').Perm (a :: kept) ∧
          (h.HasRoom (heapAlignSize (string.length + 1)) ∧ kept = occupied heap bs ∨
            ¬h.HasRoom (heapAlignSize (string.length + 1)) ∧
              h.HasGap heap (heapAlignSize (string.length + 1) + 2 * headerSize) ∧
                kept = (occupied heap bs).filter h.isKept)) := by
  rw [finshStringMax] at hlength
  obtain ⟨hsize, hlt⟩ := alignUp_spec (k := 2) (x := string.length + 1) (by omega)
  have hfits : heapAlignSize (string.length + 1) + headerSize < 2 ^ 32 := by
    rw [heapAlignSize, headerSize]
    omega
  obtain ⟨r, h1, bs1, hrun, hw1, -, kept, hkept, hcases⟩ := allocate_spec hheap hw hfits
  have hnew : finshNodeNewString h string = some (r, { h1 with mem := strncpy h1.mem r (string ++ [0]) }) := by
    rw [finshNodeNewString, hrun]
    rfl
  rcases hcases with ⟨a, rfl, hperm, hlen, hroom⟩ | ⟨rfl, hfull, hnogap, -⟩
  · have hin : a ∈ occupied heap bs1 := hperm.mem_iff.mpr List.mem_cons_self
    have hw' : Whole heap { h1 with mem := strncpy h1.mem (getData a) (string ++ [0]) } bs1 := by
      refine data_whole hheap hw1 hin fun x hx => strncpy_outside ?_
      rw [List.length_append, List.length_singleton]
      rw [hlen, heapAlignSize] at hx
      omega
    refine ⟨getData a, _, hnew, Or.inr ⟨bs1, kept, a, rfl, hw', hperm, ?_⟩⟩
    rcases hkept with ⟨hfirst, he⟩ | ⟨hfull, he⟩
    · exact Or.inl ⟨hfirst, he⟩
    · exact Or.inr ⟨hfull, hroom.resolve_left hfull, he⟩
  · exact ⟨0, _, hnew, Or.inl ⟨rfl, hfull, hnogap⟩⟩

theorem literal_spared (hheap : Placed heap) (hw : Whole heap s.heap bs) (hspared : s.Spared)
    (hstep : s.step (.literal string) = some s') :
    (s.HasSpace heap (.literal string) → (∃ bs', Whole heap s'.heap bs') ∧ s'.Spared) ∧
      (s'.Spared → s.HasSpace heap (.literal string)) := by
  obtain ⟨hliterals, hnodup⟩ := (hw.spared_iff hheap).mp hspared
  rw [Session.step] at hstep
  split at hstep
  · rename_i hlength
    obtain ⟨r, h, hrun, ⟨rfl, hfull, hnogap⟩ | ⟨bs', kept, a, rfl, hw', hperm, hkept⟩⟩ := newString_spec hheap hw hlength
    · -- NULL is no block
      rw [hrun] at hstep
      cases hstep
      constructor
      · rintro (hroom | ⟨-, hgap⟩)
        · exact absurd hroom hfull
        · exact absurd hgap hnogap
      · intro h'
        exact absurd rfl (h'.allocated 0 List.mem_cons_self).1
    · rw [hrun] at hstep
      cases hstep
      have hnodup' : (a :: kept).Nodup := hperm.nodup_iff.mp hw'.shape.occupied_nodup
      have hsub : ∀ c ∈ kept, c ∈ occupied heap bs := by
        intro c hc
        rcases hkept with ⟨-, rfl⟩ | ⟨-, -, rfl⟩
        · exact hc
        · exact List.mem_of_mem_filter hc
      have hinj := getData_injOn (s := ⟨h, []⟩) hheap hw'.shape
      have hheaders : ∀ c ∈ a :: kept, c ∈ headers heap bs' :=
        fun c hc => occupied_subset heap bs' c (hperm.mem_iff.mpr hc)
      rw [(show Whole heap (Session.mk h (getData a :: s.literals)).heap bs' from hw').spared_iff hheap]
      constructor
      · intro hspace
        have hall : ∀ d ∈ s.literals, ∃ c ∈ kept, d = getData c := by
          intro d hd
          obtain ⟨c, hc, rfl⟩ := hliterals d hd
          refine ⟨c, ?_, rfl⟩
          rcases hkept with ⟨-, rfl⟩ | ⟨hfull, -, rfl⟩
          · exact hc
          · exact List.mem_filter.mpr ⟨hc, (hspace.resolve_left hfull).1 _ hd⟩
        refine ⟨⟨bs', hw'⟩, fun d hd => ?_, List.nodup_cons.mpr ⟨fun hd => ?_, hnodup⟩⟩
        · rcases List.mem_cons.mp hd with rfl | hold
          · exact ⟨a, hperm.mem_iff.mpr List.mem_cons_self, rfl⟩
          · obtain ⟨c, hc, rfl⟩ := hall d hold
            exact ⟨c, hperm.mem_iff.mpr (List.mem_cons_of_mem a hc), rfl⟩
        · obtain ⟨c, hc, he⟩ := hall _ hd
          have hac := hinj (hheaders a List.mem_cons_self) (hheaders c (List.mem_cons_of_mem a hc)) he
          rw [← hac] at hc
          exact (List.nodup_cons.mp hnodup').1 hc
      · rintro ⟨hall, hnodup2⟩
        rcases hkept with ⟨hroom, -⟩ | ⟨-, hgap, rfl⟩
        · exact Or.inl hroom
        · refine Or.inr ⟨fun d hd => ?_, hgap⟩
          obtain ⟨c, hc, rfl⟩ := hall d (List.mem_cons_of_mem _ hd)
          rcases List.mem_cons.mp (hperm.mem_iff.mp hc) with rfl | hin
          · exact absurd hd (List.nodup_cons.mp hnodup2).1
          · exact (List.mem_filter.mp hin).2
  · cases hstep

/-! ### Every step -/

/-- The heap is whole, and the strings are spared. -/
def Session.Good (heap : ℕ) (s : Session) : Prop := (∃ bs, Whole heap s.heap bs) ∧ s.Spared

theorem act_spared (hheap : Placed heap) (hw : Whole heap s.heap bs) (hspared : s.Spared) {h : FinshHeap}
    (hw' : Whole heap h bs) : Session.Good heap { s with heap := h } := by
  have hsame := (hw.spared_iff hheap).mp hspared
  have hwhole : Whole heap { s with heap := h : Session }.heap bs := hw'
  exact ⟨⟨bs, hw'⟩, (hwhole.spared_iff hheap).mpr hsame⟩

theorem event_spared (hheap : Placed heap) {event : Event} (hgood : s.Good heap) (hspace : s.HasSpace heap event)
    (hstep : s.step event = some s') : s'.Good heap := by
  obtain ⟨⟨bs, hw⟩, hspared⟩ := hgood
  cases event with
  | literal string => exact (literal_spared hheap hw hspared hstep).1 hspace
  | assign i v =>
    cases hstep
    exact act_spared hheap hw hspared (assign_whole hw _)
  | write header i v =>
    obtain ⟨h, hrun, rfl⟩ := Option.map_eq_some_iff.mp hstep
    rw [Heap.step] at hrun
    split at hrun
    · rename_i hin
      rw [hw.shape.allocated_eq] at hin
      cases hrun
      exact act_spared hheap hw hspared (write_whole hheap hw hin.1 hin.2 v)
    · cases hrun
  | finish =>
    cases hstep
    have hwhole : Whole heap { s with literals := [] : Session }.heap bs := hw
    refine ⟨⟨bs, hw⟩, (hwhole.spared_iff hheap).mpr ⟨fun d hd => ?_, List.nodup_nil⟩⟩
    cases hd

theorem event_space (hheap : Placed heap) {event : Event} (hgood : s.Good heap) (hspared : s'.Spared)
    (hstep : s.step event = some s') : s.HasSpace heap event := by
  obtain ⟨⟨bs, hw⟩, hspared0⟩ := hgood
  cases event with
  | literal string => exact (literal_spared hheap hw hspared0 hstep).2 hspared
  | assign i v => trivial
  | write header i v => trivial
  | finish => trivial

/-- Before the first line. -/
def Session.start (heap : ℕ) (m : Mem) (gv : Fin finshVariableMax → GlobalVariable) : Session :=
  ⟨finshHeapInit heap m gv, []⟩

theorem start_good (hheap : Placed heap) (m : Mem) (gv : Fin finshVariableMax → GlobalVariable) :
    (Session.start heap m gv).Good heap := by
  have hw : Whole heap (Session.start heap m gv).heap [⟨finshHeapMax, none⟩] := init_whole hheap m gv
  refine ⟨⟨_, hw⟩, (hw.spared_iff hheap).mpr ⟨fun d hd => ?_, List.nodup_nil⟩⟩
  cases hd

/-- The strings of every line are spared exactly if each of them finds space without them. -/
theorem strings_spared_iff (hheap : Placed heap) (m : Mem) (gv : Fin finshVariableMax → GlobalVariable)
    (events : List Event) :
    AllStates Session.step Session.Spared (Session.start heap m gv) events ↔
      AllSteps Session.step (Session.HasSpace heap) (Session.start heap m gv) events := by
  apply allStates_iff_allSteps_of_next (Session.Good heap)
  · intro s event s' hgood hspared hstep
    exact event_space hheap hgood hspared hstep
  · intro s event s' hgood hspace hstep
    have hgood' := event_spared hheap hgood hspace hstep
    exact ⟨hgood', hgood'.2⟩
  · exact start_good hheap m gv
  · exact (start_good hheap m gv).2

theorem strings_spared_iff_two :
    AllStates Session.step Session.Spared (Session.start 4096 (fun _ => 0) fun _ => ⟨.unknown, 0⟩)
        [.literal [97], .literal [98], .finish] ↔
      AllSteps Session.step (Session.HasSpace 4096) (Session.start 4096 (fun _ => 0) fun _ => ⟨.unknown, 0⟩)
        [.literal [97], .literal [98], .finish] :=
  strings_spared_iff ⟨by decide, by decide, by decide⟩ _ _ _

/-! ### A line with two strings -/

/-- The parser comes to the strings of a line. -/
def lineStrings (line : List Lexeme) : List Event :=
  (line.filter fun l => l.token = .valueString).map fun l => .literal (l.string.map fun c => BitVec.ofNat 8 c.toNat)

def lexemeString (c : Char) (n : ℕ) : Lexeme := ⟨.valueString, 0, List.replicate n c, none⟩

def lexemeToken (token : TokenType) : Lexeme := ⟨token, 0, [], none⟩

/-- A string of 60 characters. -/
def oneString : List Lexeme := [lexemeString 'a' 60, lexemeToken .semicolon]

/-- Two strings of 20 characters. -/
def twoStrings : List Lexeme := [lexemeString 'b' 20, lexemeToken .or, lexemeString 'c' 20, lexemeToken .semicolon]

/-- Both lines are accepted. The first one leaves so little room that the second string of the other releases the first. -/
theorem string_collected :
    (∀ line ∈ [oneString, twoStrings],
      (finshParserRun noSymbols 20 (Parser.start oneVariable line)).map (fun r => r.2.errno) = some none) ∧
    ¬AllStates Session.step Session.Spared (Session.start 4096 (fun _ => 0) fun _ => ⟨.unknown, 0⟩)
      (lineStrings oneString ++ [.finish] ++ lineStrings twoStrings) := by
  have hrun : (exec Session.step (Session.start 4096 (fun _ => 0) fun _ => ⟨.unknown, 0⟩)
      (lineStrings oneString ++ [.finish] ++ lineStrings twoStrings)).map (fun s => (s.literals, s.heap.allocated)) =
        some ([4104, 4176], [4096]) := by
    decide +kernel
  refine ⟨?_, fun h => ?_⟩
  · intro line hline
    rcases List.mem_cons.mp hline with rfl | hrest
    · decide +kernel
    · rw [List.mem_singleton.mp hrest]
      decide +kernel
  · obtain ⟨s, hs, hpair⟩ := Option.map_eq_some_iff.mp hrun
    obtain ⟨hliterals, hallocated⟩ := Prod.mk.inj hpair
    have hspared := AllStates.exec h hs
    have hin : 4176 ∈ s.literals := by
      rw [hliterals]
      exact List.mem_cons_of_mem _ List.mem_cons_self
    obtain ⟨-, a, ha, he⟩ := hspared.allocated 4176 hin
    rw [hallocated] at ha
    rw [List.mem_singleton.mp ha] at he
    exact absurd he (by decide)

end RtThread.Finsh.Heap
