import Mathlib
import RtThread.Finsh.HeapTiles

/-!
# FinSH: what the functions of the heap do to its blocks (`finsh_heap.c:54-142`)
-/

namespace RtThread.Finsh.Heap

open RtThread.Lib.Bytes RtThread.Lib.Word RtThread.Lib.Chain RtThread.Lib.Tiling

variable {heap : ℕ} {s s' : FinshHeap} {bs xs ys : List Block} {b : Block} {a p : ℕ}

theorem getHeader_getData (hp : Placed heap) (ha : a + headerSize ≤ heap + finshHeapMax) : getHeader (getData a) = a := by
  have hfits := hp.fits
  rw [getHeader, getData, add_of_lt (by omega), sub_of_le (by omega) (by omega), Nat.add_sub_cancel]

/-! ### Freeing a block -/

theorem vacant_ne_nil (h : ∃ c ∈ ys.getLast?, c.label = none) (p : ℕ) : vacant p ys ≠ [] := by
  obtain ⟨c, hc, hlabel⟩ := h
  obtain ⟨init, hinit⟩ := List.getLast?_eq_some_iff.mp hc
  rw [hinit, vacant_append, vacant_cons_of_none [] hlabel]
  exact List.append_ne_nil_of_right_ne_nil _ (List.cons_ne_nil _ _)

theorem last_behind {u : Unit} (h : ∃ c ∈ (xs ++ b :: ys).getLast?, c.label = none) (hb : b.label = some u) :
    ∃ c ∈ ys.getLast?, c.label = none := by
  obtain ⟨c, hc, hlabel⟩ := h
  cases ys with
  | nil =>
    rw [List.getLast?_concat] at hc
    cases hc
    rw [hb] at hlabel
    cases hlabel
  | cons y ys =>
    rw [List.getLast?_append_of_ne_nil _ (List.cons_ne_nil _ _), List.getLast?_cons_cons] at hc
    exact ⟨c, hc, hlabel⟩

theorem headers_relabel (heap : ℕ) (xs ys : List Block) (b : Block) (label : Option Unit) :
    headers heap (xs ++ ⟨b.len, label⟩ :: ys) = headers heap (xs ++ b :: ys) := by
  rw [headers_middle, headers_middle]

theorem place_relabel {label : Option Unit} {x : ℕ × Block} (hx : x ∈ place heap (xs ++ ⟨b.len, label⟩ :: ys)) :
    ∃ y ∈ place heap (xs ++ b :: ys), y.1 = x.1 ∧ y.2.len = x.2.len := by
  rw [place_middle] at hx ⊢
  rcases List.mem_append.mp hx with hleft | hright
  · exact ⟨x, List.mem_append_left _ hleft, rfl, rfl⟩
  · rcases List.mem_cons.mp hright with rfl | hbehind
    · exact ⟨_, List.mem_append_right _ List.mem_cons_self, rfl, rfl⟩
    · exact ⟨x, List.mem_append_right _ (List.mem_cons_of_mem _ hbehind), rfl, rfl⟩

theorem last_middle (xs : List Block) (b : Block) (h : ∃ c ∈ ys.getLast?, c.label = none) :
    ∃ c ∈ (xs ++ b :: ys).getLast?, c.label = none := by
  obtain ⟨c, hc, hlabel⟩ := h
  cases ys with
  | nil => cases hc
  | cons y ys =>
    refine ⟨c, ?_, hlabel⟩
    rw [List.getLast?_append_of_ne_nil _ (List.cons_ne_nil _ _), List.getLast?_cons_cons]
    exact hc

theorem free_lists (hp : Placed heap) (hs : Shape heap s (xs ++ b :: ys)) (hb : b.label = some ()) :
    ∃ m1 al m2 f, finshBlockRemove s.mem s.allocateList (heap + total xs) = some (m1, al) ∧
      finshBlockInsert m1 s.freeList (heap + total xs) = some (m2, f) ∧
        Shape heap { s with mem := m2, freeList := f, allocateList := al } (xs ++ ⟨b.len, none⟩ :: ys) ∧
          ∀ a ∈ headers heap (xs ++ b :: ys), length m2 a = length s.mem a := by
  have hA := hs.apart hp
  have hocc := occupied_middle_of_some heap xs ys hb
  have hvac := vacant_middle_of_some heap xs ys hb
  have hocc' := occupied_middle_of_none (b := ⟨b.len, none⟩) heap xs ys rfl
  have hvac' := vacant_middle_of_none (b := ⟨b.len, none⟩) heap xs ys rfl
  have hheaders := headers_relabel heap xs ys b none
  have hh : heap + total xs ∈ headers heap (xs ++ b :: ys) := by
    rw [headers_middle]
    exact List.mem_append_right _ List.mem_cons_self
  obtain ⟨halignedxs, haligned⟩ := List.forall_mem_append.mp hs.aligned
  obtain ⟨halignedb, halignedys⟩ := List.forall_mem_cons.mp haligned
  have hroom : ∀ c ∈ xs ++ (⟨b.len, none⟩ : Block) :: ys, headerSize ≤ c.len := by
    obtain ⟨hroomxs, hright⟩ := List.forall_mem_append.mp hs.room
    exact List.forall_mem_append.mpr ⟨hroomxs, List.forall_mem_cons.mpr (List.forall_mem_cons.mp hright)⟩
  have hlast := last_behind hs.last hb
  -- the allocated blocks
  obtain ⟨m1, al, hremove, hal, hrel⟩ := remove_spec hA (by rw [← hocc]; exact occupied_subset heap _)
    (by rw [← hocc]; exact hs.allocated) (by rw [← hocc]; exact hs.occupied_nodup)
    (by rw [← hocc]; exact hs.occupied_fuel)
  have hfree1 : Linked (link m1) (pointer s.freeList) (vacant heap xs ++ vacant (heap + total xs + b.len) ys) := by
    rw [← hvac]
    refine hs.free.congr fun c hc => hrel.links c (vacant_subset heap _ c hc) ?_
    intro hin
    refine not_mem_occupied hs.room hc ?_
    rw [hocc]
    rcases List.mem_cons.mp hin with rfl | hleft
    · exact List.mem_append_right _ List.mem_cons_self
    · exact List.mem_append_left _ hleft
  -- the free blocks
  obtain ⟨m2, f, hinsert, hf, hrel2⟩ := insert_spec hA (by rw [← hvac]; exact vacant_subset heap _) hh hfree1
    (by rw [← hvac']; exact vacant_sorted hroom) (fun hnil => absurd hnil (vacant_ne_nil hlast _))
    (by rw [← hvac]; exact hs.vacant_fuel)
  refine ⟨m1, al, m2, f, hremove, hinsert, ⟨?_, hroom, ?_, ?_, ?_, ?_, last_middle xs _ hlast⟩,
    fun a ha => (hrel2.lengths a ha).trans (hrel.lengths a ha)⟩
  · have hsize := hs.size
    rw [total_middle] at hsize ⊢
    exact hsize
  · exact List.forall_mem_append.mpr ⟨halignedxs, List.forall_mem_cons.mpr ⟨halignedb, halignedys⟩⟩
  · intro x hx
    obtain ⟨y, hy, haddress, hlen⟩ := place_relabel hx
    have hin : y.1 ∈ headers heap (xs ++ b :: ys) := List.mem_map_of_mem hy
    rw [← haddress, ← hlen, hrel2.lengths y.1 hin, hrel.lengths y.1 hin]
    exact hs.lengths y hy
  · rw [hvac']
    exact hf
  · rw [hocc']
    refine hal.congr fun c hc => ?_
    have hc' : c ∈ occupied heap (xs ++ ⟨b.len, none⟩ :: ys) := by
      rw [hocc']
      exact hc
    refine hrel2.links c (by rw [← hheaders]; exact occupied_subset heap _ c hc') ?_
    intro hin
    refine not_mem_occupied hroom ?_ hc'
    rw [hvac']
    rcases List.mem_cons.mp hin with rfl | hleft
    · exact List.mem_append_right _ List.mem_cons_self
    · exact List.mem_append_left _ hleft

/-! ### Neighbours -/

theorem prev_cases (xs : List Block) :
    (∃ us u, xs = us ++ [u] ∧ u.label = none) ∨ ∀ c ∈ xs.getLast?, c.label.isSome = true := by
  rcases List.eq_nil_or_concat xs with rfl | ⟨us, u, hu⟩
  · exact Or.inr fun c hc => absurd hc (Option.not_mem_none c)
  · rw [List.concat_eq_append] at hu
    cases hlabel : u.label with
    | none => exact Or.inl ⟨us, u, hu, hlabel⟩
    | some x =>
      refine Or.inr fun c hc => ?_
      rw [hu, List.getLast?_concat] at hc
      cases hc
      rw [hlabel]
      rfl

theorem next_cases (ys : List Block) :
    (∃ n vs, ys = n :: vs ∧ n.label = none) ∨ ∀ c ∈ ys.head?, c.label.isSome = true := by
  cases ys with
  | nil => exact Or.inr fun c hc => absurd hc (Option.not_mem_none c)
  | cons n vs =>
    cases hlabel : n.label with
    | none => exact Or.inl ⟨n, vs, rfl, hlabel⟩
    | some x =>
      refine Or.inr fun c hc => ?_
      cases hc
      rw [hlabel]
      rfl

theorem Shape.behind_eq (hp : Placed heap) (hs : Shape heap s bs) {x : ℕ × Block} (hx : x ∈ place heap bs) :
    behind s.mem x.1 = x.1 + x.2.len := by
  have hfits := hp.fits
  have hbound := (mem_place (q := x.1) (b := x.2) hx).2
  have hlen := hs.lengths x hx
  rw [hs.size] at hbound
  rw [Heap.behind_eq (by omega), Nat.add_assoc, hlen]

theorem prev_apart (hp : Placed heap) (hs : Shape heap s (xs ++ b :: ys))
    (hprev : ∀ c ∈ xs.getLast?, c.label.isSome = true) :
    (vacant heap xs).getLast?.getD 0 = 0 ∨ behind s.mem ((vacant heap xs).getLast?.getD 0) ≠ heap + total xs := by
  cases hlast : (vacant heap xs).getLast? with
  | none => exact Or.inl rfl
  | some a =>
    have hroom : ∀ d ∈ xs, headerSize ≤ d.len := fun d hd => hs.room d (List.mem_append_left _ hd)
    obtain ⟨c, hc, hlt⟩ := vacant_before hroom hprev (List.mem_of_getLast? hlast)
    have hin : (a, c) ∈ place heap (xs ++ b :: ys) := by
      rw [place_middle]
      exact List.mem_append_left _ hc
    have hbehind := hs.behind_eq hp hin
    refine Or.inr ?_
    rw [Option.getD_some, hbehind]
    exact Nat.ne_of_lt hlt

theorem next_apart (hp : Placed heap) (hs : Shape heap s (xs ++ b :: ys))
    (hnext : ∀ c ∈ ys.head?, c.label.isSome = true) :
    (vacant (heap + total xs + b.len) ys).head?.getD 0 = 0 ∨
      behind s.mem (heap + total xs) ≠ (vacant (heap + total xs + b.len) ys).head?.getD 0 := by
  have hin : (heap + total xs, b) ∈ place heap (xs ++ b :: ys) := by
    rw [place_middle]
    exact List.mem_append_right _ List.mem_cons_self
  have hbehind := hs.behind_eq hp hin
  cases hhead : (vacant (heap + total xs + b.len) ys).head? with
  | none => exact Or.inl rfl
  | some a =>
    have hlt := vacant_behind (fun d hd => hs.room d (List.mem_append_right _ (List.mem_cons_of_mem b hd))) hnext
      (List.mem_of_head? hhead)
    refine Or.inr ?_
    rw [Option.getD_some, hbehind]
    exact Nat.ne_of_lt hlt

theorem compact_init {us : List Block} {u : Block} (h : Compact (us ++ [u])) (hu : u.label = none) :
    Compact us ∧ ∀ c ∈ us.getLast?, c.label.isSome = true := by
  obtain ⟨hus, -, hlast, -⟩ := compact_append_cons.mp h
  refine ⟨hus, fun c hc => (hlast c hc).resolve_right ?_⟩
  rw [hu]
  exact Bool.false_ne_true

theorem compact_tail {n : Block} {vs : List Block} (h : Compact (n :: vs)) (hn : n.label = none) :
    Compact vs ∧ ∀ c ∈ vs.head?, c.label.isSome = true := by
  rw [← List.nil_append (n :: vs)] at h
  obtain ⟨-, hvs, -, hhead⟩ := compact_append_cons.mp h
  refine ⟨hvs, fun c hc => (hhead c hc).resolve_left ?_⟩
  rw [hn]
  exact Bool.false_ne_true

theorem compact_free {len : ℕ} (hxs : Compact xs) (hys : Compact ys) (hprev : ∀ c ∈ xs.getLast?, c.label.isSome = true)
    (hnext : ∀ c ∈ ys.head?, c.label.isSome = true) : Compact (xs ++ ⟨len, none⟩ :: ys) :=
  compact_append_cons.mpr ⟨hxs, hys, fun c hc => Or.inl (hprev c hc), fun c hc => Or.inr (hnext c hc)⟩

theorem Shape.middle (hp : Placed heap) (hs : Shape heap s (xs ++ b :: ys)) :
    length s.mem (heap + total xs) + headerSize = b.len ∧ heap + total xs ∈ headers heap (xs ++ b :: ys) ∧
      behind s.mem (heap + total xs) = heap + total xs + b.len := by
  have hin : (heap + total xs, b) ∈ place heap (xs ++ b :: ys) := by
    rw [place_middle]
    exact List.mem_append_right _ List.mem_cons_self
  have hbehind := hs.behind_eq hp hin
  exact ⟨hs.lengths _ hin, List.mem_map_of_mem hin, hbehind⟩

theorem Shape.len_le (hs : Shape heap s bs) : ∀ b ∈ bs, b.len ≤ finshHeapMax := by
  intro b hb
  obtain ⟨us, vs, rfl⟩ := List.append_of_mem hb
  have hsize := hs.size
  rw [total_middle] at hsize
  omega

theorem total_concat (us : List Block) (u : Block) : total (us ++ [u]) = total us + u.len := total_append us [u]

theorem Shape.len_add_le (hs : Shape heap s bs) {mid : List Block} (hmid : bs = xs ++ mid ++ ys) :
    total mid ≤ finshHeapMax := by
  have hsize := hs.size
  rw [hmid, total_append, total_append] at hsize
  omega

theorem merge_both {us vs : List Block} {u n : Block} {m' : Mem} (hp : Placed heap)
    (hs : Shape heap s (us ++ [u, b, n] ++ vs)) (hu : u.label = none) (hb : b.label = none) (hn : n.label = none)
    (hm' : m' = mergeNodes s.mem (heap + total us) (heap + total us + u.len) (heap + total us + u.len + b.len)) :
    Shape heap { s with mem := m' } (us ++ ⟨total [u, b, n], none⟩ :: vs) ∧
      occupied heap (us ++ ⟨total [u, b, n], none⟩ :: vs) = occupied heap (us ++ [u, b, n] ++ vs) ∧
        ∀ a ∈ occupied heap (us ++ [u, b, n] ++ vs), length m' a = length s.mem a := by
  have hA := hs.apart hp
  have hsu : Shape heap s (us ++ u :: b :: n :: vs) := by rwa [List.append_assoc] at hs
  have hsb : Shape heap s (us ++ [u] ++ b :: n :: vs) := by rwa [List.append_assoc]
  have hsn : Shape heap s (us ++ [u] ++ [b] ++ n :: vs) := by rwa [List.append_assoc]
  obtain ⟨hulen, huin, hubehind⟩ := hsu.middle hp
  obtain ⟨hblen, -, hbbehind⟩ := hsb.middle hp
  obtain ⟨hnlen, hnin, -⟩ := hsn.middle hp
  rw [total_concat, ← Nat.add_assoc] at hblen hbbehind
  rw [total_concat, total_concat, ← Nat.add_assoc, ← Nat.add_assoc] at hnlen hnin
  rw [List.append_assoc, List.append_assoc] at hnin
  have hmid : total [u, b, n] = u.len + b.len + n.len := by
    rw [total, total, total, total]
    omega
  have hle : total [u, b, n] ≤ finshHeapMax := hs.len_add_le rfl
  have hlength : length s.mem (heap + total us) + length s.mem (heap + total us + u.len) +
      length s.mem (heap + total us + u.len + b.len) + 2 * headerSize = total [u, b, n] - headerSize := by omega
  have hvac : vacant heap (us ++ u :: b :: n :: vs) = vacant heap us ++ (heap + total us) :: (heap + total us + u.len) ::
      (heap + total us + u.len + b.len) :: vacant (heap + total us + u.len + b.len + n.len) vs := by
    rw [vacant_middle_of_none heap us _ hu, vacant_cons_of_none _ hb, vacant_cons_of_none _ hn]
  have habs := mergeNodes_both (hsu.apart hp) huin hnin hubehind hbbehind (by
    rw [hlength]
    rw [finshHeapMax] at hle
    omega)
  rw [hlength, ← hm'] at habs
  have hnodup := hsu.vacant_nodup
  have hchain := hsu.free
  rw [hvac] at hnodup hchain
  have hmem : ∀ a ∈ vacant heap us ++ (heap + total us) :: vacant (heap + total us + u.len + b.len + n.len) vs,
      a ∈ headers heap (us ++ u :: b :: n :: vs) := by
    intro a ha
    refine vacant_subset heap _ a ?_
    rw [hvac]
    exact ((sublist_skip _ _ _ _).trans (sublist_skip _ _ _ _)).subset ha
  have hfree := habs.chain_both hmem hchain hnodup
  refine hs.join (List.cons_ne_nil u [b, n]) ?_ (by rw [List.append_assoc]; exact habs) ?_
  · intro c hc
    simp only [List.mem_cons, List.not_mem_nil, or_false] at hc
    rcases hc with rfl | rfl | rfl
    · exact hu
    · exact hb
    · exact hn
  · rw [hmid, ← Nat.add_assoc, ← Nat.add_assoc]
    exact hfree

theorem join_two {us vs : List Block} {u n : Block} {m' : Mem} (hp : Placed heap) (hs : Shape heap s (us ++ [u, n] ++ vs))
    (hu : u.label = none) (hn : n.label = none)
    (habs : Absorbed (headers heap (us ++ [u, n] ++ vs)) s.mem m' (heap + total us)
      (length s.mem (heap + total us) + length s.mem (heap + total us + u.len) + headerSize)
      (link s.mem (heap + total us + u.len))) :
    Shape heap { s with mem := m' } (us ++ ⟨total [u, n], none⟩ :: vs) ∧
      occupied heap (us ++ ⟨total [u, n], none⟩ :: vs) = occupied heap (us ++ [u, n] ++ vs) ∧
        ∀ a ∈ occupied heap (us ++ [u, n] ++ vs), length m' a = length s.mem a := by
  have hsu : Shape heap s (us ++ u :: n :: vs) := by rwa [List.append_assoc] at hs
  have hsn : Shape heap s (us ++ [u] ++ n :: vs) := by rwa [List.append_assoc]
  obtain ⟨hulen, -, -⟩ := hsu.middle hp
  obtain ⟨hnlen, -, -⟩ := hsn.middle hp
  rw [total_concat, ← Nat.add_assoc] at hnlen
  have hmid : total [u, n] = u.len + n.len := by
    rw [total, total, total]
    omega
  have hlength : length s.mem (heap + total us) + length s.mem (heap + total us + u.len) + headerSize =
      total [u, n] - headerSize := by omega
  have hvac : vacant heap (us ++ u :: n :: vs) = vacant heap us ++ (heap + total us) :: (heap + total us + u.len) ::
      vacant (heap + total us + u.len + n.len) vs := by
    rw [vacant_middle_of_none heap us _ hu, vacant_cons_of_none _ hn]
  rw [hlength] at habs
  have hnodup := hsu.vacant_nodup
  have hchain := hsu.free
  rw [hvac] at hnodup hchain
  have hmem : ∀ a ∈ vacant heap us ++ (heap + total us) :: vacant (heap + total us + u.len + n.len) vs,
      a ∈ headers heap (us ++ [u, n] ++ vs) := by
    intro a ha
    rw [List.append_assoc]
    refine vacant_subset heap _ a ?_
    change a ∈ vacant heap (us ++ u :: n :: vs)
    rw [hvac]
    exact (sublist_skip _ _ _ _).subset ha
  have hfree := habs.chain hmem hchain hnodup
  refine hs.join (List.cons_ne_nil u [n]) ?_ habs ?_
  · intro c hc
    simp only [List.mem_cons, List.not_mem_nil, or_false] at hc
    rcases hc with rfl | rfl
    · exact hu
    · exact hn
  · rw [hmid, ← Nat.add_assoc]
    exact hfree

theorem merge_spec (hp : Placed heap) (hs : Shape heap s (xs ++ b :: ys)) (hb : b.label = none) (hxs : Compact xs)
    (hys : Compact ys) : ∃ m' bs', finshBlockMerge s.mem s.freeList (heap + total xs) = some m' ∧
      Whole heap { s with mem := m' } bs' ∧ occupied heap bs' = occupied heap (xs ++ b :: ys) ∧
        ∀ a ∈ occupied heap bs', length m' a = length s.mem a := by
  have hvac := vacant_middle_of_none heap xs ys hb
  have hchain := hs.free
  have hnodup := hs.vacant_nodup
  have hfuel := hs.vacant_fuel
  rw [hvac] at hchain hnodup hfuel
  obtain ⟨hblen, hbin, hbbehind⟩ := hs.middle hp
  have hrun := merge_eq hchain hnodup hfuel
  have hsmall : ∀ c ∈ xs ++ b :: ys, c.len ≤ finshHeapMax := hs.len_le
  rw [finshHeapMax] at hsmall
  have hbsmall := hsmall b (List.mem_append_right _ List.mem_cons_self)
  rcases prev_cases xs with ⟨us, u, rfl, hu⟩ | hprev
  · obtain ⟨hus, huprev⟩ := compact_init hxs hu
    have hsu : Shape heap s (us ++ u :: b :: ys) := by rwa [List.append_assoc] at hs
    obtain ⟨hulen, huin, hubehind⟩ := hsu.middle hp
    have husmall := hsmall u (List.mem_append_left _ (List.mem_append_right _ List.mem_cons_self))
    have hlast : (vacant heap (us ++ [u])).getLast?.getD 0 = heap + total us := by
      rw [vacant_middle_of_none heap us [] hu, vacant_nil, List.getLast?_concat]
      rfl
    have haddress : heap + total (us ++ [u]) = heap + total us + u.len := by rw [total_concat, Nat.add_assoc]
    rw [haddress] at hblen hbin hbbehind hrun ⊢
    rw [hlast] at hrun
    rcases next_cases ys with ⟨n, vs, rfl, hn⟩ | hnext
    · obtain ⟨hvs, hvnext⟩ := compact_tail hys hn
      have hhead : (vacant (heap + total us + u.len + b.len) (n :: vs)).head?.getD 0 =
          heap + total us + u.len + b.len := by
        rw [vacant_cons_of_none vs hn]
        rfl
      rw [hhead] at hrun
      have hs3 : Shape heap s (us ++ [u, b, n] ++ vs) := by rwa [List.append_assoc]
      obtain ⟨hshape, hocc, hlengths⟩ := merge_both hp hs3 hu hb hn rfl
      refine ⟨_, _, hrun, ⟨hshape, compact_free hus hvs huprev hvnext⟩, ?_, by rwa [hocc]⟩
      rw [hocc, List.append_assoc, List.append_assoc]
      rfl
    · have hs2 : Shape heap s (us ++ [u, b] ++ ys) := by rwa [List.append_assoc]
      have hapart := next_apart hp hs hnext
      rw [haddress] at hapart
      have habs := mergeNodes_prev (hsu.apart hp) huin (by rwa [List.append_assoc] at hbin) hubehind hapart (by omega)
      obtain ⟨hshape, hocc, hlengths⟩ := join_two hp hs2 hu hb (by rw [List.append_assoc]; exact habs)
      refine ⟨_, _, hrun, ⟨hshape, compact_free hus hys huprev hnext⟩, ?_, by rwa [hocc]⟩
      rw [hocc, List.append_assoc, List.append_assoc]
      rfl
  · have hapart := prev_apart hp hs hprev
    rcases next_cases ys with ⟨n, vs, rfl, hn⟩ | hnext
    · obtain ⟨hvs, hvnext⟩ := compact_tail hys hn
      have hhead : (vacant (heap + total xs + b.len) (n :: vs)).head?.getD 0 = heap + total xs + b.len := by
        rw [vacant_cons_of_none vs hn]
        rfl
      have hsn : Shape heap s (xs ++ [b] ++ n :: vs) := by rwa [List.append_assoc]
      obtain ⟨hnlen, hnin, -⟩ := hsn.middle hp
      rw [total_concat, ← Nat.add_assoc] at hnlen hnin
      rw [List.append_assoc] at hnin
      have hnsmall := hsmall n (List.mem_append_right _ (List.mem_cons_of_mem b List.mem_cons_self))
      rw [hhead] at hrun
      have hs2 : Shape heap s (xs ++ [b, n] ++ vs) := by rwa [List.append_assoc]
      have habs := mergeNodes_next (hs.apart hp) hbin hnin hapart hbbehind (by omega)
      obtain ⟨hshape, hocc, hlengths⟩ := join_two hp hs2 hb hn (by rw [List.append_assoc]; exact habs)
      refine ⟨_, _, hrun, ⟨hshape, compact_free hxs hvs hprev hvnext⟩, ?_, by rwa [hocc]⟩
      rw [hocc, List.append_assoc]
      rfl
    · rw [mergeNodes_none hapart (next_apart hp hs hnext)] at hrun
      refine ⟨_, xs ++ b :: ys, hrun, ⟨hs, ?_⟩, rfl, fun _ _ => rfl⟩
      refine compact_append_cons.mpr ⟨hxs, hys, fun c hc => Or.inl (hprev c hc), fun c hc => Or.inr (hnext c hc)⟩

theorem free_spec (hp : Placed heap) (hw : Whole heap s bs) (ha : a ∈ occupied heap bs) :
    ∃ s' bs', finshHeapFree s (getData a) = some s' ∧ Whole heap s' bs' ∧ occupied heap bs' = (occupied heap bs).erase a ∧
      (∀ c ∈ occupied heap bs', length s'.mem c = length s.mem c) ∧ s'.globalVariable = s.globalVariable := by
  obtain ⟨xs, b, ys, rfl, rfl, hb⟩ := exists_of_occupied ha
  obtain ⟨hs, hcompact⟩ := hw
  obtain ⟨hxs, hys, -, -⟩ := compact_append_cons.mp hcompact
  have hbound := headers_bound hs.room (occupied_subset heap _ _ ha)
  rw [hs.size] at hbound
  obtain ⟨m1, al, m2, f, hremove, hinsert, hshape, hsame⟩ := free_lists hp hs hb
  obtain ⟨m', bs', hmerge, hwhole, hocc, hlengths⟩ := merge_spec hp hshape rfl hxs hys
  refine ⟨_, bs', ?_, hwhole, ?_, fun c hc => (hlengths c hc).trans (hsame c ?_), rfl⟩
  · rw [finshHeapFree, getHeader_getData hp hbound.2, hremove]
    simp only [Option.bind_eq_bind, Option.bind_some]
    rw [hinsert]
    simp only [Option.bind_some]
    rw [hmerge]
    rfl
  · have hnodup := hs.occupied_nodup
    rw [occupied_middle_of_some heap xs ys hb] at hnodup ⊢
    have hnot : heap + total xs ∉ occupied heap xs :=
      fun hin => (List.nodup_append.mp hnodup).2.2 _ hin _ List.mem_cons_self rfl
    rw [hocc, occupied_middle_of_none heap xs ys rfl, List.erase_append_right _ hnot, List.erase_cons_head]
  · rw [← headers_relabel heap xs ys b none]
    rw [hocc] at hc
    exact occupied_subset heap _ c hc

end RtThread.Finsh.Heap
