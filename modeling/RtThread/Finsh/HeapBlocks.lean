import Mathlib
import RtThread.Finsh.Heap
import RtThread.Lib.Chain

/-!
# FinSH: the lists of the heap (`finsh_heap.c:147-279`)

A list is a chain of headers that do not overlap. What a function changes is told for all headers.
-/

namespace RtThread.Finsh.Heap

open RtThread.Lib.Bytes RtThread.Lib.Word RtThread.Lib.Chain

/-- A pointer that is not NULL. -/
def pointer (p : ℕ) : Option ℕ := if p = 0 then none else some p

def link (m : Mem) (header : ℕ) : Option ℕ := pointer (next m header)

/-- Headers at addresses that are not NULL, none over another. -/
structure Apart (H : List ℕ) : Prop where
  disjoint : ∀ a ∈ H, ∀ b ∈ H, a ≠ b → a + headerSize ≤ b ∨ b + headerSize ≤ a
  bound : ∀ a ∈ H, 0 < a ∧ a + headerSize ≤ 2 ^ 32

/-- Only the links of some headers have changed. -/
structure Relinked (H changed : List ℕ) (m m' : Mem) : Prop where
  lengths : ∀ b ∈ H, length m' b = length m b
  links : ∀ b ∈ H, b ∉ changed → link m' b = link m b

variable {m m' : Mem} {H us vs : List ℕ} {a b h n p u v list : ℕ}

theorem pointer_of_pos (h : 0 < p) : pointer p = some p := if_neg (Nat.ne_of_gt h)

theorem eq_of_pointer (h : pointer p = some a) : p = a ∧ a ≠ 0 := by
  rw [pointer] at h
  split at h
  · cases h
  · rename_i hne
    cases h
    exact ⟨rfl, hne⟩

theorem eq_zero_of_pointer (h : pointer p = none) : p = 0 := by
  rw [pointer] at h
  split at h
  · assumption
  · cases h

theorem next_lt (m : Mem) (a : ℕ) : next m a < 2 ^ 32 := load_lt 4 m (a + 4)

theorem length_lt (m : Mem) (a : ℕ) : length m a < 2 ^ 32 := load_lt 4 m a

/-! ### A store to a header -/

theorem length_setNext (hA : Apart H) (ha : a ∈ H) (hb : b ∈ H) : length (setNext m a v) b = length m b := by
  refine load_store_of_disjoint m v ?_
  by_cases hab : a = b
  · subst hab
    exact Or.inl (Nat.le_refl _)
  · have := hA.disjoint a ha b hb hab
    rw [headerSize] at this
    omega

theorem link_setLength (hA : Apart H) (ha : a ∈ H) (hb : b ∈ H) : link (setLength m a v) b = link m b := by
  have hnext : next (setLength m a v) b = next m b := by
    refine load_store_of_disjoint m v ?_
    by_cases hab : a = b
    · subst hab
      exact Or.inr (Nat.le_refl _)
    · have := hA.disjoint a ha b hb hab
      rw [headerSize] at this
      omega
  rw [link, hnext, link]

theorem length_setLength (hA : Apart H) (ha : a ∈ H) (hb : b ∈ H) (hv : v < 2 ^ 32) :
    length (setLength m a v) b = Function.update (length m) a v b := by
  by_cases hab : b = a
  · subst hab
    rw [Function.update_self]
    exact load_store_self m b hv
  · rw [Function.update_of_ne hab]
    refine load_store_of_disjoint m v ?_
    have := hA.disjoint b hb a ha hab
    rw [headerSize] at this
    omega

theorem next_setNext_self (hv : v < 2 ^ 32) : next (setNext m a v) a = v := load_store_self m (a + 4) hv

theorem link_setNext (hA : Apart H) (ha : a ∈ H) (hb : b ∈ H) (hv : v < 2 ^ 32) :
    link (setNext m a v) b = Function.update (link m) a (pointer v) b := by
  by_cases hab : b = a
  · subst hab
    rw [Function.update_self, link, next_setNext_self hv]
  · have hnext : next (setNext m a v) b = next m b := by
      refine load_store_of_disjoint m v ?_
      have := hA.disjoint b hb a ha hab
      rw [headerSize] at this
      omega
    rw [Function.update_of_ne hab, link, hnext, link]

theorem Linked.setNext {l : List ℕ} {start : Option ℕ} (hA : Apart H) (ha : a ∈ H) (hl : ∀ b ∈ l, b ∈ H)
    (hv : v < 2 ^ 32) (h : Linked (Function.update (link m) a (pointer v)) start l) : Linked (link (setNext m a v)) start l :=
  h.congr fun b hb => link_setNext hA ha (hl b hb) hv

theorem relinked_setNext (hA : Apart H) (ha : a ∈ H) (hv : v < 2 ^ 32) : Relinked H [a] m (setNext m a v) := by
  refine ⟨fun b hb => length_setNext hA ha hb, fun b hb hne => ?_⟩
  rw [link_setNext hA ha hb hv, Function.update_of_ne (List.ne_of_not_mem_cons hne)]

theorem Relinked.refl (H changed : List ℕ) (m : Mem) : Relinked H changed m m := ⟨fun _ _ => rfl, fun _ _ _ => rfl⟩

theorem Relinked.trans {changed : List ℕ} {m'' : Mem} (h : Relinked H changed m m') (h' : Relinked H changed m' m'') :
    Relinked H changed m m'' :=
  ⟨fun b hb => (h'.lengths b hb).trans (h.lengths b hb), fun b hb hn => (h'.links b hb hn).trans (h.links b hb hn)⟩

theorem Relinked.mono {changed changed' : List ℕ} (h : Relinked H changed m m') (hsub : changed ⊆ changed') :
    Relinked H changed' m m' :=
  ⟨h.lengths, fun b hb hn => h.links b hb fun hmem => hn (hsub hmem)⟩

/-! ### The loops -/

theorem findBlock_eq {q : ℕ → Bool} {l : List ℕ} {k : ℕ} (hl : Linked (link m) (pointer list) l) (hk : l.length < k) :
    findBlock m q k list = some ((l.find? q).getD 0) := by
  induction l generalizing list k with
  | nil =>
    obtain ⟨k, rfl⟩ := Nat.exists_eq_succ_of_ne_zero (Nat.ne_of_gt hk)
    rw [findBlock, if_pos (eq_zero_of_pointer hl)]
    rfl
  | cons a l ih =>
    obtain ⟨k, rfl⟩ := Nat.exists_eq_succ_of_ne_zero (Nat.ne_zero_of_lt hk)
    obtain ⟨rfl, hne⟩ := eq_of_pointer hl.1
    rw [findBlock, if_neg hne, List.find?_cons]
    cases hq : q list with
    | true => rfl
    | false => exact ih hl.2 (Nat.lt_of_succ_lt_succ hk)

theorem findBlock_middle {q : ℕ → Bool} {k : ℕ} (hl : Linked (link m) (pointer list) (us ++ u :: vs))
    (hus : ∀ a ∈ us, q a = false) (hu : q u = true) (hk : (us ++ u :: vs).length < k) :
    findBlock m q k list = some u := by
  have hnone : us.find? q = none := by
    rw [List.find?_eq_none]
    intro a ha hq
    exact absurd ((hus a ha).symm.trans hq) (by decide)
  rw [findBlock_eq hl hk, List.find?_append, hnone, List.find?_cons_of_pos hu]
  rfl

theorem findBlock_prev {k : ℕ} (hl : Linked (link m) (pointer list) (us ++ u :: h :: vs))
    (hnodup : (us ++ u :: h :: vs).Nodup) (hk : (us ++ u :: h :: vs).length < k) : findBlock m (fun node => next m node = h) k list = some u := by
  have hlink : link m u = some h := hl.next_middle
  refine findBlock_middle hl (fun a ha => ?_) (decide_eq_true (eq_of_pointer hlink).1) hk
  obtain ⟨b, hb, hnext⟩ := hl.exists_mem ha
  have hne : b ≠ h := by
    rintro rfl
    rw [← List.singleton_append, ← List.append_assoc] at hnodup
    exact (List.nodup_append.mp hnodup).2.2 b hb b List.mem_cons_self rfl
  rw [(eq_of_pointer hnext).1]
  exact decide_eq_false hne

/-! ### Insertion and removal -/

theorem list_mem (hl : Linked (link m) (pointer list) (us ++ u :: vs)) : list ∈ us ++ [u] ∧ list ≠ 0 := by
  cases us with
  | nil =>
    obtain ⟨rfl, hne⟩ := eq_of_pointer hl.1
    exact ⟨List.mem_cons_self, hne⟩
  | cons c us =>
    obtain ⟨rfl, hne⟩ := eq_of_pointer hl.1
    exact ⟨List.mem_cons_self, hne⟩

theorem list_ne (hl : Linked (link m) (pointer list) (us ++ u :: h :: vs)) (hnodup : (us ++ u :: h :: vs).Nodup) :
    list ≠ h := by
  rw [← List.singleton_append, ← List.append_assoc] at hnodup
  exact (List.nodup_append.mp hnodup).2.2 list (list_mem hl).1 h List.mem_cons_self

theorem sublist_skip (us : List ℕ) (u h : ℕ) (vs : List ℕ) : (us ++ u :: vs).Sublist (us ++ u :: h :: vs) :=
  (List.Sublist.refl us).append ((List.sublist_cons_self h vs).cons_cons u)

theorem Apart.lt (hA : Apart H) (ha : a ∈ H) : a < 2 ^ 32 := by
  have hbound := (hA.bound a ha).2
  rw [headerSize] at hbound
  omega

theorem mem_of_insert (hmem : ∀ a ∈ us ++ vs, a ∈ H) (hh : h ∈ H) : ∀ a ∈ us ++ h :: vs, a ∈ H := by
  intro a ha
  rcases List.mem_append.mp ha with hu | hrest
  · exact hmem a (List.mem_append_left vs hu)
  · rcases List.mem_cons.mp hrest with rfl | hv
    · exact hh
    · exact hmem a (List.mem_append_right us hv)

theorem insert_first (hA : Apart H) (hmem : ∀ a ∈ vs, a ∈ H) (hh : h ∈ H) (hl : Linked (link m) (pointer list) vs)
    (hsorted : (h :: vs).Pairwise (· < ·)) (hlast : vs = [] → link m h = none) :
    ∃ m' list', finshBlockInsert m list h = some (m', list') ∧ Linked (link m') (pointer list') (h :: vs) ∧
      Relinked H [h] m m' := by
  have hhpos := (hA.bound h hh).1
  obtain ⟨hafter, -⟩ := List.pairwise_cons.mp hsorted
  rw [finshBlockInsert]
  cases vs with
  | nil =>
    have hlist : list = 0 := eq_zero_of_pointer hl
    rw [if_pos hlist]
    exact ⟨m, h, rfl, ⟨pointer_of_pos hhpos, hlast rfl⟩, Relinked.refl H _ m⟩
  | cons v vs =>
    obtain ⟨rfl, hne⟩ := eq_of_pointer hl.1
    have hvalue := hA.lt (hmem list List.mem_cons_self)
    have hnothere : h ∉ list :: vs := fun hin => Nat.lt_irrefl h (hafter h hin)
    rw [if_neg hne, if_pos (hafter list List.mem_cons_self)]
    refine ⟨_, h, rfl, ?_, relinked_setNext hA hh hvalue⟩
    have hall : ∀ a ∈ [] ++ h :: list :: vs, a ∈ H := mem_of_insert hmem hh
    refine Linked.setNext hA hh hall hvalue ?_
    rw [pointer_of_pos hhpos]
    exact hl.push hnothere

theorem insert_later (hA : Apart H) (hmem : ∀ a ∈ us ++ u :: vs, a ∈ H) (hh : h ∈ H)
    (hl : Linked (link m) (pointer list) (us ++ u :: vs)) (hbefore : ∀ a ∈ us ++ [u], a < h) (hafter : ∀ a ∈ vs, h < a)
    (hnodup : (us ++ u :: vs).Nodup) (hlast : vs = [] → link m h = none) (hfuel : (us ++ u :: vs).length < fuel) :
    ∃ m' list', finshBlockInsert m list h = some (m', list') ∧ Linked (link m') (pointer list') (us ++ u :: h :: vs) ∧
      Relinked H [h, u] m m' := by
  have hu : u ∈ H := hmem u (List.mem_append_right us List.mem_cons_self)
  have hvalue := hA.lt hh
  have hhead : link m u = vs.head? := hl.next_middle
  obtain ⟨hfirst, hlist⟩ := list_mem hl
  have hfind : findBlock m (fun node => h < next m node ∨ next m node = 0) fuel list = some u := by
    refine findBlock_middle hl (fun a ha => ?_) ?_ hfuel
    · obtain ⟨b, hb, hnext⟩ := hl.exists_mem ha
      have hblt := hbefore b hb
      obtain ⟨heq, hb0⟩ := eq_of_pointer hnext
      rw [heq]
      exact decide_eq_false (by omega)
    · cases vs with
      | nil => exact decide_eq_true (Or.inr (eq_zero_of_pointer hhead))
      | cons v vs =>
        rw [(eq_of_pointer hhead).1]
        exact decide_eq_true (Or.inl (hafter v List.mem_cons_self))
  have hnothere : h ∉ us ++ u :: vs := by
    rw [← List.singleton_append, ← List.append_assoc]
    intro hin
    rcases List.mem_append.mp hin with hb | ha
    · exact Nat.lt_irrefl h (hbefore h hb)
    · exact Nat.lt_irrefl h (hafter h ha)
  have hall : ∀ a ∈ us ++ u :: h :: vs, a ∈ H := by
    have hinsert : ∀ a ∈ us ++ [u] ++ h :: vs, a ∈ H := mem_of_insert (by rwa [List.append_assoc]) hh
    rwa [List.append_assoc] at hinsert
  -- the link of `h` is set first, unless it is the last
  obtain ⟨m1, hm1, hl1, hh1, hrel⟩ : ∃ m1, m1 = (if next m u ≠ 0 then setNext m h (next m u) else m) ∧
      Linked (link m1) (pointer list) (us ++ u :: vs) ∧ link m1 h = vs.head? ∧ Relinked H [h, u] m m1 := by
    refine ⟨_, rfl, ?_⟩
    cases vs with
    | nil =>
      rw [if_neg (not_not.mpr (eq_zero_of_pointer hhead))]
      exact ⟨hl, hlast rfl, Relinked.refl H _ m⟩
    | cons v vs =>
      obtain ⟨heq, hne⟩ := eq_of_pointer hhead
      have hlt := next_lt m u
      rw [if_pos (by rw [heq]; exact hne)]
      refine ⟨Linked.setNext hA hh hmem hlt (hl.update hnothere _), ?_, ?_⟩
      · rw [link_setNext hA hh hh hlt, Function.update_self, heq]
        exact pointer_of_pos (Nat.pos_of_ne_zero hne)
      · exact (relinked_setNext hA hh hlt).mono (List.cons_subset_cons h (List.nil_subset [u]))
  refine ⟨setNext m1 u h, list, ?_, ?_, ?_⟩
  · rw [finshBlockInsert, if_neg hlist, if_neg (Nat.lt_asymm (hbefore list hfirst)), hfind, hm1]
    rfl
  · refine Linked.setNext hA hu hall hvalue ?_
    rw [pointer_of_pos (hA.bound h hh).1]
    exact hl1.insert_after hh1 hnodup hnothere
  · exact hrel.trans ((relinked_setNext hA hu hvalue).mono (List.subset_cons_self h [u]))

theorem insert_spec (hA : Apart H) (hmem : ∀ a ∈ us ++ vs, a ∈ H) (hh : h ∈ H)
    (hl : Linked (link m) (pointer list) (us ++ vs)) (hsorted : (us ++ h :: vs).Pairwise (· < ·))
    (hlast : vs = [] → link m h = none) (hfuel : (us ++ vs).length < fuel) :
    ∃ m' list', finshBlockInsert m list h = some (m', list') ∧ Linked (link m') (pointer list') (us ++ h :: vs) ∧
      Relinked H (h :: us) m m' := by
  obtain ⟨hus, hsorted', hbefore⟩ := List.pairwise_append.mp hsorted
  obtain ⟨hafter, hvs⟩ := List.pairwise_cons.mp hsorted'
  rcases List.eq_nil_or_concat us with rfl | ⟨us, u, rfl⟩
  · exact insert_first hA hmem hh hl hsorted hlast
  · rw [List.concat_eq_append] at *
    rw [List.append_assoc, List.singleton_append] at hl hmem hfuel
    have hnodup : (us ++ u :: vs).Nodup := by
      have hpair : (us ++ [u] ++ vs).Pairwise (· < ·) :=
        List.pairwise_append.mpr ⟨hus, hvs, fun a ha b hb => hbefore a ha b (List.mem_cons_of_mem h hb)⟩
      rw [List.append_assoc, List.singleton_append] at hpair
      exact hpair.imp fun hlt => Nat.ne_of_lt hlt
    obtain ⟨m', list', hrun, hl', hrel⟩ :=
      insert_later hA hmem hh hl (fun a ha => hbefore a ha h List.mem_cons_self) hafter hnodup hlast hfuel
    refine ⟨m', list', hrun, ?_, hrel.mono ?_⟩
    · rw [List.append_assoc, List.singleton_append]
      exact hl'
    · exact List.cons_subset_cons h (List.subset_append_right us [u])

theorem remove_spec (hA : Apart H) (hmem : ∀ a ∈ us ++ h :: vs, a ∈ H)
    (hl : Linked (link m) (pointer list) (us ++ h :: vs)) (hnodup : (us ++ h :: vs).Nodup)
    (hfuel : (us ++ h :: vs).length < fuel) :
    ∃ m' list', finshBlockRemove m list h = some (m', list') ∧ Linked (link m') (pointer list') (us ++ vs) ∧
      Relinked H (h :: us) m m' := by
  have hh : h ∈ H := hmem h (List.mem_append_right us List.mem_cons_self)
  rw [finshBlockRemove]
  rcases List.eq_nil_or_concat us with rfl | ⟨us, u, rfl⟩
  · obtain ⟨rfl, hne⟩ := eq_of_pointer hl.1
    have hnothere : list ∉ vs := (List.nodup_cons.mp hnodup).1
    rw [if_pos rfl]
    refine ⟨_, _, rfl, ?_, relinked_setNext hA hh (by norm_num)⟩
    have hrest : ∀ a ∈ vs, a ∈ H := fun a ha => hmem a (List.mem_cons_of_mem list ha)
    exact Linked.setNext hA hh hrest (by norm_num) (hl.2.update hnothere _)
  · rw [List.concat_eq_append] at *
    rw [List.append_assoc, List.singleton_append] at hl hmem hfuel hnodup
    have hu : u ∈ H := hmem u (List.mem_append_right us List.mem_cons_self)
    have hlt := next_lt m h
    have hall : ∀ a ∈ us ++ u :: vs, a ∈ H := fun a ha => hmem a ((sublist_skip us u h vs).subset ha)
    rw [if_neg (list_ne hl hnodup), findBlock_prev hl hnodup hfuel, Option.bind_eq_bind, Option.bind_some,
      if_pos (Nat.ne_of_gt (hA.bound u hu).1)]
    refine ⟨_, _, rfl, ?_, (relinked_setNext hA hu hlt).mono ?_⟩
    · rw [List.append_assoc, List.singleton_append]
      exact Linked.setNext hA hu hall hlt (hl.remove hnodup)
    · exact List.Subset.trans (List.subset_append_right us [u]) (List.subset_cons_self h _)

/-! ### Splitting and merging -/

theorem length_lengthNext (hA : Apart H) (ha : a ∈ H) (hb : b ∈ H) (hp : p < 2 ^ 32) :
    length (setNext (setLength m a p) a v) b = Function.update (length m) a p b :=
  (length_setNext hA ha hb).trans (length_setLength hA ha hb hp)

theorem link_lengthNext (hA : Apart H) (ha : a ∈ H) (hb : b ∈ H) (hv : v < 2 ^ 32) :
    link (setNext (setLength m a p) a v) b = Function.update (link m) a (pointer v) b := by
  rw [link_setNext hA ha hb hv]
  by_cases hab : b = a
  · rw [hab, Function.update_self, Function.update_self]
  · rw [Function.update_of_ne hab, Function.update_of_ne hab, link_setLength hA ha hb]

theorem next_eq_of_link (h : link m a = link m' b) : next m a = next m' b := by
  rw [link, link] at h
  cases hp : pointer (next m' b) with
  | none =>
    rw [hp] at h
    rw [eq_zero_of_pointer h, eq_zero_of_pointer hp]
  | some c =>
    rw [hp] at h
    rw [(eq_of_pointer h).1, (eq_of_pointer hp).1]

theorem split_spec (hA : Apart (n :: H)) (hh : h ∈ H) (hn : n = h + headerSize + p) (hp : p + headerSize ≤ length m h) :
    (∀ b ∈ n :: H, length (finshBlockSplit m h p) b =
      Function.update (Function.update (length m) n (length m h - headerSize - p)) h p b) ∧
    ∀ b ∈ n :: H,
      link (finshBlockSplit m h p) b = Function.update (Function.update (link m) n (link m h)) h (some n) b := by
  have hlength := length_lt m h
  have hin : h ∈ n :: H := List.mem_cons_of_mem n hh
  have hnin : n ∈ n :: H := List.mem_cons_self
  have hnlt := hA.lt hnin
  have hne : h ≠ n := by
    rw [hn, headerSize]
    omega
  rw [headerSize] at hp hn
  have hrest : add 32 (add 32 h headerSize) p = n := by
    rw [headerSize, add_add_of_lt (by omega), hn]
  have hsub : sub 32 (sub 32 (length m h) headerSize) p = length m h - headerSize - p := by
    rw [headerSize, sub_of_le (by omega) hlength, sub_of_le (by omega) (by omega)]
  have hsublt : length m h - headerSize - p < 2 ^ 32 := by omega
  have hplt : p < 2 ^ 32 := by omega
  rw [finshBlockSplit]
  simp only [hrest, hsub]
  have hlink : link (setLength (setLength m n (length m h - headerSize - p)) h p) h = link m h := by
    rw [link_setLength hA hin hin, link_setLength hA hnin hin]
  rw [next_eq_of_link hlink]
  constructor
  · intro b hb
    rw [length_setNext hA hin hb, length_setNext hA hnin hb, length_setLength hA hin hb hplt]
    by_cases hbh : b = h
    · rw [hbh, Function.update_self, Function.update_self]
    · rw [Function.update_of_ne hbh, Function.update_of_ne hbh, length_setLength hA hnin hb hsublt]
  · intro b hb
    rw [link_setNext hA hin hb hnlt, pointer_of_pos (hA.bound n hnin).1]
    by_cases hbh : b = h
    · rw [hbh, Function.update_self, Function.update_self]
    · rw [Function.update_of_ne hbh, Function.update_of_ne hbh, link_setNext hA hnin hb (next_lt m h)]
      by_cases hbn : b = n
      · rw [hbn, Function.update_self, Function.update_self, link]
      · rw [Function.update_of_ne hbn, Function.update_of_ne hbn, link_setLength hA hin hb, link_setLength hA hnin hb]

theorem behind_eq (h : a + length m a + headerSize < 2 ^ 32) : behind m a = a + length m a + headerSize := by
  rw [behind, add_add_of_lt h]

theorem next_getD (h : link m a = vs.head?) : next m a = vs.head?.getD 0 := by
  cases vs with
  | nil => exact eq_zero_of_pointer h
  | cons v vs => exact (eq_of_pointer h).1

theorem merge_eq (hl : Linked (link m) (pointer list) (us ++ h :: vs)) (hnodup : (us ++ h :: vs).Nodup)
    (hfuel : (us ++ h :: vs).length < fuel) :
    finshBlockMerge m list h = some (mergeNodes m (us.getLast?.getD 0) h (vs.head?.getD 0)) := by
  have hnext := next_getD hl.next_middle
  rw [finshBlockMerge]
  rcases List.eq_nil_or_concat us with rfl | ⟨us, u, rfl⟩
  · rw [if_pos (eq_of_pointer hl.1).1, hnext]
    rfl
  · rw [List.concat_eq_append] at *
    rw [List.append_assoc, List.singleton_append] at hl hfuel hnodup
    rw [if_neg (list_ne hl hnodup), findBlock_prev hl hnodup hfuel, List.getLast?_concat, hnext]
    rfl

/-- A block becomes part of one before it. -/
structure Absorbed (H : List ℕ) (m m' : Mem) (a len : ℕ) (rest : Option ℕ) : Prop where
  lengths : ∀ b ∈ H, length m' b = Function.update (length m) a len b
  links : ∀ b ∈ H, link m' b = Function.update (link m) a rest b

theorem mergeNodes_none (hprev : u = 0 ∨ behind m u ≠ h) (hnext : n = 0 ∨ behind m h ≠ n) : mergeNodes m u h n = m := by
  rw [mergeNodes, if_neg (fun hand => hprev.elim hand.1 fun hne => hne hand.2),
    if_neg (fun hand => hnext.elim hand.1 fun hne => hne hand.2)]

theorem mergeNodes_next (hA : Apart H) (hh : h ∈ H) (hn : n ∈ H) (hprev : u = 0 ∨ behind m u ≠ h)
    (hnext : behind m h = n) (hlt : length m h + length m n + headerSize < 2 ^ 32) :
    Absorbed H m (mergeNodes m u h n) h (length m h + length m n + headerSize) (link m n) := by
  have hn0 : n ≠ 0 := Nat.ne_of_gt (hA.bound n hn).1
  have hsum : add 32 (length m h) (add 32 (length m n) headerSize) = length m h + length m n + headerSize := by
    rw [add_of_lt (show length m n + headerSize < 2 ^ 32 by omega), add_of_lt (by omega), Nat.add_assoc]
  rw [mergeNodes, if_neg (fun hand => hprev.elim hand.1 fun hne => hne hand.2), if_pos ⟨hn0, hnext⟩]
  simp only [hsum]
  refine ⟨fun b hb => length_lengthNext hA hh hb hlt, fun b hb => ?_⟩
  rw [link_lengthNext hA hh hb (next_lt _ n), ← link, link_setLength hA hh hn]

theorem mergeNodes_prev (hA : Apart H) (hu : u ∈ H) (hh : h ∈ H) (hprev : behind m u = h)
    (hnext : n = 0 ∨ behind m h ≠ n) (hlt : length m u + length m h + headerSize < 2 ^ 32) :
    Absorbed H m (mergeNodes m u h n) u (length m u + length m h + headerSize) (link m h) := by
  have hu0 : u ≠ 0 := Nat.ne_of_gt (hA.bound u hu).1
  have hsum : add 32 (length m u) (add 32 (length m h) headerSize) = length m u + length m h + headerSize := by
    rw [add_of_lt (show length m h + headerSize < 2 ^ 32 by omega), add_of_lt (by omega), Nat.add_assoc]
  rw [mergeNodes, if_pos ⟨hu0, hprev⟩, if_neg (fun hand => hnext.elim hand.1 fun hne => hne hand.2)]
  simp only [hsum]
  refine ⟨fun b hb => length_lengthNext hA hu hb hlt, fun b hb => ?_⟩
  rw [link_lengthNext hA hu hb (next_lt _ h), ← link, link_setLength hA hu hh]

theorem mergeNodes_both (hA : Apart H) (hu : u ∈ H) (hn : n ∈ H) (hprev : behind m u = h) (hnext : behind m h = n)
    (hlt : length m u + length m h + length m n + 2 * headerSize < 2 ^ 32) :
    Absorbed H m (mergeNodes m u h n) u (length m u + length m h + length m n + 2 * headerSize) (link m n) := by
  have hu0 : u ≠ 0 := Nat.ne_of_gt (hA.bound u hu).1
  have hn0 : n ≠ 0 := Nat.ne_of_gt (hA.bound n hn).1
  have hsum : add 32 (length m u) (add 32 (add 32 (length m h) (length m n)) (2 * headerSize)) =
      length m u + length m h + length m n + 2 * headerSize := by
    rw [add_of_lt (show length m h + length m n < 2 ^ 32 by omega),
      add_of_lt (show length m h + length m n + 2 * headerSize < 2 ^ 32 by omega), add_of_lt (by omega)]
    omega
  rw [mergeNodes, if_pos ⟨hu0, hprev⟩, if_pos ⟨hn0, hnext⟩]
  simp only [hsum]
  refine ⟨fun b hb => length_lengthNext hA hu hb hlt, fun b hb => ?_⟩
  rw [link_lengthNext hA hu hb (next_lt _ n), ← link, link_setLength hA hu hn]

theorem Absorbed.chain {len : ℕ} {start : Option ℕ} (h : Absorbed H m m' u len (link m n))
    (hmem : ∀ a ∈ us ++ u :: vs, a ∈ H) (hl : Linked (link m) start (us ++ u :: n :: vs))
    (hnodup : (us ++ u :: n :: vs).Nodup) : Linked (link m') start (us ++ u :: vs) :=
  (hl.remove hnodup).congr fun a ha => h.links a (hmem a ha)

theorem Absorbed.chain_both {len w : ℕ} {start : Option ℕ} (h : Absorbed H m m' u len (link m w))
    (hmem : ∀ a ∈ us ++ u :: vs, a ∈ H) (hl : Linked (link m) start (us ++ u :: n :: w :: vs))
    (hnodup : (us ++ u :: n :: w :: vs).Nodup) : Linked (link m') start (us ++ u :: vs) := by
  have hfirst := hl.remove hnodup
  have hwu : w ≠ u := by
    rintro rfl
    have hrest := (List.nodup_append.mp hnodup).2.1
    exact (List.nodup_cons.mp hrest).1 (List.mem_cons_of_mem n List.mem_cons_self)
  have hnodup' : (us ++ u :: w :: vs).Nodup := hnodup.sublist (sublist_skip us u n (w :: vs))
  have hsecond := hfirst.remove hnodup'
  rw [Function.update_of_ne hwu, Function.update_idem] at hsecond
  exact hsecond.congr fun a ha => h.links a (hmem a ha)

end RtThread.Finsh.Heap
