import Mathlib
import RtThread.Finsh.HeapOps

/-!
# FinSH: taking a block of the heap (`finsh_heap.c:79-93`)

The block that has been found is split, and its first part goes from the free blocks to the allocated ones.
-/

namespace RtThread.Finsh.Heap

open RtThread.Lib.Bytes RtThread.Lib.Word RtThread.Lib.Chain RtThread.Lib.Tiling

variable {heap : ℕ} {s s' : FinshHeap} {bs xs ys : List Block} {b : Block} {a p : ℕ} {m m' : Mem} {H : List ℕ}

/-- The blocks when `p` bytes of `b` are taken. -/
abbrev taken (xs : List Block) (b : Block) (ys : List Block) (p : ℕ) : List Block :=
  xs ++ ⟨p + headerSize, some ()⟩ :: ⟨b.len - (p + headerSize), none⟩ :: ys

theorem Apart.mono {H' : List ℕ} (hA : Apart H) (hsub : ∀ a ∈ H', a ∈ H) : Apart H' :=
  ⟨fun a ha c hc => hA.disjoint a (hsub a ha) c (hsub c hc), fun a ha => hA.bound a (hsub a ha)⟩

/-! ### The data -/

theorem relinked_of_eqOn (h : ∀ c ∈ H, Set.EqOn m' m (Set.Ico c (c + headerSize))) : Relinked H [] m m' := by
  refine ⟨fun c hc => load_congr fun x hx => h c hc ⟨hx.1, ?_⟩, fun c hc _ => ?_⟩
  · exact hx.2.trans_le (Nat.add_le_add_left (by decide) c)
  · have hnext : next m' c = next m c := by
      refine load_congr fun x hx => h c hc ⟨?_, hx.2⟩
      exact (Nat.le_add_right c 4).trans hx.1
    rw [link, hnext, link]

theorem Shape.of_relinked (hs : Shape heap s bs) (h : Relinked (headers heap bs) [] s.mem m') :
    Shape heap { s with mem := m' } bs := by
  refine ⟨hs.size, hs.room, hs.aligned, fun x hx => ?_, ?_, ?_, hs.last⟩
  · rw [h.lengths x.1 (List.mem_map_of_mem hx)]
    exact hs.lengths x hx
  · exact hs.free.congr fun c hc => h.links c (vacant_subset heap bs c hc) List.not_mem_nil
  · exact hs.allocated.congr fun c hc => h.links c (occupied_subset heap bs c hc) List.not_mem_nil

theorem memset_eqOn {n lo hi : ℕ} (hbound : a + n ≤ 2 ^ 32) (h : hi ≤ a ∨ a + n ≤ lo) :
    Set.EqOn (memset m a n) m (Set.Ico lo hi) := by
  intro x hx
  obtain ⟨hlo, hhi⟩ := hx
  exact if_neg (by omega)

/-! ### The blocks afterwards -/

theorem total_taken (xs ys : List Block) (hroom : p + headerSize ≤ b.len) :
    total (taken xs b ys p) = total (xs ++ b :: ys) := by
  rw [total_middle, total_middle, total]
  change total xs + (p + headerSize) + (b.len - (p + headerSize) + total ys) = total xs + b.len + total ys
  omega

theorem taken_room (hroom : ∀ c ∈ xs ++ b :: ys, headerSize ≤ c.len) (hp : p + 2 * headerSize ≤ b.len) :
    ∀ c ∈ taken xs b ys p, headerSize ≤ c.len := by
  obtain ⟨hxs, hright⟩ := List.forall_mem_append.mp hroom
  have hrest : headerSize ≤ b.len - (p + headerSize) := Nat.le_sub_of_add_le (by omega)
  refine List.forall_mem_append.mpr ⟨hxs, List.forall_mem_cons.mpr ⟨Nat.le_add_left headerSize p, ?_⟩⟩
  exact List.forall_mem_cons.mpr ⟨hrest, (List.forall_mem_cons.mp hright).2⟩

theorem taken_aligned (haligned : ∀ c ∈ xs ++ b :: ys, 4 ∣ c.len) (hp : 4 ∣ p) : ∀ c ∈ taken xs b ys p, 4 ∣ c.len := by
  obtain ⟨hxs, hright⟩ := List.forall_mem_append.mp haligned
  obtain ⟨hb, hys⟩ := List.forall_mem_cons.mp hright
  have hsize : 4 ∣ p + headerSize := Nat.dvd_add hp (by decide)
  refine List.forall_mem_append.mpr ⟨hxs, List.forall_mem_cons.mpr ⟨hsize, ?_⟩⟩
  exact List.forall_mem_cons.mpr ⟨Nat.dvd_sub hb hsize, hys⟩

theorem taken_last (h : ∃ c ∈ (xs ++ b :: ys).getLast?, c.label = none) :
    ∃ c ∈ (taken xs b ys p).getLast?, c.label = none := by
  obtain ⟨c, hc, hlabel⟩ := h
  cases ys with
  | nil =>
    refine ⟨⟨b.len - (p + headerSize), none⟩, ?_, rfl⟩
    rw [taken, List.getLast?_append_of_ne_nil _ (List.cons_ne_nil _ _)]
    rfl
  | cons y ys =>
    refine ⟨c, ?_, hlabel⟩
    rw [List.getLast?_append_of_ne_nil _ (List.cons_ne_nil _ _), List.getLast?_cons_cons] at hc
    rw [taken, List.getLast?_append_of_ne_nil _ (List.cons_ne_nil _ _), List.getLast?_cons_cons, List.getLast?_cons_cons]
    exact hc

theorem compact_taken {u : Unit} {len len' : ℕ} (hb : b.label = none) (h : Compact (xs ++ b :: ys)) :
    Compact (xs ++ ⟨len, some u⟩ :: ⟨len', none⟩ :: ys) := by
  obtain ⟨hxs, hys, -, hhead⟩ := compact_append_cons.mp h
  have hnext : ∀ c ∈ ys.head?, c.label.isSome = true := by
    intro c hc
    refine (hhead c hc).resolve_left ?_
    rw [hb]
    exact Bool.false_ne_true
  have hrest : Compact (⟨len', none⟩ :: ys) :=
    compact_append_cons.mpr
      ⟨List.IsChain.nil, hys, fun c hc => absurd hc (Option.not_mem_none c), fun c hc => Or.inr (hnext c hc)⟩
  exact compact_append_cons.mpr ⟨hxs, hrest, fun c hc => Or.inr rfl, fun c hc => Or.inl rfl⟩

theorem total_before (hp : p + headerSize ≤ b.len) :
    heap + total xs + (p + headerSize) + (b.len - (p + headerSize)) = heap + total xs + b.len := by
  omega

theorem vacant_taken (heap : ℕ) (xs ys : List Block) (hp : p + headerSize ≤ b.len) : vacant heap (taken xs b ys p) =
    vacant heap xs ++ (heap + total xs + (p + headerSize)) :: vacant (heap + total xs + b.len) ys := by
  rw [taken, vacant_middle_of_some heap xs _ rfl, vacant_cons_of_none ys rfl, total_before hp]

theorem occupied_taken (heap : ℕ) (xs ys : List Block) (hp : p + headerSize ≤ b.len) : occupied heap (taken xs b ys p) =
    occupied heap xs ++ (heap + total xs) :: occupied (heap + total xs + b.len) ys := by
  rw [taken, occupied_middle_of_some heap xs _ rfl, occupied_cons_of_none _ ys rfl, total_before hp]

theorem headers_taken (heap : ℕ) (xs ys : List Block) (hp : p + headerSize ≤ b.len) : headers heap (taken xs b ys p) =
    headers heap xs ++ (heap + total xs) :: (heap + total xs + (p + headerSize)) ::
      headers (heap + total xs + b.len) ys := by
  have hbehind := headers_middle (heap + total xs + (p + headerSize)) [] ⟨b.len - (p + headerSize), none⟩ ys
  rw [total, Nat.add_zero, total_before hp] at hbehind
  rw [taken, headers_middle]
  exact congrArg (fun l => headers heap xs ++ (heap + total xs) :: l) hbehind

theorem mem_headers_taken (hp : p + headerSize ≤ b.len) :
    a ∈ headers heap (taken xs b ys p) ↔ a ∈ (heap + total xs + (p + headerSize)) :: headers heap (xs ++ b :: ys) := by
  rw [headers_taken heap xs ys hp, headers_middle]
  simp only [List.mem_append, List.mem_cons]
  constructor
  · rintro (hl | he | hn | hr)
    · exact Or.inr (Or.inl hl)
    · exact Or.inr (Or.inr (Or.inl he))
    · exact Or.inl hn
    · exact Or.inr (Or.inr (Or.inr hr))
  · rintro (hn | hl | he | hr)
    · exact Or.inr (Or.inr (Or.inl hn))
    · exact Or.inl hl
    · exact Or.inr (Or.inl he)
    · exact Or.inr (Or.inr (Or.inr hr))

theorem lengths_taken (hroom : ∀ c ∈ xs ++ b :: ys, headerSize ≤ c.len) (hp : p + 2 * headerSize ≤ b.len)
    (h : ∀ x ∈ place heap (xs ++ b :: ys), length m x.1 + headerSize = x.2.len)
    (hm : ∀ c ∈ headers heap (taken xs b ys p), length m' c = Function.update (Function.update (length m)
      (heap + total xs + (p + headerSize)) (b.len - (p + headerSize) - headerSize)) (heap + total xs) p c) :
    ∀ x ∈ place heap (taken xs b ys p), length m' x.1 + headerSize = x.2.len := by
  have hp' : p + headerSize ≤ b.len := by omega
  have hbehind := place_middle (heap + total xs + (p + headerSize)) [] ⟨b.len - (p + headerSize), none⟩ ys
  rw [total, Nat.add_zero, total_before hp'] at hbehind
  have hplace : place heap (taken xs b ys p) = place heap xs ++ (heap + total xs, ⟨p + headerSize, some ()⟩) ::
      (heap + total xs + (p + headerSize), ⟨b.len - (p + headerSize), none⟩) :: place (heap + total xs + b.len) ys := by
    rw [taken, place_middle]
    exact congrArg (fun l => place heap xs ++ (heap + total xs, ⟨p + headerSize, some ()⟩) :: l) hbehind
  have hsize : headerSize = 8 := rfl
  intro x hx
  have hlen := hm x.1 (List.mem_map_of_mem hx)
  rw [hplace] at hx
  rw [hlen]
  rcases List.mem_append.mp hx with hleft | hright
  · have hin : x ∈ place heap (xs ++ b :: ys) := by
      rw [place_middle]
      exact List.mem_append_left _ hleft
    have hxlen := hroom x.2 (mem_of_place hin)
    have hbound := (mem_place (q := x.1) (b := x.2) hleft).2
    rw [Function.update_of_ne (by omega), Function.update_of_ne (by omega)]
    exact h x hin
  · rcases List.mem_cons.mp hright with rfl | hrest
    · rw [Function.update_self]
    · rcases List.mem_cons.mp hrest with rfl | hlast
      · rw [Function.update_of_ne (by omega), Function.update_self]
        change b.len - (p + headerSize) - headerSize + headerSize = b.len - (p + headerSize)
        omega
      · have hin : x ∈ place heap (xs ++ b :: ys) := by
          rw [place_middle]
          exact List.mem_append_right _ (List.mem_cons_of_mem _ hlast)
        have hbound := (mem_place (q := x.1) (b := x.2) hlast).1
        rw [Function.update_of_ne (by omega), Function.update_of_ne (by omega)]
        exact h x hin

/-! ### Taking a block -/

theorem split_lists (hheap : Placed heap) (hs : Shape heap s (xs ++ b :: ys)) (hb : b.label = none)
    (hp : p + 2 * headerSize ≤ b.len) (hm : m = finshBlockSplit s.mem (heap + total xs) p) :
    (∀ x ∈ place heap (taken xs b ys p), length m x.1 + headerSize = x.2.len) ∧
      Linked (link m) (pointer s.freeList) (vacant heap xs ++ (heap + total xs) ::
        (heap + total xs + (p + headerSize)) :: vacant (heap + total xs + b.len) ys) ∧
      Linked (link m) (pointer s.allocateList) (occupied heap (xs ++ b :: ys)) := by
  have hp' : p + headerSize ≤ b.len := by omega
  have hsize : headerSize = 8 := rfl
  obtain ⟨hblen, hbin, -⟩ := hs.middle hheap
  have hA := headers_apart hheap ((total_taken xs ys hp').trans hs.size) (taken_room hs.room hp)
  have hA' : Apart ((heap + total xs + (p + headerSize)) :: headers heap (xs ++ b :: ys)) :=
    hA.mono fun a ha => (mem_headers_taken hp').mpr ha
  obtain ⟨hlengths, hlinks⟩ := split_spec (n := heap + total xs + (p + headerSize)) hA' hbin
    (by omega) (show p + headerSize ≤ length s.mem (heap + total xs) by omega)
  have hvac := vacant_middle_of_none heap xs ys hb
  -- the address of the new header is inside the block
  have hnew : heap + total xs + (p + headerSize) ∉ headers heap (xs ++ b :: ys) := by
    intro hin
    have hsorted : (headers heap (taken xs b ys p)).Pairwise (· < ·) := headers_sorted (taken_room hs.room hp)
    rw [headers_taken heap xs ys hp'] at hsorted
    rw [headers_middle] at hin
    obtain ⟨-, hright, hcross⟩ := List.pairwise_append.mp hsorted
    obtain ⟨hfirst, hright⟩ := List.pairwise_cons.mp hright
    rcases List.mem_append.mp hin with hleft | hrest
    · exact Nat.lt_irrefl _ (hcross _ hleft _ (List.mem_cons_of_mem _ List.mem_cons_self))
    · rcases List.mem_cons.mp hrest with he | hbehind
      · exact Nat.ne_of_gt (hfirst _ List.mem_cons_self) he
      · exact Nat.lt_irrefl _ ((List.pairwise_cons.mp hright).1 _ hbehind)
  rw [← hm] at hlengths hlinks
  refine ⟨?_, ?_, ?_⟩
  · refine lengths_taken hs.room hp hs.lengths fun c hc => ?_
    rw [hlengths c ((mem_headers_taken hp').mp hc)]
    rw [show length s.mem (heap + total xs) - headerSize - p = b.len - (p + headerSize) - headerSize by omega]
  · have hchain := hs.free
    have hnodup := hs.vacant_nodup
    have hnot : heap + total xs + (p + headerSize) ∉ vacant heap (xs ++ b :: ys) :=
      fun hin => hnew (vacant_subset heap _ _ hin)
    rw [hvac] at hchain hnodup hnot
    have hnext := hchain.next_middle
    have hinsert := Linked.insert_after (by rw [Function.update_self, hnext])
      (hchain.update hnot (link s.mem (heap + total xs))) hnodup hnot
    refine hinsert.congr fun c hc => hlinks c ?_
    have hsub := vacant_subset heap (taken xs b ys p)
    rw [vacant_taken heap xs ys hp'] at hsub
    rcases List.mem_append.mp hc with hleft | hright
    · exact (mem_headers_taken hp').mp (hsub c (List.mem_append_left _ hleft))
    · rcases List.mem_cons.mp hright with rfl | hrest
      · exact List.mem_cons_of_mem _ hbin
      · exact (mem_headers_taken hp').mp (hsub c (List.mem_append_right _ hrest))
  · refine hs.allocated.congr fun c hc => ?_
    have hin := occupied_subset heap _ c hc
    have hvacant : heap + total xs ∈ vacant heap (xs ++ b :: ys) := by
      rw [hvac]
      exact List.mem_append_right _ List.mem_cons_self
    have hne : c ≠ heap + total xs := by
      rintro rfl
      exact not_mem_occupied hs.room hvacant hc
    have hne' : c ≠ heap + total xs + (p + headerSize) := by
      rintro rfl
      exact hnew hin
    rw [hlinks c (List.mem_cons_of_mem _ hin), Function.update_of_ne hne, Function.update_of_ne hne']

theorem not_mem_vacant_taken (hroom : ∀ c ∈ xs ++ b :: ys, headerSize ≤ c.len) (hp : p + 2 * headerSize ≤ b.len)
    (ha : a ∈ vacant heap (taken xs b ys p)) : a ∉ (heap + total xs) :: occupied heap xs := by
  intro hin
  refine not_mem_occupied (taken_room hroom hp) ha ?_
  rw [occupied_taken heap xs ys (by omega)]
  rcases List.mem_cons.mp hin with rfl | hleft
  · exact List.mem_append_right _ List.mem_cons_self
  · exact List.mem_append_left _ hleft

theorem split_chain (hs : Shape heap s (xs ++ b :: ys)) (hb : b.label = none) (hp : p + 2 * headerSize ≤ b.len) {l : List ℕ}
    (hl : l = vacant heap xs ++ (heap + total xs) :: (heap + total xs + (p + headerSize)) ::
      vacant (heap + total xs + b.len) ys) :
    (∀ c ∈ l, c ∈ headers heap (taken xs b ys p)) ∧ l.Nodup ∧ l.length < fuel := by
  have hp' : p + headerSize ≤ b.len := by omega
  have hroom := taken_room hs.room hp
  have hperm : l.Perm ((heap + total xs) :: vacant heap (taken xs b ys p)) := by
    rw [hl, vacant_taken heap xs ys hp']
    exact List.perm_middle
  refine ⟨fun c hc => ?_, ?_, ?_⟩
  · rcases List.mem_cons.mp (hperm.mem_iff.mp hc) with rfl | hin
    · rw [headers_taken heap xs ys hp']
      exact List.mem_append_right _ List.mem_cons_self
    · exact vacant_subset heap _ c hin
  · rw [hperm.nodup_iff]
    refine List.nodup_cons.mpr ⟨fun hin => ?_, (vacant_sorted hroom).imp fun hlt => Nat.ne_of_lt hlt⟩
    exact not_mem_vacant_taken hs.room hp hin List.mem_cons_self
  · refine length_lt_fuel ((total_taken xs ys hp').trans hs.size) hroom ?_
    have hle := length_vacant_le heap (xs ++ b :: ys)
    rw [vacant_middle_of_none heap xs ys hb] at hle
    rw [hl]
    simp only [List.length_append, List.length_cons] at hle ⊢
    omega

theorem take_lists (hheap : Placed heap) (hs : Shape heap s (xs ++ b :: ys)) (hb : b.label = none)
    (hp : p + 2 * headerSize ≤ b.len) (hdvd : 4 ∣ p) (hm : m = finshBlockSplit s.mem (heap + total xs) p) :
    ∃ m2 f m4 al, finshBlockRemove m s.freeList (heap + total xs) = some (m2, f) ∧
      finshBlockInsert (setNext m2 (heap + total xs) 0) s.allocateList (heap + total xs) = some (m4, al) ∧
        Shape heap { s with mem := m4, freeList := f, allocateList := al } (taken xs b ys p) := by
  have hp' : p + headerSize ≤ b.len := by omega
  have hroom := taken_room hs.room hp
  have htotal := (total_taken xs ys hp').trans hs.size
  have hA := headers_apart hheap htotal hroom
  have hvac := vacant_taken heap xs ys hp'
  have hocc := occupied_taken heap xs ys hp'
  have hold := occupied_middle_of_none heap xs ys hb
  obtain ⟨hlengths, hfree, hallocated⟩ := split_lists hheap hs hb hp hm
  have hh : heap + total xs ∈ headers heap (taken xs b ys p) := by
    rw [headers_taken heap xs ys hp']
    exact List.mem_append_right _ List.mem_cons_self
  have hoccupied : ∀ c ∈ occupied heap (xs ++ b :: ys), c ∈ occupied heap (taken xs b ys p) ∧ c ≠ heap + total xs := by
    intro c hc
    have hne : c ≠ heap + total xs := by
      rintro rfl
      refine not_mem_occupied hs.room ?_ hc
      rw [vacant_middle_of_none heap xs ys hb]
      exact List.mem_append_right _ List.mem_cons_self
    rw [hold] at hc
    rw [hocc]
    rcases List.mem_append.mp hc with hleft | hright
    · exact ⟨List.mem_append_left _ hleft, hne⟩
    · exact ⟨List.mem_append_right _ (List.mem_cons_of_mem _ hright), hne⟩
  obtain ⟨hchain, hnodup, hcount⟩ := split_chain hs hb hp rfl
  obtain ⟨m2, f, hremove, hfree2, hrel2⟩ := remove_spec hA hchain hfree hnodup hcount
  have hrel3 := relinked_setNext (m := m2) hA hh (v := 0) (by norm_num)
  -- the allocated blocks
  have hallocated3 : Linked (link (setNext m2 (heap + total xs) 0)) (pointer s.allocateList)
      (occupied heap xs ++ occupied (heap + total xs + b.len) ys) := by
    rw [← hold]
    refine hallocated.congr fun c hc => ?_
    obtain ⟨hin, hne⟩ := hoccupied c hc
    have hheader := occupied_subset heap _ c hin
    rw [hrel3.links c hheader fun hone => hne (List.mem_singleton.mp hone)]
    refine hrel2.links c hheader fun hchanged => ?_
    rcases List.mem_cons.mp hchanged with he | hleft
    · exact hne he
    · refine not_mem_occupied hroom ?_ hin
      rw [hvac]
      exact List.mem_append_left _ hleft
  obtain ⟨m4, al, hinsert, hallocated4, hrel4⟩ := insert_spec hA
    (by rw [← hold]; exact fun c hc => occupied_subset heap _ c (hoccupied c hc).1) hh hallocated3
    (by rw [← hocc]; exact occupied_sorted hroom)
    (fun _ => by rw [link_setNext hA hh hh (by norm_num), Function.update_self]; rfl)
    (by rw [← hold]; exact hs.occupied_fuel)
  refine ⟨m2, f, m4, al, hremove, hinsert, htotal, hroom, taken_aligned hs.aligned hdvd, ?_, ?_, ?_, taken_last hs.last⟩
  · intro x hx
    have hin : x.1 ∈ headers heap (taken xs b ys p) := List.mem_map_of_mem hx
    rw [hrel4.lengths x.1 hin, hrel3.lengths x.1 hin, hrel2.lengths x.1 hin]
    exact hlengths x hx
  · rw [hvac]
    refine hfree2.congr fun c hc => ?_
    rw [← hvac] at hc
    have hin := vacant_subset heap _ c hc
    have hout := not_mem_vacant_taken hs.room hp hc
    rw [hrel4.links c hin hout]
    exact hrel3.links c hin fun hone => hout (List.mem_cons.mpr (Or.inl (List.mem_singleton.mp hone)))
  · rw [hocc]
    exact hallocated4

theorem take_spec (hheap : Placed heap) (hw : Whole heap s bs) (ha : a ∈ vacant heap bs)
    (hp : p + headerSize ≤ length s.mem a) (hdvd : 4 ∣ p) :
    ∃ s' bs', takeBlock s a p = some (getData a, s') ∧ Whole heap s' bs' ∧
      (occupied heap bs').Perm (a :: occupied heap bs) ∧ length s'.mem a = p ∧ s'.globalVariable = s.globalVariable := by
  obtain ⟨xs, b, ys, rfl, rfl, hb⟩ := mem_vacant ha
  obtain ⟨hs, hcompact⟩ := hw
  obtain ⟨hblen, -, -⟩ := hs.middle hheap
  have hfits := hheap.fits
  have hsize : headerSize = 8 := rfl
  have hp2 : p + 2 * headerSize ≤ b.len := by omega
  have hp' : p + headerSize ≤ b.len := by omega
  obtain ⟨m2, f, m4, al, hremove, hinsert, hshape⟩ := take_lists hheap hs hb hp2 hdvd rfl
  have hroom := taken_room hs.room hp2
  have htotal := (total_taken xs ys hp').trans hs.size
  have hinside := hs.size
  rw [total_middle] at hinside
  have hdata : getData (heap + total xs) = heap + total xs + headerSize := add_of_lt (by omega)
  -- the data is cleared
  have hcleared : Relinked (headers heap (taken xs b ys p)) [] m4 (memset m4 (getData (heap + total xs)) p) := by
    refine relinked_of_eqOn fun c hc => ?_
    have hsorted : (headers heap (taken xs b ys p)).Pairwise (· < ·) := headers_sorted hroom
    have hA := headers_apart hheap htotal hroom
    have hnew : heap + total xs + (p + headerSize) ∈ headers heap (taken xs b ys p) := by
      rw [headers_taken heap xs ys hp']
      exact List.mem_append_right _ (List.mem_cons_of_mem _ List.mem_cons_self)
    rw [hdata]
    refine memset_eqOn (by omega) ?_
    by_cases hle : c ≤ heap + total xs
    · exact Or.inl (by omega)
    · refine Or.inr ?_
      rw [headers_taken heap xs ys hp'] at hsorted hc
      obtain ⟨-, hright, hcross⟩ := List.pairwise_append.mp hsorted
      rcases List.mem_append.mp hc with hleft | hrest
      · exact absurd (hcross c hleft _ List.mem_cons_self).le hle
      · rcases List.mem_cons.mp hrest with rfl | hbehind
        · exact absurd le_rfl hle
        · rcases List.mem_cons.mp hbehind with rfl | hafter
          · omega
          · have hlt := (List.pairwise_cons.mp (List.pairwise_cons.mp hright).2).1 c hafter
            omega
  refine ⟨_, taken xs b ys p, ?_, ⟨hshape.of_relinked hcleared, compact_taken hb hcompact⟩, ?_, ?_, rfl⟩
  · rw [takeBlock]
    simp only [hremove, Option.bind_eq_bind, Option.bind_some]
    rw [hinsert]
    rfl
  · rw [occupied_taken heap xs ys hp', occupied_middle_of_none heap xs ys hb]
    exact List.perm_middle
  · have hin : (heap + total xs, (⟨p + headerSize, some ()⟩ : Block)) ∈ place heap (taken xs b ys p) := by
      rw [place_middle]
      exact List.mem_append_right _ List.mem_cons_self
    exact Nat.add_right_cancel ((hshape.of_relinked hcleared).lengths _ hin)

end RtThread.Finsh.Heap
