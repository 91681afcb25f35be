import RtThread.Lib.Rings
import RtThread.Lib.Tiling
import RtThread.Memory.MemHeap

/-!
# The two rings of a memory heap

The items of the block ring are the tiles of the pool, each with its header and its data; the label
of a tile in use is the size that was asked for. Each assignment to the links is a change of the
tiling or of the free list.
-/

namespace RtThread.Memory.MemHeap

open RtThread.Lib.Rings RtThread.Lib.Tiling RtThread.Lib.Word

variable {k : ℕ}

theorem memheapSize_spec (hk : k ≤ 30) : 24 ≤ memheapSize k ∧ memheapSize k < 2 ^ 31 := by
  have hpow : 2 ^ k ≤ 2 ^ 30 := Nat.pow_le_pow_right (by omega) hk
  have hup := @alignUp_spec k 24 (by omega)
  rw [memheapSize]
  omega

/-- The magic number of an item. -/
def mark (label : Option ℕ) : ℕ := if label.isSome = true then memheapMagic ||| memheapUsed else memheapMagic

theorem mark_none : mark none = memheapMagic := rfl

theorem mark_some (n : ℕ) : mark (some n) = memheapMagic ||| memheapUsed := rfl

theorem mark_isUsed (label : Option ℕ) : mark label &&& memheapUsed ≠ 0 ↔ label.isSome = true := by
  cases label with
  | none => decide
  | some n => exact iff_of_true (by rw [mark_some]; decide) rfl

theorem mark_mask (label : Option ℕ) : mark label &&& memheapMask = memheapMagic := by
  cases label with
  | none => decide
  | some n =>
    rw [mark_some]
    decide

/-- The block ring is the tiling `bs` of the pool up to the tailer. -/
structure Blocks (k : ℕ) (h : Memheap) (bs : List (Tile ℕ)) : Prop where
  ring : Circular h.next h.prev (ends h.startAddr bs)
  len : ∀ b ∈ bs, memheapSize k ≤ b.len
  item : ∀ x ∈ place h.startAddr bs, h.magic x.1 = mark x.2.label ∧ h.poolPtr x.1 = h.self
  tail : h.magic (h.startAddr + total bs) = memheapMagic ||| memheapUsed
  total_eq : total bs + memheapSize k = h.poolSize
  bound : h.startAddr + h.poolSize ≤ 2 ^ 32 ∧ h.poolSize < 2 ^ 32
  room : 2 * memheapSize k ≤ h.poolSize

variable {h : Memheap} {xs ys : List (Tile ℕ)} {a b : Tile ℕ}

theorem Blocks.pos (hk : k ≤ 30) {bs : List (Tile ℕ)} (hb : Blocks k h bs) : ∀ b ∈ bs, 0 < b.len := by
  intro b hmem
  have := (memheapSize_spec hk).1
  have := hb.len b hmem
  omega

theorem Blocks.nodup (hk : k ≤ 30) {bs : List (Tile ℕ)} (hb : Blocks k h bs) : (ends h.startAddr bs).Nodup :=
  (ends_pairwise (hb.pos hk) _).imp fun hlt => Nat.ne_of_lt hlt

theorem Blocks.bounds (hb : Blocks k h (xs ++ b :: ys)) : memheapSize k ≤ b.len ∧
    h.startAddr + total xs + b.len + total ys + memheapSize k = h.startAddr + h.poolSize := by
  have htotal := hb.total_eq
  rw [total_append, total] at htotal
  exact ⟨hb.len b (by simp), by omega⟩

theorem Blocks.next_eq (hb : Blocks k h (xs ++ b :: ys)) :
    h.next (h.startAddr + total xs) = h.startAddr + total xs + b.len := by
  have hring := hb.ring
  obtain ⟨l, hl⟩ := exists_ends_eq_cons (h.startAddr + total xs + b.len) ys
  rw [ends_append, ends_cons, hl] at hring
  exact hring.links.1

theorem Blocks.prev_eq (hb : Blocks k h (xs ++ a :: b :: ys)) :
    h.prev (h.startAddr + total xs + a.len) = h.startAddr + total xs := by
  have hring := hb.ring
  rw [ends_append, ends_cons, ends_cons] at hring
  exact hring.links.2

theorem Blocks.prev_first (hb : Blocks k h (b :: ys)) : h.prev h.startAddr = h.startAddr + total (b :: ys) := by
  have hring := hb.ring
  rw [ends, place, List.map_cons] at hring
  exact hring.links_last.2

theorem Blocks.item_eq (hb : Blocks k h (xs ++ b :: ys)) :
    h.magic (h.startAddr + total xs) = mark b.label ∧ h.poolPtr (h.startAddr + total xs) = h.self :=
  hb.item (h.startAddr + total xs, b) (by simp [place])

theorem Blocks.isUsed_iff (hb : Blocks k h (xs ++ b :: ys)) :
    h.isUsed (h.startAddr + total xs) ↔ b.label.isSome = true := by
  rw [Memheap.isUsed, hb.item_eq.1]
  exact mark_isUsed b.label

theorem Blocks.tail_isUsed {bs : List (Tile ℕ)} (hb : Blocks k h bs) : h.isUsed (h.startAddr + total bs) := by
  rw [Memheap.isUsed, hb.tail]
  decide

theorem Blocks.next_vacant (hb : Blocks k h (xs ++ b :: ys)) :
    ¬ h.isUsed (h.startAddr + total xs + b.len) ↔ ∃ c zs, ys = c :: zs ∧ c.label = none := by
  cases ys with
  | nil =>
    have htail := hb.tail_isUsed
    rw [total_append, total, total, Nat.add_zero, ← Nat.add_assoc] at htail
    exact iff_of_false (not_not.mpr htail) (by rintro ⟨c, zs, hnil, -⟩; cases hnil)
  | cons c zs =>
    have hc : Blocks k h (xs ++ [b] ++ c :: zs) := by simpa using hb
    have hused := hc.isUsed_iff
    rw [total_append, total, total, Nat.add_zero, ← Nat.add_assoc] at hused
    rw [hused, Bool.not_eq_true, Option.isSome_eq_false_iff, Option.isNone_iff_eq_none]
    constructor
    · exact fun hnone => ⟨c, zs, rfl, hnone⟩
    · rintro ⟨c', zs', heq, hnone⟩
      cases heq
      exact hnone

theorem Blocks.next_magic (hb : Blocks k h (xs ++ b :: ys)) :
    h.magic (h.startAddr + total xs + b.len) &&& memheapMask = memheapMagic := by
  cases ys with
  | nil =>
    have htail := hb.tail
    rw [total_append, total, total, Nat.add_zero, ← Nat.add_assoc] at htail
    rw [htail]
    decide
  | cons c zs =>
    have hc : Blocks k h (xs ++ [b] ++ c :: zs) := by simpa using hb
    have hmark := hc.item_eq.1
    rw [total_append, total, total, Nat.add_zero, ← Nat.add_assoc] at hmark
    rw [hmark]
    exact mark_mask c.label

theorem Blocks.size_eq (hk : k ≤ 30) (hb : Blocks k h (xs ++ b :: ys)) :
    memitemSize k h (h.startAddr + total xs) = b.len - memheapSize k := by
  obtain ⟨hlen, hend⟩ := hb.bounds
  have hbound := hb.bound
  have hsize := memheapSize_spec hk
  rw [memitemSize, hb.next_eq, sub_of_le (Nat.le_add_right _ _) (by omega), Nat.add_sub_cancel_left,
    sub_of_le hlen (by omega)]

/-! ### Changes of the block ring -/

theorem newItem_eq {p q : ℕ} (hpq : p ≠ q) : newItem h p q = { h with
    magic := Function.update h.magic q memheapMagic
    poolPtr := Function.update h.poolPtr q h.self
    prev := Function.update (Function.update h.prev q p) (h.next p) q
    next := Function.update (Function.update h.next q (h.next p)) p q } := by
  simp only [newItem, Function.update_of_ne hpq]

theorem Blocks.newItem (hk : k ≤ 30) (hb : Blocks k h (xs ++ b :: ys)) {len : ℕ} (hlen : memheapSize k ≤ len)
    (hrest : len + memheapSize k ≤ b.len) :
    Blocks k (newItem h (h.startAddr + total xs) (h.startAddr + total xs + len))
      (xs ++ ⟨len, b.label⟩ :: ⟨b.len - len, none⟩ :: ys) := by
  have hsize := memheapSize_spec hk
  have hxs : ∀ c ∈ xs, 0 < c.len := fun c hc => hb.pos hk c (by simp [hc])
  have hend : h.startAddr + total xs + len + (b.len - len) = h.startAddr + total xs + b.len := by omega
  have hring := hb.ring
  have hnodup := hb.nodup hk
  rw [ends_middle] at hring hnodup
  have hbefore : h.startAddr + total xs + len ∉ (place h.startAddr xs).map Prod.fst :=
    not_mem_place_of_le hxs (by omega)
  have hafter : h.startAddr + total xs + len ∉ ends (h.startAddr + total xs + b.len) ys :=
    not_mem_ends_of_lt (by omega)
  have hnew := hring.insert hnodup (q := h.startAddr + total xs + len) (by
    simp only [List.mem_append, List.mem_cons, not_or]
    exact ⟨hbefore, by omega, hafter⟩)
  rw [newItem_eq (by omega)]
  have htotal : total (xs ++ ⟨len, b.label⟩ :: ⟨b.len - len, none⟩ :: ys) = total (xs ++ b :: ys) := by
    simp only [total_append, total]
    omega
  refine ⟨?_, fun c hc => ?_, fun x hx => ?_, ?_, ?_, hb.bound, hb.room⟩
  · rw [ends_middle, ends_cons, hend]
    exact hnew
  · simp only [List.mem_append, List.mem_cons] at hc
    rcases hc with hc | rfl | rfl | hc
    · exact hb.len c (by simp [hc])
    · exact hlen
    · exact Nat.le_sub_of_add_le' hrest
    · exact hb.len c (by simp [hc])
  · rw [place_middle, place, hend] at hx
    have hold : ∀ y ∈ place h.startAddr (xs ++ b :: ys), y.1 ≠ h.startAddr + total xs + len := by
      intro y hy he
      rw [place_middle] at hy
      rcases List.mem_append.mp hy with hy | hy
      · exact hbefore (he ▸ List.mem_map_of_mem hy)
      · rcases List.mem_cons.mp hy with rfl | hy
        · simp only at he
          omega
        · exact hafter (he ▸ List.mem_append_left _ (List.mem_map_of_mem hy))
    have hkeep : ∀ y ∈ place h.startAddr (xs ++ b :: ys),
        Function.update h.magic (h.startAddr + total xs + len) memheapMagic y.1 = mark y.2.label ∧
        Function.update h.poolPtr (h.startAddr + total xs + len) h.self y.1 = h.self := by
      intro y hy
      rw [Function.update_of_ne (hold y hy), Function.update_of_ne (hold y hy)]
      exact hb.item y hy
    simp only [List.mem_append, List.mem_cons] at hx
    rcases hx with hx | rfl | rfl | hx
    · exact hkeep x (by rw [place_middle]; simp [hx])
    · exact hkeep (h.startAddr + total xs, b) (by rw [place_middle]; simp)
    · exact ⟨Function.update_self .., Function.update_self ..⟩
    · exact hkeep x (by rw [place_middle]; simp [hx])
  · have htail : h.startAddr + total (xs ++ b :: ys) ≠ h.startAddr + total xs + len := by
      rw [total_middle]
      omega
    simp only [htotal, Function.update_of_ne htail]
    exact hb.tail
  · rw [htotal]
    exact hb.total_eq

theorem Blocks.mergeItem (hk : k ≤ 30) (hb : Blocks k h (xs ++ a :: b :: ys)) :
    Blocks k (mergeItem h (h.startAddr + total xs) (h.startAddr + total xs + a.len))
      (xs ++ ⟨a.len + b.len, a.label⟩ :: ys) := by
  have hring := hb.ring
  have hnodup := hb.nodup hk
  rw [ends_middle, ends_cons] at hring hnodup
  have hnew := hring.remove hnodup
  have htotal : total (xs ++ ⟨a.len + b.len, a.label⟩ :: ys) = total (xs ++ a :: b :: ys) := by
    simp only [total_append, total]
    omega
  refine ⟨?_, fun c hc => ?_, fun x hx => ?_, ?_, ?_, hb.bound, hb.room⟩
  · rw [ends_middle, ← Nat.add_assoc]
    exact hnew
  · simp only [List.mem_append, List.mem_cons] at hc
    rcases hc with hc | rfl | hc
    · exact hb.len c (by simp [hc])
    · exact (hb.len a (by simp)).trans (Nat.le_add_right _ _)
    · exact hb.len c (by simp [hc])
  · change x ∈ place h.startAddr _ at hx
    rw [place_middle, ← Nat.add_assoc] at hx
    simp only [List.mem_append, List.mem_cons] at hx
    rcases hx with hx | rfl | hx
    · exact hb.item x (by rw [place_middle]; simp [hx])
    · exact hb.item (h.startAddr + total xs, a) (by rw [place_middle]; simp)
    · exact hb.item x (by rw [place_middle, place]; simp [hx])
  · rw [htotal]
    exact hb.tail
  · rw [htotal]
    exact hb.total_eq

theorem Blocks.setMark (hk : k ≤ 30) (hb : Blocks k h (xs ++ b :: ys)) (label : Option ℕ) :
    Blocks k { h with magic := Function.update h.magic (h.startAddr + total xs) (mark label) }
      (xs ++ ⟨b.len, label⟩ :: ys) := by
  have hnodup := hb.nodup hk
  rw [ends_middle] at hnodup
  obtain ⟨-, hcons, hcross⟩ := List.nodup_append.mp hnodup
  have htotal : total (xs ++ ⟨b.len, label⟩ :: ys) = total (xs ++ b :: ys) := by
    rw [total_middle, total_middle]
  refine ⟨?_, fun c hc => ?_, fun x hx => ?_, ?_, ?_, hb.bound, hb.room⟩
  · have hring := hb.ring
    rw [ends_middle] at hring ⊢
    exact hring
  · simp only [List.mem_append, List.mem_cons] at hc
    rcases hc with hc | rfl | hc
    · exact hb.len c (by simp [hc])
    · exact hb.len b (by simp)
    · exact hb.len c (by simp [hc])
  · rw [place_middle] at hx
    simp only [List.mem_append, List.mem_cons] at hx
    rcases hx with hx | rfl | hx
    · have hne : x.1 ≠ h.startAddr + total xs := hcross x.1 (List.mem_map_of_mem hx) _ List.mem_cons_self
      simp only [Function.update_of_ne hne]
      exact hb.item x (by rw [place_middle]; simp [hx])
    · simp only [Function.update_self, true_and]
      exact hb.item_eq.2
    · have hne : x.1 ≠ h.startAddr + total xs := fun he =>
        (List.nodup_cons.mp hcons).1 (List.mem_append_left _ (List.mem_map.mpr ⟨x, hx, he⟩))
      simp only [Function.update_of_ne hne]
      exact hb.item x (by rw [place_middle]; simp [hx])
  · have htail : h.startAddr + total (xs ++ b :: ys) ≠ h.startAddr + total xs := by
      have := hb.pos hk b (by simp)
      rw [total_middle]
      omega
    simp only [htotal, Function.update_of_ne htail]
    exact hb.tail
  · rw [htotal]
    exact hb.total_eq

/-! ### Changes of the free list -/

def FreeRing (h : Memheap) (fl : List ℕ) : Prop := Circular h.nextFree h.prevFree (h.freeList :: fl)

theorem FreeRing.insertFree {fl : List ℕ} (hf : FreeRing h fl) (hnodup : (h.freeList :: fl).Nodup) {p : ℕ}
    (hp : p ∉ h.freeList :: fl) : FreeRing (insertFree h p) (p :: fl) := by
  have hne : h.freeList ≠ p := fun he => hp (he ▸ List.mem_cons_self)
  have hnew := @Circular.insert ℕ _ h.nextFree h.prevFree [] fl h.freeList p hf hnodup hp
  simp only [FreeRing, MemHeap.insertFree, Function.update_of_ne hne]
  exact hnew

theorem FreeRing.removeFree {us vs : List ℕ} {p : ℕ} (hf : FreeRing h (us ++ p :: vs))
    (hnodup : (h.freeList :: (us ++ p :: vs)).Nodup) : FreeRing (removeFree h p) (us ++ vs) := by
  obtain ⟨ws, a, hws⟩ : ∃ ws a, h.freeList :: us = ws ++ [a] := by
    rcases List.eq_nil_or_concat (h.freeList :: us) with hnil | ⟨ws, a, hconcat⟩
    · cases hnil
    · exact ⟨ws, a, by rw [hconcat, List.concat_eq_append]⟩
  have hlist : ∀ l, h.freeList :: (us ++ l) = ws ++ a :: l := by
    intro l
    rw [← List.cons_append, hws, List.append_assoc]
    rfl
  rw [FreeRing, hlist] at hf
  rw [hlist] at hnodup
  have hnew := hf.remove hnodup
  obtain ⟨-, hprev⟩ := hf.links
  have hself : h.nextFree p ≠ p := hf.next_ne hnodup
  simp only [FreeRing, MemHeap.removeFree, Function.update_of_ne hself.symm, hprev]
  rw [hlist]
  exact hnew

theorem FreeRing.clearFree {fl : List ℕ} (hf : FreeRing h fl) {p : ℕ} (hp : p ∉ h.freeList :: fl) :
    FreeRing (clearFree h p) fl := by
  have hne : ∀ q ∈ h.freeList :: fl, q ≠ p := by
    rintro q hq rfl
    exact hp hq
  exact hf.congr (fun q hq => Function.update_of_ne (hne q hq) _ _) fun q hq => Function.update_of_ne (hne q hq) _ _

theorem FreeRing.next_eq {us vs : List ℕ} {p q : ℕ} (hf : FreeRing h (us ++ p :: q :: vs)) : h.nextFree p = q := by
  rw [FreeRing, ← List.cons_append] at hf
  exact hf.links.1

theorem FreeRing.next_first {fl : List ℕ} (hf : FreeRing h fl) : h.nextFree h.freeList = fl.headD h.freeList := by
  cases fl with
  | nil => simpa [FreeRing, Circular] using hf.1
  | cons q fl => exact (@Circular.links ℕ _ _ [] _ _ _ hf).1

theorem FreeRing.next_last {us : List ℕ} {p : ℕ} (hf : FreeRing h (us ++ [p])) : h.nextFree p = h.freeList := by
  rw [FreeRing, ← List.cons_append] at hf
  exact hf.links_last.1

end RtThread.Memory.MemHeap
