import RtThread.Memory.MemHeapItems

/-!
# The free items of a memory heap

Read off the block ring: the items from `start_addr` along `next` up to the tailer, and those of them that are free.
-/

namespace RtThread.Memory.MemHeap

open RtThread.Lib.Rings RtThread.Lib.Tiling RtThread.Lib.Word

variable (k : ℕ)

/-- The address of the tailer. -/
def Memheap.tailAddr (h : Memheap) : ℕ := h.startAddr + h.poolSize - memheapSize k

/-- The items from `p` on, without the tailer. -/
def itemsFrom (h : Memheap) : ℕ → ℕ → List ℕ
  | 0, _ => []
  | fuel + 1, p => if p = h.tailAddr k then [] else p :: itemsFrom h fuel (h.next p)

def Memheap.items (h : Memheap) : List ℕ := itemsFrom k h (h.poolSize + 1) h.startAddr

def Memheap.freeItems (h : Memheap) : List ℕ := (h.items k).filter fun p => ¬h.isUsed p

/-- What `rt_memheap_alloc` needs for `size` bytes. -/
def AllocFits (h : Memheap) (size : ℕ) : Prop :=
  size < h.availableSize ∧ ∃ p ∈ h.freeItems k, size ≤ memitemSize k h p

instance (h : Memheap) (size : ℕ) : Decidable (AllocFits k h size) := inferInstanceAs (Decidable (_ ∧ _))

variable {k} {h : Memheap} {bs xs ys : List (Tile ℕ)} {b : Tile ℕ}

theorem Blocks.tailAddr_eq (hb : Blocks k h bs) : h.tailAddr k = h.startAddr + total bs := by
  have htotal := hb.total_eq
  rw [Memheap.tailAddr]
  omega

theorem itemsFrom_eq (hk : k ≤ 30) {fuel : ℕ} (hb : Blocks k h (xs ++ ys)) (hfuel : ys.length < fuel) :
    itemsFrom k h fuel (h.startAddr + total xs) = (place (h.startAddr + total xs) ys).map Prod.fst := by
  have htail := hb.tailAddr_eq
  induction ys generalizing xs fuel with
  | nil =>
    obtain ⟨n, rfl⟩ := Nat.exists_eq_add_of_lt hfuel
    rw [List.append_nil] at htail
    simp only [itemsFrom]
    rw [if_pos htail.symm]
    rfl
  | cons b ys ih =>
    obtain ⟨n, rfl⟩ : ∃ n, fuel = n + 1 := ⟨fuel - 1, by have := Nat.zero_lt_of_lt hfuel; omega⟩
    have hpos := hb.pos hk b (by simp)
    have hrest := @ih (xs ++ [b]) n (by simpa using hb) (by simpa using hfuel) (by simpa using htail)
    rw [total_append, total, total, Nat.add_zero, ← Nat.add_assoc] at hrest
    rw [total_middle] at htail
    rw [itemsFrom, if_neg (by omega), hb.next_eq, hrest, place, List.map_cons]

theorem Blocks.filter_free (hb : Blocks k h bs) :
    ((place h.startAddr bs).map Prod.fst).filter (fun p => ¬h.isUsed p) = vacant h.startAddr bs := by
  rw [vacant, List.filter_map]
  refine congrArg (List.map Prod.fst) (List.filter_congr fun x hx => ?_)
  have hmark := mark_isUsed x.2.label
  simp only [Function.comp_apply, Memheap.isUsed, (hb.item x hx).1]
  cases hlabel : x.2.label with
  | none =>
    rw [hlabel] at hmark
    simp only [Option.isNone_none, decide_eq_true_eq, hmark]
    simp
  | some n =>
    rw [hlabel] at hmark
    simp only [Option.isNone_some, decide_eq_false_iff_not, not_not, hmark]
    rfl

theorem freeItems_eq (hk : k ≤ 30) (hb : Blocks k h bs) : h.freeItems k = vacant h.startAddr bs := by
  have hlength := length_le_total (hb.pos hk)
  have htotal := hb.total_eq
  have hitems := @itemsFrom_eq k h [] bs hk (h.poolSize + 1) hb (by omega)
  simp only [total, Nat.add_zero] at hitems
  rw [Memheap.freeItems, Memheap.items, hitems, hb.filter_free]

end RtThread.Memory.MemHeap
