import Mathlib

/-!
# Tilings of an interval

Tiles with a length and a label lie one after the other from an address `p` on. `place` gives
the address of each tile, and `held` keeps those that have a label; the others are vacant. In
a compact tiling no two neighbours are vacant.
-/

namespace RtThread.Lib.Tiling

structure Tile (α : Type*) where
  len : ℕ
  label : Option α

variable {α : Type*}

def total : List (Tile α) → ℕ
  | [] => 0
  | b :: bs => b.len + total bs

def place : ℕ → List (Tile α) → List (ℕ × Tile α)
  | _, [] => []
  | p, b :: bs => (p, b) :: place (p + b.len) bs

def held (p : ℕ) (bs : List (Tile α)) : List (ℕ × Tile α) :=
  (place p bs).filter fun x => x.2.label.isSome

def lengths (l : List (ℕ × Tile α)) : ℕ := (l.map fun x => x.2.len).sum

def Compact (bs : List (Tile α)) : Prop :=
  bs.IsChain fun a b => a.label.isSome = true ∨ b.label.isSome = true

@[simp] theorem total_append (bs cs : List (Tile α)) : total (bs ++ cs) = total bs + total cs := by
  induction bs with
  | nil => simp [total]
  | cons b bs ih => simp only [List.cons_append, total, ih, Nat.add_assoc]

@[simp] theorem place_append (p : ℕ) (bs cs : List (Tile α)) :
    place p (bs ++ cs) = place p bs ++ place (p + total bs) cs := by
  induction bs generalizing p with
  | nil => rfl
  | cons b bs ih => simp only [List.cons_append, place, ih, total, Nat.add_assoc]

@[simp] theorem held_append (p : ℕ) (bs cs : List (Tile α)) :
    held p (bs ++ cs) = held p bs ++ held (p + total bs) cs := by
  simp only [held, place_append, List.filter_append]

theorem held_cons_of_some {p : ℕ} {b : Tile α} {x : α} (bs : List (Tile α)) (h : b.label = some x) :
    held p (b :: bs) = (p, b) :: held (p + b.len) bs := by
  simp [held, place, h]

theorem held_cons_of_none {p : ℕ} {b : Tile α} (bs : List (Tile α)) (h : b.label = none) :
    held p (b :: bs) = held (p + b.len) bs := by
  simp [held, place, h]

theorem held_middle_of_none {p : ℕ} {b : Tile α} (xs ys : List (Tile α)) (h : b.label = none) :
    held p (xs ++ [b] ++ ys) = held p xs ++ held (p + total xs + b.len) ys := by
  rw [List.append_assoc, List.singleton_append, held_append, held_cons_of_none ys h]

theorem held_middle_of_some {p : ℕ} {b : Tile α} {x : α} (xs ys : List (Tile α)) (h : b.label = some x) :
    held p (xs ++ [b] ++ ys) = held p xs ++ (p + total xs, b) :: held (p + total xs + b.len) ys := by
  rw [List.append_assoc, List.singleton_append, held_append, held_cons_of_some ys h]

theorem held_join {p : ℕ} {a b : Tile α} (xs ys : List (Tile α)) (ha : a.label = none)
    (hb : b.label = none) :
    held p (xs ++ [⟨a.len + b.len, none⟩] ++ ys) = held p (xs ++ [a, b] ++ ys) := by
  rw [held_middle_of_none xs ys rfl, List.append_assoc, held_append, List.cons_append,
    List.singleton_append, held_cons_of_none _ ha, held_cons_of_none _ hb, Nat.add_assoc (p + total xs)]

@[simp] theorem lengths_append (l l' : List (ℕ × Tile α)) :
    lengths (l ++ l') = lengths l + lengths l' := by
  simp [lengths]

@[simp] theorem lengths_cons (x : ℕ × Tile α) (l : List (ℕ × Tile α)) :
    lengths (x :: l) = x.2.len + lengths l := by
  simp [lengths]

theorem lengths_held_le (p : ℕ) (bs : List (Tile α)) : lengths (held p bs) ≤ total bs := by
  induction bs generalizing p with
  | nil => exact Nat.le_refl 0
  | cons b bs ih =>
    have hrest := ih (p + b.len)
    rw [total]
    cases hb : b.label with
    | none =>
      rw [held_cons_of_none bs hb]
      omega
    | some x =>
      rw [held_cons_of_some bs hb, lengths_cons]
      exact Nat.add_le_add_left hrest b.len

theorem mem_place {p q : ℕ} {b : Tile α} {bs : List (Tile α)} (h : (q, b) ∈ place p bs) :
    p ≤ q ∧ q + b.len ≤ p + total bs := by
  induction bs generalizing p with
  | nil => cases h
  | cons c bs ih =>
    simp only [place, List.mem_cons, Prod.mk.injEq] at h
    simp only [total]
    rcases h with ⟨rfl, rfl⟩ | h
    · omega
    · have := ih h
      omega

@[simp] theorem length_place (p : ℕ) (bs : List (Tile α)) : (place p bs).length = bs.length := by
  induction bs generalizing p with
  | nil => rfl
  | cons b bs ih => rw [place, List.length_cons, ih, List.length_cons]

theorem map_snd_place (p : ℕ) (bs : List (Tile α)) : (place p bs).map Prod.snd = bs := by
  induction bs generalizing p with
  | nil => rfl
  | cons b bs ih => rw [place, List.map_cons, ih]

theorem length_le_total {bs : List (Tile α)} (hpos : ∀ b ∈ bs, 0 < b.len) : bs.length ≤ total bs := by
  induction bs with
  | nil => exact le_rfl
  | cons b bs ih =>
    have hb := hpos b List.mem_cons_self
    have hbs := ih fun c hc => hpos c (List.mem_cons_of_mem b hc)
    rw [total, List.length_cons]
    omega

theorem exists_append_of_mem_place {p q : ℕ} {b : Tile α} {bs : List (Tile α)}
    (h : (q, b) ∈ place p bs) : ∃ xs ys, bs = xs ++ b :: ys ∧ q = p + total xs := by
  induction bs generalizing p with
  | nil => cases h
  | cons c bs ih =>
    simp only [place, List.mem_cons, Prod.mk.injEq] at h
    rcases h with ⟨rfl, rfl⟩ | h
    · exact ⟨[], bs, rfl, by simp [total]⟩
    · obtain ⟨xs, ys, rfl, hq⟩ := ih h
      exact ⟨c :: xs, ys, rfl, by rw [hq, total]; omega⟩

theorem exists_mem_place_replace {p q : ℕ} {b : Tile α} {xs mid mid' ys : List (Tile α)}
    (htotal : total mid' = total mid)
    (hmid : ∀ c, (q, c) ∈ place (p + total xs) mid → ∃ c', (q, c') ∈ place (p + total xs) mid')
    (h : (q, b) ∈ place p (xs ++ mid ++ ys)) : ∃ b', (q, b') ∈ place p (xs ++ mid' ++ ys) := by
  simp only [place_append, total_append, htotal, List.mem_append] at h ⊢
  rcases h with (h | h) | h
  · exact ⟨b, Or.inl (Or.inl h)⟩
  · obtain ⟨c', hc'⟩ := hmid b h
    exact ⟨c', Or.inl (Or.inr hc')⟩
  · exact ⟨b, Or.inr h⟩

theorem place_pairwise (p : ℕ) (bs : List (Tile α)) :
    (place p bs).Pairwise fun x y => x.1 + x.2.len ≤ y.1 := by
  induction bs generalizing p with
  | nil => exact List.Pairwise.nil
  | cons b bs ih =>
    refine List.pairwise_cons.mpr ⟨fun x hx => ?_, ih (p + b.len)⟩
    exact (mem_place hx).1

theorem place_apart {p : ℕ} {x y : ℕ × Tile α} {bs : List (Tile α)} (hx : x ∈ place p bs) (hy : y ∈ place p bs)
    (hne : x ≠ y) : x.1 + x.2.len ≤ y.1 ∨ y.1 + y.2.len ≤ x.1 := by
  have hpair : (place p bs).Pairwise fun x y => x.1 + x.2.len ≤ y.1 ∨ y.1 + y.2.len ≤ x.1 :=
    (place_pairwise p bs).imp Or.inl
  have : Std.Symm fun x y : ℕ × Tile α => x.1 + x.2.len ≤ y.1 ∨ y.1 + y.2.len ≤ x.1 := ⟨fun _ _ => Or.symm⟩
  exact hpair.forall hx hy hne

theorem place_disjoint {p q q' : ℕ} {b b' : Tile α} {bs : List (Tile α)} (h : (q, b) ∈ place p bs)
    (h' : (q', b') ∈ place p bs) (hne : q ≠ q') : q + b.len ≤ q' ∨ q' + b'.len ≤ q :=
  place_apart h h' fun he => hne (congrArg Prod.fst he)

/-- No two tiles begin at the same address. -/
theorem place_unique {p : ℕ} {x y : ℕ × Tile α} {bs : List (Tile α)} (hpos : ∀ b ∈ bs, 0 < b.len) (hx : x ∈ place p bs)
    (hy : y ∈ place p bs) (he : x.1 = y.1) : x = y := by
  by_contra hne
  have hxpos := hpos x.2 (map_snd_place p bs ▸ List.mem_map_of_mem hx)
  have hypos := hpos y.2 (map_snd_place p bs ▸ List.mem_map_of_mem hy)
  have := place_apart hx hy hne
  omega

/-- Every address of the interval is in a tile. -/
theorem exists_tile {p x : ℕ} {bs : List (Tile α)} (hle : p ≤ x) (hlt : x < p + total bs) :
    ∃ y ∈ place p bs, x ∈ Set.Ico y.1 (y.1 + y.2.len) := by
  induction bs generalizing p with
  | nil => exact absurd hlt (Nat.not_lt.mpr hle)
  | cons b bs ih =>
    by_cases hin : x < p + b.len
    · exact ⟨(p, b), List.mem_cons_self, hle, hin⟩
    · rw [total, ← Nat.add_assoc] at hlt
      obtain ⟨y, hy, hx⟩ := ih (Nat.le_of_not_lt hin) hlt
      exact ⟨y, List.mem_cons_of_mem _ hy, hx⟩

theorem held_pairwise (p : ℕ) (bs : List (Tile α)) :
    (held p bs).Pairwise fun x y => x.1 + x.2.len ≤ y.1 :=
  (place_pairwise p bs).sublist List.filter_sublist

/-! ### The ends of the tiles -/

/-- The addresses of the tiles, and the end of the last. -/
def ends (p : ℕ) (bs : List (Tile α)) : List ℕ := (place p bs).map Prod.fst ++ [p + total bs]

@[simp] theorem ends_cons (p : ℕ) (b : Tile α) (bs : List (Tile α)) : ends p (b :: bs) = p :: ends (p + b.len) bs := by
  simp [ends, place, total, Nat.add_assoc]

theorem ends_append (p : ℕ) (xs ys : List (Tile α)) :
    ends p (xs ++ ys) = (place p xs).map Prod.fst ++ ends (p + total xs) ys := by
  simp [ends, Nat.add_assoc]

theorem exists_ends_eq_cons (p : ℕ) (bs : List (Tile α)) : ∃ l, ends p bs = p :: l := by
  cases bs with
  | nil => exact ⟨[], rfl⟩
  | cons b bs => exact ⟨_, ends_cons p b bs⟩

theorem mem_ends {p q : ℕ} {bs : List (Tile α)} (h : q ∈ ends p bs) : p ≤ q ∧ q ≤ p + total bs := by
  rcases List.mem_append.mp h with hq | hq
  · obtain ⟨x, hx, rfl⟩ := List.mem_map.mp hq
    have := mem_place hx
    omega
  · rw [List.mem_singleton.mp hq]
    omega

theorem ends_pairwise {bs : List (Tile α)} (hpos : ∀ b ∈ bs, 0 < b.len) (p : ℕ) : (ends p bs).Pairwise (· < ·) := by
  induction bs generalizing p with
  | nil => exact List.pairwise_singleton _ _
  | cons b bs ih =>
    rw [ends_cons]
    refine List.pairwise_cons.mpr ⟨fun q hq => ?_, ih (fun c hc => hpos c (List.mem_cons_of_mem b hc)) _⟩
    have := (mem_ends hq).1
    have := hpos b List.mem_cons_self
    omega

/-- No tile begins or ends within another. -/
theorem ends_apart {p q c : ℕ} {b : Tile α} {bs : List (Tile α)} (h : (q, b) ∈ place p bs) (hc : c ∈ ends p bs) :
    c ≤ q ∨ q + b.len ≤ c := by
  rcases List.mem_append.mp hc with hc | hc
  · obtain ⟨⟨c, b'⟩, hx, rfl⟩ := List.mem_map.mp hc
    by_cases hne : q = c
    · exact Or.inl hne.ge
    · have := place_disjoint h hx hne
      omega
  · rw [List.mem_singleton.mp hc]
    exact Or.inr (mem_place h).2

theorem not_mem_ends_of_lt {bs : List (Tile α)} {p q : ℕ} (h : q < p) : q ∉ ends p bs :=
  fun hq => absurd (mem_ends hq).1 (not_le.mpr h)

theorem not_mem_place_of_le {bs : List (Tile α)} (hpos : ∀ b ∈ bs, 0 < b.len) {p q : ℕ} (h : p + total bs ≤ q) :
    q ∉ (place p bs).map Prod.fst := by
  intro hq
  obtain ⟨x, hx, rfl⟩ := List.mem_map.mp hq
  obtain ⟨xs, ys, rfl, -⟩ := exists_append_of_mem_place hx
  have := hpos x.2 (by simp)
  have := (mem_place hx).2
  omega

/-! ### Vacant tiles and labels -/

def vacant (p : ℕ) (bs : List (Tile α)) : List ℕ :=
  ((place p bs).filter fun x => x.2.label.isNone).map Prod.fst

@[simp] theorem vacant_append (p : ℕ) (bs cs : List (Tile α)) :
    vacant p (bs ++ cs) = vacant p bs ++ vacant (p + total bs) cs := by
  simp only [vacant, place_append, List.filter_append, List.map_append]

@[simp] theorem vacant_nil (p : ℕ) : vacant p ([] : List (Tile α)) = [] := rfl

theorem vacant_cons_of_some {p : ℕ} {b : Tile α} (bs : List (Tile α)) (h : b.label.isSome = true) :
    vacant p (b :: bs) = vacant (p + b.len) bs := by
  cases hb : b.label with
  | none => simp [hb] at h
  | some x => simp [vacant, place, hb]

theorem vacant_cons_of_none {p : ℕ} {b : Tile α} (bs : List (Tile α)) (h : b.label = none) :
    vacant p (b :: bs) = p :: vacant (p + b.len) bs := by
  simp [vacant, place, h]

theorem mem_vacant {p q : ℕ} {bs : List (Tile α)} (h : q ∈ vacant p bs) :
    ∃ xs b ys, bs = xs ++ b :: ys ∧ q = p + total xs ∧ b.label = none := by
  obtain ⟨⟨q, b⟩, hx, rfl⟩ := List.mem_map.mp h
  obtain ⟨hplace, hlabel⟩ := List.mem_filter.mp hx
  obtain ⟨xs, ys, hbs, hq⟩ := exists_append_of_mem_place hplace
  exact ⟨xs, b, ys, hbs, hq, Option.isNone_iff_eq_none.mp hlabel⟩

theorem vacant_subset_place (p : ℕ) (bs : List (Tile α)) : vacant p bs ⊆ (place p bs).map Prod.fst :=
  List.map_subset _ (List.filter_subset_self _)

theorem vacant_nodup {bs : List (Tile α)} (hpos : ∀ b ∈ bs, 0 < b.len) (p : ℕ) : (vacant p bs).Nodup := by
  have hends : (ends p bs).Nodup := (ends_pairwise hpos p).imp fun h => Nat.ne_of_lt h
  exact (List.filter_sublist.map Prod.fst).nodup (List.nodup_append.mp hends).1

/-! ### A tile among the others -/

theorem total_middle (xs : List (Tile α)) (b : Tile α) (ys : List (Tile α)) :
    total (xs ++ b :: ys) = total xs + b.len + total ys := by
  rw [total_append, total, Nat.add_assoc]

theorem place_middle (p : ℕ) (xs : List (Tile α)) (b : Tile α) (ys : List (Tile α)) : place p (xs ++ b :: ys) =
    place p xs ++ (p + total xs, b) :: place (p + total xs + b.len) ys := by
  rw [place_append, place]

theorem ends_middle (p : ℕ) (xs : List (Tile α)) (b : Tile α) (ys : List (Tile α)) : ends p (xs ++ b :: ys) =
    (place p xs).map Prod.fst ++ (p + total xs) :: ends (p + total xs + b.len) ys := by
  rw [ends_append, ends_cons]

/-- The label of the tile that begins at an address. -/
def labelAt : ℕ → List (Tile α) → ℕ → Option α
  | _, [], _ => none
  | p, b :: bs, q => if q = p then b.label else labelAt (p + b.len) bs q

theorem labelAt_of_lt {p q : ℕ} (bs : List (Tile α)) (h : q < p) : labelAt p bs q = none := by
  induction bs generalizing p with
  | nil => rfl
  | cons b bs ih =>
    rw [labelAt, if_neg (by omega)]
    exact ih (by omega)

theorem labelAt_append_of_lt {xs : List (Tile α)} (ys : List (Tile α)) {p q : ℕ} (h : q < p + total xs) :
    labelAt p (xs ++ ys) q = labelAt p xs q := by
  induction xs generalizing p with
  | nil => exact labelAt_of_lt ys (by simpa [total] using h)
  | cons b xs ih =>
    simp only [List.cons_append, labelAt]
    split
    · rfl
    · exact ih (by rw [total] at h; omega)

theorem labelAt_append_of_le {xs : List (Tile α)} (hpos : ∀ b ∈ xs, 0 < b.len) (ys : List (Tile α)) {p q : ℕ}
    (h : p + total xs ≤ q) : labelAt p (xs ++ ys) q = labelAt (p + total xs) ys q := by
  induction xs generalizing p with
  | nil => rfl
  | cons b xs ih =>
    have hb := hpos b List.mem_cons_self
    rw [total] at h
    rw [List.cons_append, labelAt, if_neg (by omega), ih (fun c hc => hpos c (List.mem_cons_of_mem b hc)) (by omega),
      total, Nat.add_assoc]

/-- The tiles from an address on are replaced by others with the same labels but for one. -/
theorem labelAt_replace {xs ys ys' : List (Tile α)} (hpos : ∀ b ∈ xs, 0 < b.len) {p r : ℕ} {l : Option α}
    (hr : p + total xs ≤ r) (h : ∀ q, p + total xs ≤ q → labelAt (p + total xs) ys' q =
      Function.update (labelAt (p + total xs) ys) r l q) :
    labelAt p (xs ++ ys') = Function.update (labelAt p (xs ++ ys)) r l := by
  funext q
  by_cases hq : q < p + total xs
  · rw [Function.update_of_ne (by omega), labelAt_append_of_lt ys' hq, labelAt_append_of_lt ys hq]
  · rw [labelAt_append_of_le hpos ys' (by omega), h q (by omega)]
    by_cases hqr : q = r
    · rw [hqr, Function.update_self, Function.update_self]
    · rw [Function.update_of_ne hqr, Function.update_of_ne hqr, labelAt_append_of_le hpos ys (by omega)]

theorem labelAt_eq_some {p q : ℕ} {bs : List (Tile α)} {x : α} (h : labelAt p bs q = some x) :
    ∃ xs b ys, bs = xs ++ b :: ys ∧ q = p + total xs ∧ b.label = some x := by
  induction bs generalizing p with
  | nil => cases h
  | cons b bs ih =>
    rw [labelAt] at h
    split at h
    · rename_i hq
      exact ⟨[], b, bs, rfl, by rw [hq, total, Nat.add_zero], h⟩
    · obtain ⟨xs, c, ys, rfl, hq, hc⟩ := ih h
      exact ⟨b :: xs, c, ys, rfl, by rw [hq, total, Nat.add_assoc], hc⟩

theorem labelAt_middle {xs : List (Tile α)} (hpos : ∀ b ∈ xs, 0 < b.len) (b : Tile α) (ys : List (Tile α)) (p : ℕ) :
    labelAt p (xs ++ b :: ys) (p + total xs) = b.label := by
  rw [labelAt_append_of_le hpos _ le_rfl, labelAt, if_pos rfl]

/-! ### Compact tilings -/

theorem compact_append_cons {xs ys : List (Tile α)} {b : Tile α} :
    Compact (xs ++ b :: ys) ↔ Compact xs ∧ Compact ys ∧
      (∀ a ∈ xs.getLast?, a.label.isSome = true ∨ b.label.isSome = true) ∧
      ∀ c ∈ ys.head?, b.label.isSome = true ∨ c.label.isSome = true := by
  unfold Compact
  rw [List.isChain_append, List.isChain_cons]
  simp only [List.head?_cons, Option.mem_some_iff, forall_eq']
  tauto

/-- Of two neighbouring addresses one is in use, when the tiles with labels are. -/
theorem Compact.place_chain {bs : List (Tile α)} (hc : Compact bs) {p : ℕ} {U : ℕ → Prop}
    (hU : ∀ x ∈ place p bs, x.2.label.isSome = true → U x.1) :
    ((place p bs).map Prod.fst).IsChain fun x y => U x ∨ U y := by
  rw [← map_snd_place p bs, Compact, List.isChain_map] at hc
  rw [List.isChain_map]
  exact hc.imp_of_mem_imp fun x y hx hy hxy => hxy.imp (hU x hx) (hU y hy)

end RtThread.Lib.Tiling
