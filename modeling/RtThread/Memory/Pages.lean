import RtThread.Lib.Runs
import RtThread.Lib.Transition

/-!
# The page allocator of the slab heap (`slab.c`)

A `struct rt_page_head` fills a page, so a pointer to one is the number of its page, and `RT_NULL`
is `none`. The free pages are in runs; the first page of a run says how many pages it has and where
the next run is. The loops walk with `prev`, the place of the link they have come from: `none` is
`rt_page_list`, and `some b` the `next` of the page `b`. A function without a result stands for a
failed assertion, or for a loop that has not ended within its fuel.
-/

namespace RtThread.Memory.Pages

open RtThread.Lib.Runs RtThread.Lib.Transition

structure PageHead where
  next : Option ℕ
  page : ℕ
  deriving DecidableEq

/-- `heap_start` and `heap_end` as page numbers, `rt_page_list`, and the heads in the pages. -/
structure PageHeap where
  heapStart : ℕ
  heapEnd : ℕ
  pageList : Option ℕ
  mem : ℕ → PageHead

/-- `*prev`. -/
def PageHeap.link (s : PageHeap) (prev : Option ℕ) : Option ℕ :=
  match prev with
  | none => s.pageList
  | some b => (s.mem b).next

/-- `*prev = x`. -/
def PageHeap.setLink (s : PageHeap) (prev x : Option ℕ) : PageHeap :=
  match prev with
  | none => { s with pageList := x }
  | some b => { s with mem := Function.update s.mem b { s.mem b with next := x } }

def PageHeap.set (s : PageHeap) (p : ℕ) (h : PageHead) : PageHeap := { s with mem := Function.update s.mem p h }

/-- The loops have at most one pass for each page. -/
def PageHeap.fuel (s : PageHeap) : ℕ := s.heapEnd - s.heapStart + 1

/-- The loop of `rt_page_alloc` (`slab.c:247-265`), with the page it ends on. -/
def allocLoop (s : PageHeap) (npages : ℕ) : ℕ → Option ℕ → Option (Option ℕ × PageHeap)
  | 0, _ => none
  | fuel + 1, prev =>
    match s.link prev with
    | none => some (none, s)
    | some b =>
      if npages < (s.mem b).page then
        let n := b + npages
        some (some b, (s.set n ⟨(s.mem b).next, (s.mem b).page - npages⟩).setLink prev (some n))
      else if (s.mem b).page = npages then some (some b, s.setLink prev (s.mem b).next)
      else allocLoop s npages fuel (some b)

/-- `rt_page_alloc` (`slab.c:236-271`). -/
def rtPageAlloc (s : PageHeap) (npages : ℕ) : Option (Option ℕ × PageHeap) :=
  if npages = 0 then some (none, s) else allocLoop s npages s.fuel none

/-- The run at `n` follows the run at `b`, and the next run may follow it (`slab.c:293-301`). -/
def joinBehind (s : PageHeap) (b npages : ℕ) : PageHeap :=
  let s := s.set b { s.mem b with page := (s.mem b).page + npages }
  match (s.mem b).next with
  | none => s
  | some c =>
    if b + (s.mem b).page = c then s.set b ⟨(s.mem c).next, (s.mem b).page + (s.mem c).page⟩ else s

/-- The loop of `rt_page_free` (`slab.c:288-321`) with its two ways out. -/
def freeLoop (s : PageHeap) (n npages : ℕ) : ℕ → Option ℕ → Option PageHeap
  | 0, _ => none
  | fuel + 1, prev =>
    match s.link prev with
    | none => some ((s.set n ⟨none, npages⟩).setLink prev (some n))
    | some b =>
      if 0 < (s.mem b).page ∧ (n < b ∨ b + (s.mem b).page ≤ n) then
        if b + (s.mem b).page = n then some (joinBehind s b npages)
        else if b = n + npages then
          some ((s.set n ⟨(s.mem b).next, (s.mem b).page + npages⟩).setLink prev (some n))
        else if n + npages < b then some ((s.set n ⟨some b, npages⟩).setLink prev (some n))
        else freeLoop s n npages fuel (some b)
      else none

/-- `rt_page_free` (`slab.c:273-325`). -/
def rtPageFree (s : PageHeap) (n npages : ℕ) : Option PageHeap :=
  if npages ≠ 0 then freeLoop s n npages s.fuel none else none

/-- `rt_page_init` (`slab.c:330-337`), on the pages of the heap. -/
def rtPageInit (mem : ℕ → PageHead) (heapStart npages : ℕ) : Option PageHeap :=
  rtPageFree ⟨heapStart, heapStart + npages, none, mem⟩ heapStart npages

/-! ### The list -/

/-- Following the links from `p` visits the runs, and ends with a null link. -/
def Chained (mem : ℕ → PageHead) : Option ℕ → List (ℕ × ℕ) → Prop
  | p, [] => p = none
  | p, r :: rs => p = some r.1 ∧ (mem r.1).page = r.2 ∧ Chained mem (mem r.1).next rs

theorem Chained.congr {mem mem' : ℕ → PageHead} {rs : List (ℕ × ℕ)} (hmem : ∀ r ∈ rs, mem' r.1 = mem r.1) :
    ∀ {p : Option ℕ}, Chained mem p rs → Chained mem' p rs := by
  induction rs with
  | nil => exact id
  | cons r rs ih =>
    rintro p ⟨hp, hpage, hrest⟩
    refine ⟨hp, ?_, ?_⟩
    · rw [hmem r List.mem_cons_self]
      exact hpage
    · rw [hmem r List.mem_cons_self]
      exact ih (fun a ha => hmem a (List.mem_cons_of_mem r ha)) hrest

/-- The place of the link that comes behind the runs `xs`. -/
def behind (xs : List (ℕ × ℕ)) : Option ℕ := xs.getLast?.map Prod.fst

theorem behind_append_singleton (xs : List (ℕ × ℕ)) (r : ℕ × ℕ) : behind (xs ++ [r]) = some r.1 := by
  simp [behind]

theorem chained_link {s : PageHeap} {xs ys : List (ℕ × ℕ)} (h : Chained s.mem s.pageList (xs ++ ys)) :
    Chained s.mem (s.link (behind xs)) ys := by
  have hwalk : ∀ (xs : List (ℕ × ℕ)) (p : Option ℕ), Chained s.mem p (xs ++ ys) → xs ≠ [] →
      Chained s.mem (s.link (behind xs)) ys := by
    intro xs
    induction xs with
    | nil => exact fun p _ hne => absurd rfl hne
    | cons r xs ih =>
      rintro p ⟨hp, hpage, hrest⟩ -
      cases xs with
      | nil => exact hrest
      | cons r' xs =>
        have := ih _ hrest (List.cons_ne_nil r' xs)
        rwa [behind, List.getLast?_cons_cons]
  cases xs with
  | nil => exact h
  | cons r xs => exact hwalk _ _ h (List.cons_ne_nil r xs)

/-- The runs behind `xs` are replaced by those that begin at `x`; the pages of `xs` are as before. -/
theorem chained_setLink {s : PageHeap} {mem : ℕ → PageHead} {xs ys zs : List (ℕ × ℕ)} {x : Option ℕ}
    (h : Chained mem s.pageList (xs ++ ys)) (hmem : ∀ a ∈ xs, s.mem a.1 = mem a.1)
    (hz : Chained s.mem x zs) (hnodup : ((xs ++ zs).map Prod.fst).Nodup) :
    Chained (s.setLink (behind xs) x).mem (s.setLink (behind xs) x).pageList (xs ++ zs) := by
  rcases List.eq_nil_or_concat xs with rfl | ⟨xs, r, rfl⟩
  · exact hz
  · rw [List.concat_eq_append] at *
    rw [behind_append_singleton]
    rw [List.append_assoc, List.map_append, List.map_append, List.nodup_append] at hnodup
    obtain ⟨-, hrz, hcross⟩ := hnodup
    have hr : ∀ a ∈ xs, a.1 ≠ r.1 := fun a ha => hcross a.1 (List.mem_map_of_mem ha) r.1 (by simp)
    have hrz : ∀ b ∈ zs, b.1 ≠ r.1 := fun b hb he => (List.nodup_cons.mp hrz).1 (he ▸ List.mem_map_of_mem hb)
    -- the walk over `xs` reaches `r`, whose link is the one that is set
    have hwalk : ∀ (xs : List (ℕ × ℕ)) (p : Option ℕ), (∀ a ∈ xs, a.1 ≠ r.1) → (∀ a ∈ xs ++ [r], s.mem a.1 = mem a.1) →
        Chained mem p (xs ++ [r] ++ ys) →
        Chained (Function.update s.mem r.1 { s.mem r.1 with next := x }) p (xs ++ [r] ++ zs) := by
      intro xs
      induction xs with
      | nil =>
        rintro p - hmem ⟨hp, hpage, -⟩
        refine ⟨hp, ?_, ?_⟩
        · rw [Function.update_self, hmem r (by simp)]
          exact hpage
        · rw [Function.update_self]
          exact hz.congr fun b hb => Function.update_of_ne (hrz b hb) _ _
      | cons a xs ih =>
        rintro p hne hmem ⟨hp, hpage, hrest⟩
        have ha : a.1 ≠ r.1 := hne a List.mem_cons_self
        have hma := hmem a (by simp)
        refine ⟨hp, ?_, ?_⟩
        · rw [Function.update_of_ne ha, hma]
          exact hpage
        · rw [Function.update_of_ne ha, hma]
          exact ih _ (fun b hb => hne b (List.mem_cons_of_mem a hb)) (fun b hb => hmem b (List.mem_cons_of_mem a hb)) hrest
    exact hwalk xs _ hr hmem h

/-- The list holds the runs `rs` of pages of the heap, which are separated. -/
structure Listed (s : PageHeap) (rs : List (ℕ × ℕ)) : Prop where
  chained : Chained s.mem s.pageList rs
  separated : Separated rs
  within : ∀ r ∈ rs, s.heapStart ≤ r.1 ∧ r.1 + r.2 ≤ s.heapEnd

theorem Listed.length_lt_fuel {s : PageHeap} {rs : List (ℕ × ℕ)} (h : Listed s rs) : rs.length < s.fuel := by
  have hsub : points rs ⊆ List.range' s.heapStart (s.heapEnd - s.heapStart) := by
    intro p hp
    obtain ⟨r, hr, hle, hlt⟩ := mem_points.mp hp
    have := h.within r hr
    exact List.mem_range'_1.mpr (by omega)
  have hpoints := (List.subperm_of_subset h.separated.nodup_points hsub).length_le
  have hlen : ∀ l : List (ℕ × ℕ), (∀ r ∈ l, 0 < r.2) → l.length ≤ (points l).length := by
    intro l
    induction l with
    | nil => exact fun _ => le_rfl
    | cons r l ih =>
      intro hpos
      have hr := hpos r List.mem_cons_self
      have hl := ih fun a ha => hpos a (List.mem_cons_of_mem r ha)
      rw [points_cons, List.length_append, List.length_range', List.length_cons]
      omega
  rw [List.length_range'] at hpoints
  exact Nat.lt_succ_of_le (le_trans (hlen rs h.separated.pos) hpoints)

theorem separated_starts_nodup {rs : List (ℕ × ℕ)} (h : Separated rs) : (rs.map Prod.fst).Nodup := by
  refine List.pairwise_map.mpr (h.gap.imp fun hab => ?_)
  omega

@[simp] theorem setLink_bounds (s : PageHeap) (prev x : Option ℕ) :
    (s.setLink prev x).heapStart = s.heapStart ∧ (s.setLink prev x).heapEnd = s.heapEnd := by
  cases prev <;> exact ⟨rfl, rfl⟩

theorem Listed.relink {s t : PageHeap} {xs ys zs : List (ℕ × ℕ)} {x : Option ℕ} (h : Listed s (xs ++ ys))
    (hbounds : t.heapStart = s.heapStart ∧ t.heapEnd = s.heapEnd) (hlist : t.pageList = s.pageList)
    (hmem : ∀ a ∈ xs, t.mem a.1 = s.mem a.1) (hz : Chained t.mem x zs) (hsep : Separated (xs ++ zs))
    (hwithin : ∀ r ∈ zs, s.heapStart ≤ r.1 ∧ r.1 + r.2 ≤ s.heapEnd) :
    Listed (t.setLink (behind xs) x) (xs ++ zs) := by
  refine ⟨chained_setLink (hlist ▸ h.chained) hmem hz (separated_starts_nodup hsep), hsep, fun r hr => ?_⟩
  rw [(setLink_bounds t _ _).1, (setLink_bounds t _ _).2, hbounds.1, hbounds.2]
  rcases List.mem_append.mp hr with hr | hr
  · exact h.within r (List.mem_append_left _ hr)
  · exact hwithin r hr

/-! ### Allocation -/

theorem allocLoop_spec {s : PageHeap} {npages : ℕ} (fuel : ℕ) (ys : List (ℕ × ℕ)) {xs : List (ℕ × ℕ)}
    (h : Chained s.mem s.pageList (xs ++ ys)) (hfuel : ys.length < fuel) :
    (allocLoop s npages fuel (behind xs) = some (none, s) ∧ ∀ r ∈ ys, r.2 < npages) ∨
    ∃ us r vs, ys = us ++ r :: vs ∧ npages ≤ r.2 ∧ allocLoop s npages fuel (behind xs) = some (some r.1,
      if npages < r.2 then (s.set (r.1 + npages) ⟨(s.mem r.1).next, r.2 - npages⟩).setLink (behind (xs ++ us))
        (some (r.1 + npages))
      else s.setLink (behind (xs ++ us)) (s.mem r.1).next) := by
  induction ys generalizing xs fuel with
  | nil =>
    have hlink : s.link (behind xs) = none := chained_link h
    obtain ⟨fuel, rfl⟩ := Nat.exists_eq_succ_of_ne_zero (Nat.ne_of_gt (Nat.lt_of_le_of_lt (Nat.zero_le _) hfuel))
    refine Or.inl ⟨?_, fun r hr => absurd hr List.not_mem_nil⟩
    simp only [allocLoop, hlink]
  | cons r ys ih =>
    obtain ⟨fuel, rfl⟩ := Nat.exists_eq_succ_of_ne_zero (Nat.ne_of_gt (Nat.lt_of_le_of_lt (Nat.zero_le _) hfuel))
    obtain ⟨hlink, hpage, -⟩ := chained_link h
    simp only [allocLoop, hlink, hpage]
    by_cases hlt : npages < r.2
    · exact Or.inr ⟨[], r, ys, rfl, hlt.le, by simp [hlt]⟩
    · by_cases heq : r.2 = npages
      · exact Or.inr ⟨[], r, ys, rfl, heq.ge, by simp [heq]⟩
      · rw [if_neg hlt, if_neg heq]
        rw [List.append_cons] at h
        have hrest := ih fuel h (Nat.lt_of_succ_lt_succ hfuel)
        rw [behind_append_singleton] at hrest
        rcases hrest with ⟨hnone, hall⟩ | ⟨us, r', vs, rfl, hle, hsome⟩
        · refine Or.inl ⟨hnone, fun a ha => ?_⟩
          rcases List.mem_cons.mp ha with rfl | ha
          · omega
          · exact hall a ha
        · exact Or.inr ⟨r :: us, r', vs, rfl, hle, by simpa using hsome⟩

theorem Listed.head {s : PageHeap} {xs ys : List (ℕ × ℕ)} {r : ℕ × ℕ} (h : Listed s (xs ++ r :: ys)) :
    s.link (behind xs) = some r.1 ∧ (s.mem r.1).page = r.2 ∧ Chained s.mem (s.mem r.1).next ys :=
  chained_link h.chained

theorem Listed.remove {s : PageHeap} {xs ys : List (ℕ × ℕ)} {r : ℕ × ℕ} (h : Listed s (xs ++ r :: ys)) :
    Listed (s.setLink (behind xs) (s.mem r.1).next) (xs ++ ys) := by
  have hsub : List.Sublist (xs ++ ys) (xs ++ r :: ys) := (List.Sublist.refl xs).append (List.sublist_cons_self r ys)
  have hsep : Separated (xs ++ ys) := ⟨fun a ha => h.separated.pos a (hsub.subset ha), h.separated.gap.sublist hsub⟩
  exact h.relink ⟨rfl, rfl⟩ rfl (fun a _ => rfl) h.head.2.2 hsep fun b hb => h.within b (by simp [hb])

/-- A head is written for a run that then stands between the runs `xs` and `ys`, in the place of
what was there before. -/
theorem Listed.place {s : PageHeap} {xs ys zs : List (ℕ × ℕ)} {n npages : ℕ} {next : Option ℕ} (h : Listed s (xs ++ zs))
    (hnext : Chained s.mem next ys) (hys : ∀ b ∈ ys, b ∈ zs) (hsep : Separated (xs ++ (n, npages) :: ys))
    (hwithin : s.heapStart ≤ n ∧ n + npages ≤ s.heapEnd) :
    Listed ((s.set n ⟨next, npages⟩).setLink (behind xs) (some n)) (xs ++ (n, npages) :: ys) := by
  obtain ⟨-, -, hpos, hbefore, hafter⟩ := separated_middle.mp hsep
  simp only at hpos hbefore hafter
  have hself : (s.set n ⟨next, npages⟩).mem n = ⟨next, npages⟩ := Function.update_self ..
  refine h.relink ⟨rfl, rfl⟩ rfl (fun a ha => ?_) ⟨rfl, ?_, ?_⟩ hsep fun b hb => ?_
  · have := hbefore a ha
    exact Function.update_of_ne (by omega) _ _
  · rw [hself]
  · rw [hself]
    refine hnext.congr fun b hb => Function.update_of_ne ?_ _ _
    have := hafter b hb
    omega
  · rcases List.mem_cons.mp hb with rfl | hb
    · exact hwithin
    · exact h.within b (List.mem_append_right _ (hys b hb))

theorem Listed.split {s : PageHeap} {xs ys : List (ℕ × ℕ)} {r : ℕ × ℕ} {npages : ℕ} (h : Listed s (xs ++ r :: ys))
    (hn : 0 < npages) (hlt : npages < r.2) :
    Listed ((s.set (r.1 + npages) ⟨(s.mem r.1).next, r.2 - npages⟩).setLink (behind xs) (some (r.1 + npages)))
      (xs ++ (r.1 + npages, r.2 - npages) :: ys) := by
  obtain ⟨hxs, hys, hpos, hbefore, hafter⟩ := separated_middle.mp h.separated
  obtain ⟨hstart, hend⟩ := h.within r (by simp)
  refine h.place h.head.2.2 (fun b hb => List.mem_cons_of_mem r hb) ?_ (by omega)
  refine separated_middle.mpr ⟨hxs, hys, Nat.sub_pos_of_lt hlt, fun a ha => ?_, fun b hb => ?_⟩
  · have := hbefore a ha
    simp only
    omega
  · have := hafter b hb
    simp only
    omega

/-- `rt_page_alloc` takes the first pages of the first run that has enough, or finds none. -/
theorem Listed.alloc {s : PageHeap} {rs : List (ℕ × ℕ)} (h : Listed s rs) {npages : ℕ} (hn : 0 < npages) :
    (rtPageAlloc s npages = some (none, s) ∧ ∀ r ∈ rs, r.2 < npages) ∨
    ∃ b t rs', rtPageAlloc s npages = some (some b, t) ∧ Listed t rs' ∧
      (t.heapStart = s.heapStart ∧ t.heapEnd = s.heapEnd) ∧
      (points rs).Perm (List.range' b npages ++ points rs') := by
  have hloop : rtPageAlloc s npages = allocLoop s npages s.fuel none := if_neg hn.ne'
  rw [hloop]
  rcases @allocLoop_spec s npages s.fuel rs [] h.chained h.length_lt_fuel with ⟨hnone, hall⟩ | ⟨us, r, vs, rfl, hle, hsome⟩
  · exact Or.inl ⟨hnone, hall⟩
  · rw [List.nil_append] at hsome
    refine Or.inr ?_
    by_cases hlt : npages < r.2
    · rw [if_pos hlt] at hsome
      refine ⟨r.1, _, _, hsome, h.split hn hlt, setLink_bounds _ _ _, ?_⟩
      have hrange : List.range' r.1 r.2 = List.range' r.1 npages ++ List.range' (r.1 + npages) (r.2 - npages) := by
        rw [List.range'_append_1, Nat.add_sub_cancel' hle]
      rw [points_append, points_cons, points_append, points_cons, hrange, List.append_assoc]
      exact List.perm_append_comm_assoc _ _ _
    · rw [if_neg hlt] at hsome
      have heq : npages = r.2 := by omega
      refine ⟨r.1, _, _, hsome, h.remove, setLink_bounds _ _ _, ?_⟩
      rw [points_append, points_cons, points_append, heq]
      exact List.perm_append_comm_assoc _ _ _

/-! ### Release -/

theorem setLink_link {s : PageHeap} (prev : Option ℕ) : s.setLink prev (s.link prev) = s := by
  cases prev with
  | none => rfl
  | some b => simp [PageHeap.setLink, PageHeap.link]

theorem Listed.rewrite {s : PageHeap} {xs ys zs : List (ℕ × ℕ)} {r : ℕ × ℕ} {npages : ℕ} {next : Option ℕ}
    (h : Listed s (xs ++ r :: zs)) (hnext : Chained s.mem next ys) (hys : ∀ b ∈ ys, b ∈ zs)
    (hsep : Separated (xs ++ (r.1, npages) :: ys)) (hend : r.1 + npages ≤ s.heapEnd) :
    Listed (s.set r.1 ⟨next, npages⟩) (xs ++ (r.1, npages) :: ys) := by
  have hplace := h.place hnext (fun b hb => List.mem_cons_of_mem r (hys b hb)) hsep ⟨(h.within r (by simp)).1, hend⟩
  have hlink : (s.set r.1 ⟨next, npages⟩).link (behind xs) = some r.1 := by
    have hxs := (separated_middle.mp h.separated).2.2.2.1
    rw [← h.head.1]
    rcases List.eq_nil_or_concat xs with rfl | ⟨xs, a, rfl⟩
    · rfl
    · rw [List.concat_eq_append, behind_append_singleton]
      have ha : a.1 ≠ r.1 := by
        have := hxs a (by simp)
        omega
      simp only [PageHeap.link, PageHeap.set, Function.update_of_ne ha]
  rw [← hlink, setLink_link] at hplace
  exact hplace

/-- What a release of the pages from `n` on finds: they are pages of the heap, and not in a run. -/
structure Absent (s : PageHeap) (rs : List (ℕ × ℕ)) (n npages : ℕ) : Prop where
  pos : 0 < npages
  within : s.heapStart ≤ n ∧ n + npages ≤ s.heapEnd
  apart : ∀ r ∈ rs, r.1 + r.2 ≤ n ∨ n + npages ≤ r.1

theorem Listed.joinBehind {s : PageHeap} {xs ys : List (ℕ × ℕ)} {r : ℕ × ℕ} {n npages : ℕ} (h : Listed s (xs ++ r :: ys))
    (habs : Absent s (xs ++ r :: ys) n npages) (hn : r.1 + r.2 = n) :
    ∃ rs, Listed (joinBehind s r.1 npages) rs ∧ (points rs).Perm (List.range' n npages ++ points (xs ++ r :: ys)) := by
  obtain ⟨hxs, hys, hpos, hbefore, hafter⟩ := separated_middle.mp h.separated
  obtain ⟨-, hpage, hnext⟩ := h.head
  have hself : ∀ head, (s.set r.1 head).mem r.1 = head := fun head => Function.update_self ..
  have hjoin : List.range' r.1 (r.2 + npages) = List.range' r.1 r.2 ++ List.range' n npages := by
    rw [← hn, List.range'_append_1]
  have hgrown : (∀ b ∈ ys, n + npages < b.1) → ∃ rs, Listed (s.set r.1 ⟨(s.mem r.1).next, r.2 + npages⟩) rs ∧
      (points rs).Perm (List.range' n npages ++ points (xs ++ r :: ys)) := by
    intro hgap
    refine ⟨_, h.rewrite hnext (fun b hb => hb) ?_ (by have := habs.within; omega), ?_⟩
    · refine separated_middle.mpr ⟨hxs, hys, by simp only; omega, hbefore, fun b hb => ?_⟩
      have := hgap b hb
      simp only
      omega
    · refine List.perm_iff_count.mpr fun a => ?_
      simp only [points_append, points_cons, hjoin, List.count_append]
      omega
  simp only [Pages.joinBehind, hself, hpage]
  cases ys with
  | nil =>
    rw [show (s.mem r.1).next = none from hnext] at hgrown ⊢
    exact hgrown fun b hb => absurd hb List.not_mem_nil
  | cons c ys =>
    obtain ⟨hc, hcpage, hcnext⟩ := hnext
    rw [hc] at hgrown ⊢
    simp only
    have hcr := hafter c List.mem_cons_self
    have hother : (s.set r.1 ⟨some c.1, r.2 + npages⟩).mem c.1 = s.mem c.1 := Function.update_of_ne (by omega) _ _
    have hcy : ∀ b ∈ ys, c.1 + c.2 < b.1 := (List.pairwise_cons.mp hys.gap).1
    by_cases htouch : r.1 + (r.2 + npages) = c.1
    · have htwice : ∀ head head', (s.set r.1 head).set r.1 head' = s.set r.1 head' := by
        intro head head'
        simp only [PageHeap.set, Function.update_idem]
      rw [if_pos htouch, hother, htwice, hcpage]
      have hcend := (h.within c (by simp)).2
      refine ⟨_, h.rewrite hcnext (fun b hb => List.mem_cons_of_mem c hb) ?_ (by omega), ?_⟩
      · refine separated_middle.mpr ⟨hxs, hys.tail, by simp only; omega, hbefore,
          fun b hb => ?_⟩
        have := hcy b hb
        simp only
        omega
      · have hjoin' : List.range' r.1 (r.2 + npages + c.2) = List.range' r.1 (r.2 + npages) ++ List.range' c.1 c.2 := by
          rw [← htouch, List.range'_append_1]
        refine List.perm_iff_count.mpr fun a => ?_
        simp only [points_append, points_cons, hjoin', hjoin, List.count_append]
        omega
    · rw [if_neg htouch]
      have hc' := habs.apart c (by simp)
      refine hgrown fun b hb => ?_
      rcases List.mem_cons.mp hb with rfl | hb
      · omega
      · have := hcy b hb
        omega

theorem joinBehind_bounds (s : PageHeap) (b npages : ℕ) : (joinBehind s b npages).heapStart = s.heapStart ∧
    (joinBehind s b npages).heapEnd = s.heapEnd := by
  unfold joinBehind
  simp only
  split
  · exact ⟨rfl, rfl⟩
  · split <;> exact ⟨rfl, rfl⟩

theorem freeLoop_spec {s : PageHeap} {n npages : ℕ} (fuel : ℕ) (ys : List (ℕ × ℕ)) {xs : List (ℕ × ℕ)}
    (h : Listed s (xs ++ ys)) (habs : Absent s (xs ++ ys) n npages) (hbefore : ∀ a ∈ xs, a.1 + a.2 < n)
    (hfuel : ys.length < fuel) :
    ∃ t rs, freeLoop s n npages fuel (behind xs) = some t ∧ Listed t rs ∧
      (t.heapStart = s.heapStart ∧ t.heapEnd = s.heapEnd) ∧
      (points rs).Perm (List.range' n npages ++ points (xs ++ ys)) := by
  induction ys generalizing xs fuel with
  | nil =>
    obtain ⟨fuel, rfl⟩ := Nat.exists_eq_succ_of_ne_zero (Nat.ne_of_gt (Nat.lt_of_le_of_lt (Nat.zero_le _) hfuel))
    have hlink : s.link (behind xs) = none := chained_link h.chained
    simp only [freeLoop, hlink]
    refine ⟨_, xs ++ [(n, npages)], rfl, h.place rfl (fun b hb => hb) ?_ habs.within, setLink_bounds _ _ _, ?_⟩
    · refine separated_middle.mpr ⟨?_, separated_nil, habs.pos, hbefore, fun b hb => absurd hb List.not_mem_nil⟩
      have := h.separated
      rwa [List.append_nil] at this
    · rw [points_append, points_cons, List.append_nil]
      exact List.perm_append_comm.trans (by simp [points])
  | cons r ys ih =>
    obtain ⟨fuel, rfl⟩ := Nat.exists_eq_succ_of_ne_zero (Nat.ne_of_gt (Nat.lt_of_le_of_lt (Nat.zero_le _) hfuel))
    obtain ⟨hlink, hpage, hnext⟩ := h.head
    obtain ⟨hxs, hys, hpos, hgap, hafter⟩ := separated_middle.mp h.separated
    have hapart := habs.apart r (by simp)
    have hn := habs.pos
    simp only [freeLoop, hlink, hpage]
    rw [if_pos ⟨hpos, by omega⟩]
    by_cases hend : r.1 + r.2 = n
    · rw [if_pos hend]
      obtain ⟨rs, hlisted, hperm⟩ := h.joinBehind habs hend
      exact ⟨_, rs, rfl, hlisted, joinBehind_bounds _ _ _, hperm⟩
    · rw [if_neg hend]
      by_cases hstart : r.1 = n + npages
      · rw [if_pos hstart]
        have hrend := (h.within r (by simp)).2
        refine ⟨_, xs ++ (n, r.2 + npages) :: ys, rfl,
          h.place hnext (fun b hb => List.mem_cons_of_mem r hb) ?_ (by have := habs.within; omega),
          setLink_bounds _ _ _, ?_⟩
        · refine separated_middle.mpr ⟨hxs, hys, by simp only; omega, hbefore, fun b hb => ?_⟩
          have := hafter b hb
          simp only
          omega
        · have hjoin : List.range' n (r.2 + npages) = List.range' n npages ++ List.range' r.1 r.2 := by
            rw [hstart, List.range'_append_1, Nat.add_comm]
          refine List.perm_iff_count.mpr fun a => ?_
          simp only [points_append, points_cons, hjoin, List.count_append]
          omega
      · rw [if_neg hstart]
        by_cases hbehind : n + npages < r.1
        · rw [if_pos hbehind]
          refine ⟨_, xs ++ (n, npages) :: r :: ys, rfl, h.place ⟨rfl, hpage, hnext⟩ (fun b hb => hb) ?_ habs.within,
            setLink_bounds _ _ _, ?_⟩
          · have hrys : Separated (r :: ys) := ⟨fun b hb => h.separated.pos b (List.mem_append_right _ hb),
              (List.pairwise_append.mp h.separated.gap).2.1⟩
            refine separated_middle.mpr ⟨hxs, hrys, hn, hbefore, fun b hb => ?_⟩
            rcases List.mem_cons.mp hb with rfl | hb
            · exact hbehind
            · have := hafter b hb
              simp only
              omega
          · refine List.perm_iff_count.mpr fun a => ?_
            simp only [points_append, points_cons, List.count_append]
            omega
        · rw [if_neg hbehind]
          have hpassed : ∀ a ∈ xs ++ [r], a.1 + a.2 < n := by
            intro a ha
            rcases List.mem_append.mp ha with ha | ha
            · exact hbefore a ha
            · rw [List.mem_singleton.mp ha]
              omega
          rw [List.append_cons] at h habs ⊢
          have hrest := ih fuel h habs hpassed (Nat.lt_of_succ_lt_succ hfuel)
          rwa [behind_append_singleton] at hrest

theorem Listed.free {s : PageHeap} {rs : List (ℕ × ℕ)} (h : Listed s rs) {n npages : ℕ} (habs : Absent s rs n npages) :
    ∃ t rs', rtPageFree s n npages = some t ∧ Listed t rs' ∧
      (t.heapStart = s.heapStart ∧ t.heapEnd = s.heapEnd) ∧
      (points rs').Perm (List.range' n npages ++ points rs) := by
  rw [rtPageFree, if_pos habs.pos.ne']
  exact @freeLoop_spec s n npages s.fuel rs [] h habs (fun a ha => absurd ha List.not_mem_nil) h.length_lt_fuel

/-! ### Runs of the allocator -/

/-- The page heap, and the pages that have been allocated and not freed. -/
structure Sys where
  heap : PageHeap
  allocated : Multiset ℕ

def pagesFrom (n npages : ℕ) : Multiset ℕ := List.range' n npages

/-- A call of the allocator; `write` is a user that writes to an allocated page. A release may be
of any pages that are allocated, the whole of an allocated run or a part. -/
inductive Act where
  | alloc (npages : ℕ)
  | free (n npages : ℕ)
  | write (p : ℕ) (head : PageHead)

def step (s : Sys) (a : Act) : Option Sys :=
  match a with
  | .alloc npages =>
    (rtPageAlloc s.heap npages).map fun x =>
      match x.1 with
      | none => ⟨x.2, s.allocated⟩
      | some b => ⟨x.2, s.allocated + pagesFrom b npages⟩
  | .free n npages =>
    if 0 < npages ∧ pagesFrom n npages ≤ s.allocated then
      (rtPageFree s.heap n npages).map fun heap => ⟨heap, s.allocated - pagesFrom n npages⟩
    else none
  | .write p head => if p ∈ s.allocated then some { s with heap := s.heap.set p head } else none

/-- The pages of the list and the allocated pages are those of the heap, each once. -/
structure Inv (s : Sys) (rs : List (ℕ × ℕ)) : Prop where
  listed : Listed s.heap rs
  pages : (points rs : Multiset ℕ) + s.allocated = pagesFrom s.heap.heapStart (s.heap.heapEnd - s.heap.heapStart)

theorem mem_pagesFrom {p n npages : ℕ} : p ∈ pagesFrom n npages ↔ n ≤ p ∧ p < n + npages := by
  rw [pagesFrom, Multiset.mem_coe, List.mem_range'_1]

theorem Inv.mem_bounds {s : Sys} {rs : List (ℕ × ℕ)} (h : Inv s rs) {p : ℕ} (hp : p ∈ s.allocated) :
    s.heap.heapStart ≤ p ∧ p < s.heap.heapEnd := by
  have hall : p ∈ pagesFrom s.heap.heapStart (s.heap.heapEnd - s.heap.heapStart) := by
    rw [← h.pages]
    exact Multiset.mem_add.mpr (Or.inr hp)
  have := mem_pagesFrom.mp hall
  omega

theorem Inv.not_mem_points {s : Sys} {rs : List (ℕ × ℕ)} (h : Inv s rs) {p : ℕ} (hp : p ∈ s.allocated) :
    p ∉ points rs := by
  intro hmem
  have hnodup : ((points rs : Multiset ℕ) + s.allocated).Nodup := by
    rw [h.pages]
    exact List.nodup_range'
  exact Multiset.disjoint_left.mp (Multiset.nodup_add.mp hnodup).2.2 (Multiset.mem_coe.mpr hmem) hp

theorem Inv.absent {s : Sys} {rs : List (ℕ × ℕ)} (h : Inv s rs) {n npages : ℕ} (hpos : 0 < npages)
    (hle : pagesFrom n npages ≤ s.allocated) : Absent s.heap rs n npages := by
  have hmem : ∀ p, n ≤ p → p < n + npages → p ∈ s.allocated :=
    fun p hp hlt => Multiset.mem_of_le hle (mem_pagesFrom.mpr ⟨hp, hlt⟩)
  refine ⟨hpos, ?_, fun r hr => ?_⟩
  · have hfirst := h.mem_bounds (hmem n le_rfl (by omega))
    have hlast := h.mem_bounds (hmem (n + npages - 1) (by omega) (by omega))
    omega
  · by_contra hoverlap
    have hrpos := h.listed.separated.pos r hr
    refine h.not_mem_points (hmem (max r.1 n) (by omega) (by omega)) ?_
    exact mem_points.mpr ⟨r, hr, by omega, by omega⟩

theorem Inv.take {heap : PageHeap} {allocated : Multiset ℕ} {rs : List (ℕ × ℕ)} (h : Inv ⟨heap, allocated⟩ rs)
    {npages : ℕ} (hpos : 0 < npages) :
    (rtPageAlloc heap npages = some (none, heap) ∧ ∀ r ∈ rs, r.2 < npages) ∨
      ∃ b t rs', rtPageAlloc heap npages = some (some b, t) ∧ Inv ⟨t, allocated + pagesFrom b npages⟩ rs' ∧
        t.heapStart = heap.heapStart ∧ t.heapEnd = heap.heapEnd := by
  rcases h.listed.alloc hpos with hnone | ⟨b, t, rs', hsome, hlisted, hbounds, hperm⟩
  · exact Or.inl hnone
  · refine Or.inr ⟨b, t, rs', hsome, ⟨hlisted, ?_⟩, hbounds⟩
    have hpoints : (points rs : Multiset ℕ) = pagesFrom b npages + points rs' := Multiset.coe_eq_coe.mpr hperm
    have hpages := h.pages
    simp only [hbounds.1, hbounds.2]
    rw [← hpages, hpoints]
    abel

theorem Inv.give {heap : PageHeap} {allocated : Multiset ℕ} {rs : List (ℕ × ℕ)} {n npages : ℕ}
    (h : Inv ⟨heap, allocated + pagesFrom n npages⟩ rs) (hpos : 0 < npages) :
    ∃ t rs', rtPageFree heap n npages = some t ∧ Inv ⟨t, allocated⟩ rs' ∧
      t.heapStart = heap.heapStart ∧ t.heapEnd = heap.heapEnd := by
  obtain ⟨t, rs', hsome, hlisted, hbounds, hperm⟩ := h.listed.free (h.absent hpos (Multiset.le_add_left _ _))
  refine ⟨t, rs', hsome, ⟨hlisted, ?_⟩, hbounds⟩
  have hpoints : (points rs' : Multiset ℕ) = pagesFrom n npages + points rs := Multiset.coe_eq_coe.mpr hperm
  have hpages := h.pages
  simp only [hbounds.1, hbounds.2] at hpages ⊢
  rw [← hpages, hpoints, add_comm allocated, add_comm (pagesFrom n npages), add_assoc]

theorem Inv.alloc {s s' : Sys} {rs : List (ℕ × ℕ)} (h : Inv s rs) {npages : ℕ} (hs : step s (.alloc npages) = some s') :
    (∃ rs', Inv s' rs') ∧ s'.heap.heapStart = s.heap.heapStart ∧ s'.heap.heapEnd = s.heap.heapEnd := by
  rw [step] at hs
  rcases Nat.eq_zero_or_pos npages with rfl | hpos
  · rw [rtPageAlloc, if_pos rfl] at hs
    cases hs
    exact ⟨⟨rs, h⟩, rfl, rfl⟩
  · rcases h.take hpos with ⟨hnone, -⟩ | ⟨b, t, rs', hsome, h', hbounds⟩
    · rw [hnone] at hs
      cases hs
      exact ⟨⟨rs, h⟩, rfl, rfl⟩
    · rw [hsome] at hs
      cases hs
      exact ⟨⟨rs', h'⟩, hbounds⟩

theorem Inv.free {s s' : Sys} {rs : List (ℕ × ℕ)} (h : Inv s rs) {n npages : ℕ} (hs : step s (.free n npages) = some s') :
    (∃ rs', Inv s' rs') ∧ s'.heap.heapStart = s.heap.heapStart ∧ s'.heap.heapEnd = s.heap.heapEnd := by
  rw [step] at hs
  split at hs
  · rename_i hvalid
    have h' : Inv ⟨s.heap, s.allocated - pagesFrom n npages + pagesFrom n npages⟩ rs := by
      rw [tsub_add_cancel_of_le hvalid.2]
      exact h
    obtain ⟨t, rs', hsome, hinv, hbounds⟩ := h'.give hvalid.1
    rw [hsome] at hs
    cases hs
    exact ⟨⟨rs', hinv⟩, hbounds⟩
  · cases hs

theorem Inv.write {s s' : Sys} {rs : List (ℕ × ℕ)} (h : Inv s rs) {p : ℕ} {head : PageHead}
    (hs : step s (.write p head) = some s') :
    (∃ rs', Inv s' rs') ∧ s'.heap.heapStart = s.heap.heapStart ∧ s'.heap.heapEnd = s.heap.heapEnd := by
  rw [step] at hs
  split at hs
  · rename_i hp
    cases hs
    refine ⟨⟨rs, ⟨h.listed.chained.congr fun r hr => ?_, h.listed.separated, h.listed.within⟩, h.pages⟩, rfl, rfl⟩
    refine Function.update_of_ne (fun he => h.not_mem_points hp ?_) _ _
    have hpos := h.listed.separated.pos r hr
    exact mem_points.mpr ⟨r, hr, by omega, by omega⟩
  · cases hs

theorem step_inv {s s' : Sys} {rs : List (ℕ × ℕ)} {a : Act} (h : Inv s rs) (hs : step s a = some s') :
    (∃ rs', Inv s' rs') ∧ s'.heap.heapStart = s.heap.heapStart ∧ s'.heap.heapEnd = s.heap.heapEnd := by
  cases a with
  | alloc npages => exact h.alloc hs
  | free n npages => exact h.free hs
  | write p head => exact h.write hs

theorem init_inv {mem : ℕ → PageHead} {heapStart npages : ℕ} {heap : PageHeap}
    (hinit : rtPageInit mem heapStart npages = some heap) :
    (∃ rs, Inv ⟨heap, 0⟩ rs) ∧ heap.heapStart = heapStart ∧ heap.heapEnd = heapStart + npages := by
  have hpos : 0 < npages := by
    by_contra hzero
    rw [rtPageInit, rtPageFree, if_neg (by omega)] at hinit
    cases hinit
  have hempty : Listed ⟨heapStart, heapStart + npages, none, mem⟩ [] :=
    ⟨rfl, separated_nil, fun r hr => absurd hr List.not_mem_nil⟩
  have habsent : Absent ⟨heapStart, heapStart + npages, none, mem⟩ [] heapStart npages :=
    ⟨hpos, ⟨le_rfl, le_rfl⟩, fun r hr => absurd hr List.not_mem_nil⟩
  obtain ⟨t, rs, hsome, hlisted, hbounds, hperm⟩ := hempty.free habsent
  rw [rtPageInit, hsome] at hinit
  cases hinit
  refine ⟨⟨rs, hlisted, ?_⟩, hbounds⟩
  simp only [hbounds.1, hbounds.2, Nat.add_sub_cancel_left, add_zero]
  refine Multiset.coe_eq_coe.mpr (hperm.trans ?_)
  rw [show points [] = [] from rfl, List.append_nil]

/-- After every sequence of calls: the list is sorted, with runs that are disjoint and do not touch;
its pages and the allocated ones are the pages of the heap, each once; `rt_page_alloc` returns, pages
that were free, and null only when no such number of free pages is consecutive; and `rt_page_free`
returns, without a failed assertion. -/
theorem page_list_invariant {mem : ℕ → PageHead} {heapStart npages : ℕ} {heap : PageHeap}
    (hinit : rtPageInit mem heapStart npages = some heap) (as : List Act) {s : Sys}
    (hrun : exec step ⟨heap, 0⟩ as = some s) :
    ∃ rs, Chained s.heap.mem s.heap.pageList rs ∧
      ((∀ r ∈ rs, 0 < r.2) ∧ rs.Pairwise fun a b => a.1 + a.2 < b.1) ∧
      (points rs : Multiset ℕ) + s.allocated = pagesFrom heapStart npages ∧
      (∀ n, 0 < n → ∃ result t, rtPageAlloc s.heap n = some (result, t) ∧
        (∀ b, result = some b → pagesFrom b n ≤ (points rs : Multiset ℕ)) ∧
        (result = none → ¬ ∃ p, ∀ i < n, p + i ∈ points rs)) ∧
      ∀ p n, 0 < n → pagesFrom p n ≤ s.allocated → (rtPageFree s.heap p n).isSome = true := by
  obtain ⟨hinv, hstart, hend⟩ := init_inv hinit
  obtain ⟨⟨rs, h⟩, hstart, hend⟩ := exec_inv (fun s => (∃ rs, Inv s rs) ∧ s.heap.heapStart = heapStart ∧
      s.heap.heapEnd = heapStart + npages) (fun s a s' hs hstep => by
    obtain ⟨⟨rs, h⟩, hstart, hend⟩ := hs
    obtain ⟨h', hstart', hend'⟩ := step_inv h hstep
    exact ⟨h', hstart'.trans hstart, hend'.trans hend⟩) ⟨hinv, hstart, hend⟩ hrun
  refine ⟨rs, h.listed.chained, ⟨h.listed.separated.pos, h.listed.separated.gap⟩, ?_, fun n hn => ?_, fun p n hn hle => ?_⟩
  · rw [h.pages, hstart, hend, Nat.add_sub_cancel_left]
  · rcases h.listed.alloc hn with ⟨hnone, hall⟩ | ⟨b, t, rs', hsome, -, -, hperm⟩
    · refine ⟨none, s.heap, hnone, fun b hb => absurd hb (Option.some_ne_none b).symm, ?_⟩
      rintro - ⟨p, hp⟩
      obtain ⟨r, hr, hle, hge⟩ := h.listed.separated.exists_run hn hp
      have := hall r hr
      omega
    · refine ⟨some b, t, hsome, fun c hc => ?_, fun he => absurd he (Option.some_ne_none b)⟩
      cases hc
      rw [show (points rs : Multiset ℕ) = pagesFrom b n + points rs' from Multiset.coe_eq_coe.mpr hperm]
      exact Multiset.le_add_right _ _
  · obtain ⟨t, -, hsome, -⟩ := h.listed.free (h.absent hn hle)
    rw [hsome]
    rfl

/-- Six pages; the three runs of two pages are freed last, first and middle, so that the last
release joins both its neighbours. -/
def outOfOrder : List Act :=
  [.alloc 2, .alloc 2, .alloc 2, .free 5 2, .free 1 2, .write 3 ⟨some 3, 9⟩, .free 3 2]

theorem page_list_invariant_outOfOrder :
    ∃ heap s, rtPageInit (fun _ => ⟨none, 0⟩) 1 6 = some heap ∧ exec step ⟨heap, 0⟩ outOfOrder = some s ∧
      ∃ rs, Chained s.heap.mem s.heap.pageList rs ∧ (rs.Pairwise fun a b => a.1 + a.2 < b.1) ∧
        (points rs : Multiset ℕ) + s.allocated = pagesFrom 1 6 := by
  have hsome : ((rtPageInit (fun _ => ⟨none, 0⟩) 1 6).bind fun heap => exec step ⟨heap, 0⟩ outOfOrder).isSome = true := by
    decide
  obtain ⟨s, hs⟩ := Option.isSome_iff_exists.mp hsome
  obtain ⟨heap, hinit, hrun⟩ := Option.bind_eq_some_iff.mp hs
  obtain ⟨rs, hchained, hsep, hpages, -⟩ := page_list_invariant hinit outOfOrder hrun
  exact ⟨heap, s, hinit, hrun, rs, hchained, hsep.2, hpages⟩

end RtThread.Memory.Pages
