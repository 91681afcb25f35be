import RtThread.Dfs.RamfsFiles

/-!
# The memory of the RAM file system

The blocks in use of the heap are the nodes on the list and the data of their files, and a call changes the data of
no other file than its own.
-/

namespace RtThread.Dfs.Ramfs

open RtThread.Lib.Bytes RtThread.Lib.Ring RtThread.Lib.Word RtThread.Memory.MemHeap

variable {k p r n : ℕ} {list : List ℕ} {dirent : ℕ → RamfsDirent} {live : ℕ → Option ℕ} {name : List Char}

/-- `live` are the nodes on the list and the data of their files, which are apart from each other. -/
structure Blocks (list : List ℕ) (dirent : ℕ → RamfsDirent) (live : ℕ → Option ℕ) : Prop where
  nodup : list.Nodup
  null : 0 ∉ list
  live_iff : ∀ q n, live q = some n ↔
    (q ∈ list ∧ n = sizeofRamfsDirent) ∨ ∃ p ∈ list, (dirent p).data = q ∧ q ≠ 0 ∧ (dirent p).size = n
  apart : ∀ p ∈ list, (dirent p).data ∉ list
  unshared : ∀ p ∈ list, ∀ q ∈ list, (dirent p).data = (dirent q).data → (dirent p).data ≠ 0 → p = q
  empty : ∀ p ∈ list, (dirent p).data = 0 → (dirent p).size = 0

theorem exists_update (hp : p ∈ list) (d : RamfsDirent) (P : RamfsDirent → Prop) :
    (∃ q ∈ list, P (Function.update dirent p d q)) ↔ P d ∨ ∃ q ∈ list, q ≠ p ∧ P (dirent q) := by
  constructor
  · rintro ⟨q, hq, h⟩
    by_cases he : q = p
    · subst he
      rw [Function.update_self] at h
      exact Or.inl h
    · rw [Function.update_of_ne he] at h
      exact Or.inr ⟨q, hq, he, h⟩
  · rintro (h | ⟨q, hq, he, h⟩)
    · exact ⟨p, hp, by rwa [Function.update_self]⟩
    · exact ⟨q, hq, by rwa [Function.update_of_ne he]⟩

theorem exists_ne {q : ℕ} (hq : q ≠ (dirent p).data) :
    (∃ a ∈ list, (dirent a).data = q ∧ q ≠ 0 ∧ (dirent a).size = n) ↔
      ∃ a ∈ list, a ≠ p ∧ (dirent a).data = q ∧ q ≠ 0 ∧ (dirent a).size = n := by
  refine exists_congr fun a => and_congr_right fun _ => ⟨fun h => ⟨?_, h⟩, And.right⟩
  rintro rfl
  exact hq h.1.symm

namespace Blocks

theorem node (hb : Blocks list dirent live) (hp : p ∈ list) : live p = some sizeofRamfsDirent :=
  (hb.live_iff p _).mpr (Or.inl ⟨hp, rfl⟩)

theorem data (hb : Blocks list dirent live) (hp : p ∈ list) (hd : (dirent p).data ≠ 0) :
    live (dirent p).data = some (dirent p).size :=
  (hb.live_iff _ _).mpr (Or.inr ⟨p, hp, rfl, hd, rfl⟩)

theorem live_null (hb : Blocks list dirent live) : live 0 = none := by
  by_contra hsome
  obtain ⟨n, hn⟩ := Option.ne_none_iff_exists'.mp hsome
  obtain ⟨hmem, -⟩ | ⟨p, -, -, hne, -⟩ := (hb.live_iff 0 n).mp hn
  · exact hb.null hmem
  · exact hne rfl

theorem data_eq_zero (hb : Blocks list dirent live) (hr : live r = none) (hp : p ∈ list) (he : (dirent p).data = r) :
    r = 0 := by
  by_contra hne
  have hdata := hb.data hp (he ▸ hne)
  rw [he, hr] at hdata
  cases hdata

theorem notMem (hb : Blocks list dirent live) (hr : live r = none) : r ∉ list := fun h => by
  rw [hb.node h] at hr
  cases hr

theorem create (hb : Blocks list dirent live) (hr : r ≠ 0) (hfresh : live r = none) :
    Blocks (r :: list) (Function.update dirent r ⟨name, 0, 0⟩) (Function.update live r (some sizeofRamfsDirent)) := by
  have hnotin := hb.notMem hfresh
  have hdata : ∀ p ∈ list, (dirent p).data ≠ r := fun p hp he => hr (hb.data_eq_zero hfresh hp he)
  obtain ⟨hnodup, hnull, hlive, hapart, hunshared, hempty⟩ := hb
  constructor
  case nodup => exact List.nodup_cons.mpr ⟨hnotin, hnodup⟩
  case null => simp [hnull, hr.symm]
  case live_iff =>
    intro q n
    by_cases hq : q = r
    · subst hq
      grind [Function.update_apply]
    · rw [Function.update_of_ne hq, hlive]
      grind [Function.update_apply]
  all_goals grind [Function.update_apply]

theorem truncate (hb : Blocks list dirent live) (hp : p ∈ list) :
    Blocks list (Function.update dirent p ⟨name, 0, 0⟩) (Function.update live (dirent p).data none) := by
  have hlive₀ := hb.live_null
  obtain ⟨hnodup, hnull, hlive, hapart, hunshared, hempty⟩ := hb
  constructor
  case live_iff =>
    intro q n
    by_cases hq : q = (dirent p).data
    · subst hq
      rw [Function.update_self, exists_update hp ⟨name, 0, 0⟩ fun d => d.data = _ ∧ _ ≠ 0 ∧ d.size = n]
      grind
    · rw [Function.update_of_ne hq, hlive, exists_update hp ⟨name, 0, 0⟩ fun d => d.data = q ∧ q ≠ 0 ∧ d.size = n]
      grind
  all_goals grind [Function.update_apply]

theorem resize (hb : Blocks list dirent live) (hp : p ∈ list) (hr : r ≠ 0)
    (hfresh : r ≠ (dirent p).data → live r = none) :
    Blocks list (Function.update dirent p ⟨name, r, n⟩)
      (Function.update (Function.update live (dirent p).data none) r (some n)) := by
  have hnotin : r ∉ list := fun h => by
    by_cases he : r = (dirent p).data
    · exact hb.apart p hp (he ▸ h)
    · exact hb.notMem (hfresh he) h
  have hdata : ∀ q ∈ list, (dirent q).data = r → q = p := fun q hq he => by
    by_cases hd : r = (dirent p).data
    · exact hb.unshared q hq p hp (he.trans hd) (he ▸ hr)
    · exact absurd (hb.data_eq_zero (hfresh hd) hq he) hr
  have hlive₀ := hb.live_null
  obtain ⟨hnodup, hnull, hlive, hapart, hunshared, hempty⟩ := hb
  constructor
  case live_iff =>
    intro q m
    rw [exists_update hp ⟨name, r, n⟩ fun d => d.data = q ∧ q ≠ 0 ∧ d.size = m]
    by_cases hq : q = r
    · subst hq
      rw [Function.update_self]
      grind
    · rw [Function.update_of_ne hq]
      by_cases hq' : q = (dirent p).data
      · subst hq'
        rw [Function.update_self]
        grind
      · have hother : ¬(r = q ∧ q ≠ 0 ∧ n = m) := fun h => hq h.1.symm
        rw [Function.update_of_ne hq', hlive, exists_ne hq', or_iff_right hother]
  all_goals grind [Function.update_apply]

theorem unlink (hb : Blocks list dirent live) (hp : p ∈ list) :
    Blocks (list.erase p) dirent (Function.update (Function.update live (dirent p).data none) p none) := by
  have hlive₀ := hb.live_null
  have hmem : ∀ q, q ∈ list.erase p ↔ q ≠ p ∧ q ∈ list := fun q => hb.nodup.mem_erase_iff
  have hnodup' := hb.nodup.erase p
  obtain ⟨hnodup, hnull, hlive, hapart, hunshared, hempty⟩ := hb
  constructor
  case nodup => exact hnodup'
  case live_iff =>
    intro q m
    by_cases hq : q = p
    · subst hq
      grind [Function.update_apply]
    · rw [Function.update_of_ne hq]
      by_cases hq' : q = (dirent p).data
      · subst hq'
        grind [Function.update_apply]
      · rw [Function.update_of_ne hq', hlive]
        grind
  all_goals grind

theorem rename (hb : Blocks list dirent live) :
    Blocks list (Function.update dirent p { dirent p with name := name }) live := by
  have hdata : ∀ q, (Function.update dirent p { dirent p with name := name } q).data = (dirent q).data := by
    grind [Function.update_apply]
  have hsize : ∀ q, (Function.update dirent p { dirent p with name := name } q).size = (dirent q).size := by
    grind [Function.update_apply]
  obtain ⟨hnodup, hnull, hlive, hapart, hunshared, hempty⟩ := hb
  constructor <;> simpa only [hdata, hsize]

end Blocks

/-! ### The heap with the nodes and the data -/

/-- The heap of the region holds the nodes and the data, and the node of the directory lies in front of it. -/
structure Stored (k : ℕ) (region : ℕ × ℕ × ℕ) (fs : DfsRamfs) (live : ℕ → Option ℕ) : Prop where
  owned : Owned k fs.pool live
  blocks : Blocks fs.list fs.dirent live
  heap : fs.pool.heap.region = region
  small : region.2.1 < 2 ^ 31
  named : ∀ p ∈ fs.list, '\x00' ∈ (fs.dirent p).name
  root_low : fs.root < region.1
  root_size : (fs.dirent fs.root).size = 0

/-- What the file system stands for. -/
structure Shows (fs : DfsRamfs) (root : ℕ) (entries : List (Path × ℕ)) (content : ℕ → Option (List (BitVec 8))) :
    Prop where
  root : fs.root = root
  entries : fs.entries = entries
  content : fs.content = content

variable {region : ℕ × ℕ × ℕ} {fs fs' : DfsRamfs} {s : Sys} {path : Path} {buf : List (BitVec 8)} {flags : BitVec 32}

@[simp] theorem setDirent_pool (d : RamfsDirent) : (fs.setDirent p d).pool = fs.pool := rfl

@[simp] theorem setDirent_list (d : RamfsDirent) : (fs.setDirent p d).list = fs.list := rfl

@[simp] theorem setDirent_root (d : RamfsDirent) : (fs.setDirent p d).root = fs.root := rfl

@[simp] theorem setDirent_dirent (d : RamfsDirent) : (fs.setDirent p d).dirent = Function.update fs.dirent p d := rfl

@[simp] theorem withPool_pool (pool : Pool) : (fs.withPool pool).pool = pool := rfl

@[simp] theorem withPool_list (pool : Pool) : (fs.withPool pool).list = fs.list := rfl

@[simp] theorem withPool_root (pool : Pool) : (fs.withPool pool).root = fs.root := rfl

@[simp] theorem withPool_dirent (pool : Pool) : (fs.withPool pool).dirent = fs.dirent := rfl

@[simp] theorem link_list : (fs.link p).list = p :: fs.list := rfl

@[simp] theorem link_root : (fs.link p).root = fs.root := rfl

@[simp] theorem link_dirent : (fs.link p).dirent = fs.dirent := rfl

@[simp] theorem unlink_list : (fs.unlink p).list = fs.list.erase p := rfl

@[simp] theorem unlink_dirent : (fs.unlink p).dirent = fs.dirent := rfl

@[simp] theorem writeAt_dirent (a : ℕ) : (fs.writeAt a buf).dirent = fs.dirent := rfl

theorem content_of_mem (hp : p ∈ fs.list) : fs.content p = some (fs.bytes p) := if_pos hp

theorem content_of_notMem (hp : p ∉ fs.list) : fs.content p = none := if_neg hp

theorem content_congr (hlist : fs'.list = fs.list) (hbytes : ∀ q ∈ fs.list, fs'.bytes q = fs.bytes q) :
    fs'.content = fs.content := by
  funext q
  by_cases hq : q ∈ fs.list
  · rw [content_of_mem (hlist ▸ hq), content_of_mem hq, hbytes q hq]
  · rw [content_of_notMem (hlist ▸ hq), content_of_notMem hq]

theorem content_update (hp : p ∈ fs'.list) (hlist : ∀ q, q ≠ p → (q ∈ fs'.list ↔ q ∈ fs.list))
    (hbytes : ∀ q ∈ fs.list, q ≠ p → fs'.bytes q = fs.bytes q) :
    fs'.content = Function.update fs.content p (some (fs'.bytes p)) := by
  funext q
  by_cases he : q = p
  · subst he
    rw [Function.update_self, content_of_mem hp]
  · rw [Function.update_of_ne he]
    by_cases hq : q ∈ fs.list
    · rw [content_of_mem ((hlist q he).mpr hq), content_of_mem hq, hbytes q hq he]
    · rw [content_of_notMem fun h => hq ((hlist q he).mp h), content_of_notMem hq]

@[simp] theorem length_bytes (p : ℕ) : (fs.bytes p).length = (fs.dirent p).size := length_slice _ _ _

/-! ### Names -/

theorem strcmpName_eq {array : List Char} (ha : '\x00' ∈ array) (hpath : '\x00' ∉ path) :
    strcmpName array path = some (nameOf array == path) := by
  induction array generalizing path with
  | nil => cases ha
  | cons c cs ih =>
    cases path with
    | nil =>
      by_cases hc : c = '\x00' <;> simp [strcmpName, nameOf, hc]
    | cons d ds =>
      have hd : d ≠ '\x00' := fun h => hpath (by simp [h])
      rw [strcmpName]
      by_cases hc : c = d
      · subst hc
        have hcs : '\x00' ∈ cs := (List.mem_cons.mp ha).resolve_left hd.symm
        rw [if_pos rfl, ih hcs fun h => hpath (List.mem_cons_of_mem _ h)]
        simp [nameOf, hd]
      · rw [if_neg hc]
        by_cases hz : c = '\x00' <;> simp [nameOf, hz, hc]

theorem nameOf_strncpyName (hlen : path.length < ramfsNameMax) (hpath : '\x00' ∉ path) :
    nameOf (strncpyName path) = path := by
  have hpad : ramfsNameMax - path.length = ramfsNameMax - path.length - 1 + 1 := by omega
  rw [nameOf, strncpyName, List.take_of_length_le hlen.le, hpad, List.replicate_succ,
    List.takeWhile_append_of_pos fun c hc => by simpa using fun h : c = '\x00' => hpath (h ▸ hc)]
  simp

theorem zero_mem_strncpyName (hlen : path.length < ramfsNameMax) : '\x00' ∈ strncpyName path :=
  List.mem_append_right _ (List.mem_replicate.mpr ⟨by omega, rfl⟩)

theorem notMem_strip (hpath : '\x00' ∉ path) : '\x00' ∉ strip path :=
  fun h => hpath ((List.dropWhile_sublist _).subset h)

theorem lookupLoop_eq {subpath : Path} (hsub : '\x00' ∉ subpath) {list : List ℕ}
    (hnamed : ∀ p ∈ list, '\x00' ∈ (fs.dirent p).name) :
    lookupLoop fs subpath list = some (list.find? fun p => nameOf (fs.dirent p).name == subpath) := by
  induction list with
  | nil => rfl
  | cons p ps ih =>
    rw [lookupLoop, strcmpName_eq (hnamed p List.mem_cons_self) hsub, Option.bind_some, List.find?_cons,
      ih fun q hq => hnamed q (List.mem_cons_of_mem p hq)]
    cases nameOf (fs.dirent p).name == subpath <;> rfl

theorem Stored.lookup (hs : Stored k region s.fs live) (hpath : '\x00' ∉ path) :
    dfsRamfsLookup s.fs path = some (s.files.find path) := by
  rw [dfsRamfsLookup, Files.find]
  split
  · rfl
  · rw [lookupLoop_eq (notMem_strip hpath) hs.named, Sys.files, DfsRamfs.entries, List.find?_map, Option.map_map]
    simp only [Function.comp_def, Option.map_id']

/-! ### One file at a time -/

theorem Blocks.bytes_keep {pool : Pool} (hb : Blocks fs.list fs.dirent live) (hp : p ∈ fs.list)
    (hkeeps : KeepsOthers live fs.pool pool r) (hne : (fs.dirent p).data ≠ 0 → (fs.dirent p).data ≠ r) :
    slice pool.mem (fs.dirent p).data (fs.dirent p).size = fs.bytes p := by
  refine slice_congr fun i hi => ?_
  by_cases hd : (fs.dirent p).data = 0
  · rw [hb.empty p hp hd] at hi
    cases hi
  · exact hkeeps _ _ i (hb.data hp hd) (hne hd) hi

theorem Stored.start (hs : Stored k region fs live) : fs.pool.heap.startAddr = region.1 := by
  rw [← hs.heap, Memheap.region]

theorem Stored.poolSize (hs : Stored k region fs live) : fs.pool.heap.poolSize = region.2.1 := by
  rw [← hs.heap, Memheap.region]

theorem Stored.root_notMem (hk : k ≤ 30) (hs : Stored k region fs live) : fs.root ∉ fs.list := fun h => by
  have hbound := (hs.owned.bounds hk (hs.blocks.node h)).2.1
  have hlow := hs.root_low
  rw [hs.start] at hbound
  omega

theorem Stored.size_lt (hk : k ≤ 30) (hs : Stored k region fs live) (hp : p ∈ fs.list) :
    (fs.dirent p).size < 2 ^ 31 := by
  by_cases hd : (fs.dirent p).data = 0
  · rw [hs.blocks.empty p hp hd]
    decide
  · have hbound := (hs.owned.bounds hk (hs.blocks.data hp hd)).2
    have hsmall := hs.small
    rw [hs.poolSize] at hbound
    omega

theorem Stored.writeAt (hk : k ≤ 30) (hs : Stored k region fs live) (hp : p ∈ fs.list) (buf : List (BitVec 8)) (a : ℕ)
    (hfits : a + buf.length ≤ (fs.dirent p).size) :
    Stored k region (fs.writeAt ((fs.dirent p).data + a) buf) live ∧
      Shows (fs.writeAt ((fs.dirent p).data + a) buf) fs.root fs.entries
        (Function.update fs.content p (some (splice (fs.bytes p) a buf))) := by
  obtain ⟨howned, hblocks, hheap, hsmall, hnamed, hlow, hsize⟩ := hs
  have hself : (fs.writeAt ((fs.dirent p).data + a) buf).bytes p = splice (fs.bytes p) a buf := by
    rw [DfsRamfs.bytes, DfsRamfs.bytes, ← slice_splice fs.pool.mem _ (by omega) buf, max_eq_left hfits]
    rfl
  refine ⟨⟨⟨howned.good, howned.outside⟩, hblocks, hheap, hsmall, hnamed, hlow, hsize⟩, rfl, rfl, ?_⟩
  rw [← hself]
  refine content_update hp (fun _ _ => Iff.rfl) fun q hq he => slice_congr fun i hi => ?_
  refine copy_of_notMem fs.pool.mem ?_
  -- the data of `q` and that of `p` do not overlap
  rw [writeAt_dirent] at hi ⊢
  by_cases hdq : (fs.dirent q).data = 0
  · rw [hblocks.empty q hq hdq] at hi
    cases hi
  by_cases hdp : (fs.dirent p).data = 0
  · have hempty := hblocks.empty p hp hdp
    have hlive := (howned.bounds hk (hblocks.data hq hdq)).1
    omega
  have hapart := howned.apart (hblocks.data hq hdq) (hblocks.data hp hdp) fun h =>
    he (hblocks.unshared q hq p hp h hdq)
  omega

theorem Stored.createDirent (hk : k ≤ 30) (hs : Stored k region fs live) (hpath : '\x00' ∉ path)
    (hlen : (strip path).length < ramfsNameMax) :
    ∃ found fs' live', createDirent k fs path = some (found, fs') ∧ Stored k region fs' live' ∧
      match found with
      | none => Shows fs' fs.root fs.entries fs.content
      | some p => p ∉ fs.list ∧ p ≠ fs.root ∧ p ∈ fs'.list ∧
        Shows fs' fs.root ((strip path, p) :: fs.entries) (Function.update fs.content p (some [])) := by
  have hroom : sizeofRamfsDirent + (2 ^ k - 1) < 2 ^ 32 := by
    have hpow : 2 ^ k ≤ 2 ^ 30 := Nat.pow_le_pow_right (by decide) hk
    rw [sizeofRamfsDirent]
    omega
  obtain ⟨r, pool, hrun, howned, hfresh, hkeeps⟩ := hs.owned.alloc hk hroom
  have hheap := (Pool.rtMemheapAlloc_region hrun).trans hs.heap
  obtain ⟨-, hblocks, -, hsmall, hnamed, hlow, hsize⟩ := hs
  have hbytes : ∀ q ∈ fs.list, slice pool.mem (fs.dirent q).data (fs.dirent q).size = fs.bytes q := fun q hq =>
    hblocks.bytes_keep hq hkeeps id
  rw [Ramfs.createDirent, hrun, Option.map_some]
  by_cases hr : r = 0
  · rw [if_pos hr]
    rw [hand, if_pos hr] at howned
    exact ⟨none, _, live, rfl, ⟨howned, hblocks, hheap, hsmall, hnamed, hlow, hsize⟩, rfl, rfl,
      content_congr rfl hbytes⟩
  · rw [if_neg hr]
    rw [hand, if_neg hr] at howned
    have hnotin := hblocks.notMem (hfresh hr)
    have hroot : r ≠ fs.root := by
      have hbound := (howned.bounds hk (Function.update_self r (some sizeofRamfsDirent) live)).2.1
      rw [← hheap, Memheap.region] at hlow
      simp only at hlow
      omega
    have hother : ∀ q ∈ fs.list, q ≠ r := fun q hq he => hnotin (he ▸ hq)
    refine ⟨some r, _, _, rfl, ⟨howned, hblocks.create hr (hfresh hr), hheap, hsmall, ?_, hlow, ?_⟩, hnotin, hroot,
      List.mem_cons_self, rfl, ?_, ?_⟩
    · intro q hq
      simp only [link_dirent, setDirent_dirent]
      obtain rfl | hq := List.mem_cons.mp hq
      · rw [Function.update_self]
        exact zero_mem_strncpyName hlen
      · rw [Function.update_of_ne (hother q hq)]
        exact hnamed q hq
    · simp only [link_dirent, setDirent_dirent, link_root, setDirent_root, withPool_root]
      rw [Function.update_of_ne hroot.symm]
      exact hsize
    · simp only [DfsRamfs.entries, link_dirent, link_list, setDirent_dirent, withPool_dirent, List.map_cons,
        Function.update_self, nameOf_strncpyName hlen (notMem_strip hpath)]
      congr 1
      exact List.map_congr_left fun q hq => by rw [Function.update_of_ne (hother q hq)]
    · have hself : (((fs.withPool pool).setDirent r ⟨strncpyName (strip path), 0, 0⟩).link r).bytes r = [] := by
        simp [DfsRamfs.bytes, slice]
      rw [← hself]
      refine content_update List.mem_cons_self (fun q hq => by simp [hq]) fun q hq he => ?_
      simp only [DfsRamfs.bytes, link_dirent, setDirent_dirent, Function.update_of_ne he]
      exact hbytes q hq

theorem Stored.update {live' : ℕ → Option ℕ} {pool : Pool} {d : RamfsDirent} (hk : k ≤ 30)
    (hs : Stored k region fs live) (hp : p ∈ fs.list) (howned : Owned k pool live') (hblocks : Blocks fs.list (Function.update fs.dirent p d) live')
    (hregion : pool.heap.region = fs.pool.heap.region) (hname : '\x00' ∈ d.name) :
    Stored k region ((fs.withPool pool).setDirent p d) live' := by
  have hroot : fs.root ≠ p := fun h => hs.root_notMem hk (h ▸ hp)
  obtain ⟨-, -, hheap, hsmall, hnamed, hlow, hsize⟩ := hs
  refine ⟨howned, hblocks, hregion.trans hheap, hsmall, fun q hq => ?_, hlow, ?_⟩
  · rw [setDirent_dirent, withPool_dirent]
    by_cases he : q = p
    · rw [he, Function.update_self]
      exact hname
    · rw [Function.update_of_ne he]
      exact hnamed q hq
  · rw [setDirent_dirent, setDirent_root, withPool_root, withPool_dirent, Function.update_of_ne hroot]
    exact hsize

theorem shows_update (pool : Pool) (d : RamfsDirent) (hp : p ∈ fs.list)
    (hname : nameOf d.name = nameOf (fs.dirent p).name)
    (hbytes : ∀ q ∈ fs.list, q ≠ p → slice pool.mem (fs.dirent q).data (fs.dirent q).size = fs.bytes q) :
    Shows ((fs.withPool pool).setDirent p d) fs.root fs.entries
      (Function.update fs.content p (some (slice pool.mem d.data d.size))) := by
  have hself : ((fs.withPool pool).setDirent p d).bytes p = slice pool.mem d.data d.size := by
    simp only [DfsRamfs.bytes, setDirent_dirent, Function.update_self, setDirent_pool, withPool_pool]
  refine ⟨rfl, List.map_congr_left fun q hq => ?_, ?_⟩
  · simp only [setDirent_dirent, withPool_dirent]
    by_cases he : q = p
    · rw [he, Function.update_self, hname]
    · rw [Function.update_of_ne he]
  · rw [← hself]
    refine content_update hp (fun _ _ => Iff.rfl) fun q hq he => ?_
    simp only [DfsRamfs.bytes, setDirent_dirent, Function.update_of_ne he]
    exact hbytes q hq he

theorem Stored.freeData (hk : k ≤ 30) (hs : Stored k region fs live) (hp : p ∈ fs.list) :
    ∃ pool, freeData k fs p = some pool ∧ Owned k pool (Function.update live (fs.dirent p).data none) ∧
      pool.heap.region = fs.pool.heap.region ∧ KeepsOthers live fs.pool pool (fs.dirent p).data := by
  rw [Ramfs.freeData]
  by_cases hd : (fs.dirent p).data = 0
  · have hupdate : Function.update live (fs.dirent p).data none = live := by
      rw [hd, Function.update_eq_self_iff]
      exact hs.blocks.live_null.symm
    rw [if_neg fun h => h hd, hupdate]
    exact ⟨_, rfl, hs.owned, rfl, KeepsOthers.of_mem rfl⟩
  · obtain ⟨pool, hrun, howned, hkeeps⟩ := hs.owned.free hk (hs.blocks.data hp hd)
    rw [if_pos hd]
    exact ⟨pool, hrun, howned, Pool.rtMemheapFree_region hrun, hkeeps⟩

theorem Stored.truncateDirent (hk : k ≤ 30) (hs : Stored k region fs live) (hp : p ∈ fs.list) :
    ∃ fs' live', truncateDirent k fs p = some fs' ∧ Stored k region fs' live' ∧ fs'.list = fs.list ∧
      Shows fs' fs.root fs.entries (Function.update fs.content p (some [])) := by
  obtain ⟨pool, hrun, howned, hregion, hkeeps⟩ := hs.freeData hk hp
  rw [Ramfs.truncateDirent, hrun, Option.map_some]
  refine ⟨_, _, rfl, hs.update hk hp howned (hs.blocks.truncate hp) hregion (hs.named p hp), rfl, ?_⟩
  refine shows_update _ ⟨(fs.dirent p).name, 0, 0⟩ hp rfl fun q hq he => ?_
  exact hs.blocks.bytes_keep hq hkeeps fun hne h => he (hs.blocks.unshared q hq p hp h hne)

/-- What a write through the descriptor `d` of a file does. -/
structure Wrote (fs : DfsRamfs) (d : DfsFd) (buf : List (BitVec 8)) (n : ℕ) (d' : DfsFd) (fs' : DfsRamfs) : Prop where
  count : n = buf.length
  descriptor : d' = { d with size := max d.size (d.pos + buf.length), pos := d.pos + buf.length }
  shows : Shows fs' fs.root fs.entries (Function.update fs.content d.data (some (splice (fs.bytes d.data) d.pos buf)))

theorem splice_of_prefix {xs ys : List (BitVec 8)} {a : ℕ} (hpre : ys.take a = xs.take a)
    (hx : xs.length ≤ a + buf.length) (hy : ys.length ≤ a + buf.length) : splice ys a buf = splice xs a buf := by
  rw [splice, splice, hpre, List.drop_eq_nil_of_le hx, List.drop_eq_nil_of_le hy]

theorem Stored.grow (hk : k ≤ 30) (hs : Stored k region fs live) {d : DfsFd} (hp : d.data ∈ fs.list)
    (hsize : d.size = (fs.dirent d.data).size) (hpos : d.pos ≤ d.size) (hgrow : d.size < d.pos + buf.length)
    (hroom : d.pos + buf.length + 2 ^ k + memheapMinialloc < 2 ^ 32) :
    ∃ r pool, fs.pool.rtMemheapRealloc k (fs.dirent d.data).data (d.pos + buf.length) = some (r, pool) ∧
      (r = 0 → Stored k region (fs.withPool pool) live ∧ Shows (fs.withPool pool) fs.root fs.entries fs.content) ∧
      (r ≠ 0 → ∃ fs' live',
        ((fs.withPool pool).setDirent d.data ⟨(fs.dirent d.data).name, r, d.pos + buf.length⟩).writeAt (r + d.pos) buf =
            fs' ∧ Stored k region fs' live' ∧
          Shows fs' fs.root fs.entries
            (Function.update fs.content d.data (some (splice (fs.bytes d.data) d.pos buf)))) := by
  have hpow := Nat.two_pow_pos k
  have hlive : (fs.dirent d.data).data = 0 ∨ (live (fs.dirent d.data).data).isSome = true := by
    by_cases hd : (fs.dirent d.data).data = 0
    · exact Or.inl hd
    · exact Or.inr (Option.isSome_of_eq_some (hs.blocks.data hp hd))
  have hsome : 0 < d.pos + buf.length := by omega
  obtain ⟨r, pool, hrun, hrealloc⟩ := hs.owned.realloc hk hlive hsome (by omega) (sumFits_of_lt hroom)
  have hregion := Pool.rtMemheapRealloc_region hrun
  refine ⟨r, pool, hrun, fun hr => ?_, fun hr => ?_⟩
  · -- the heap and the memory are as before
    have howned := hrealloc.owned
    rw [if_pos hr] at howned
    obtain ⟨-, hblocks, hheap, hsmall, hnamed, hlow, hroot⟩ := hs
    refine ⟨⟨howned, hblocks, hregion.trans hheap, hsmall, hnamed, hlow, hroot⟩, rfl, rfl,
      content_congr rfl fun q _ => ?_⟩
    exact slice_congr fun i _ => by rw [withPool_pool, hrealloc.failed hr, withPool_dirent]
  · have howned := hrealloc.owned
    rw [if_neg hr] at howned
    have hs₁ : Stored k region
        ((fs.withPool pool).setDirent d.data ⟨(fs.dirent d.data).name, r, d.pos + buf.length⟩) _ :=
      hs.update hk hp howned (hs.blocks.resize hp hr (hrealloc.fresh hr)) hregion (hs.named _ hp)
    have hshows₁ := shows_update pool ⟨(fs.dirent d.data).name, r, d.pos + buf.length⟩ hp rfl
      fun q hq he => hs.blocks.bytes_keep hq (hrealloc.others hr) fun hne h => he (hs.blocks.unshared q hq _ hp h hne)
    have hp₁ : d.data ∈
        ((fs.withPool pool).setDirent d.data ⟨(fs.dirent d.data).name, r, d.pos + buf.length⟩).list := hp
    have hdirent :
        ((fs.withPool pool).setDirent d.data ⟨(fs.dirent d.data).name, r, d.pos + buf.length⟩).dirent d.data =
          ⟨(fs.dirent d.data).name, r, d.pos + buf.length⟩ := Function.update_self ..
    generalize ((fs.withPool pool).setDirent d.data ⟨(fs.dirent d.data).name, r, d.pos + buf.length⟩) = fs₁
      at hs₁ hshows₁ hp₁ hdirent ⊢
    have hbytes₁ : fs₁.bytes d.data = slice pool.mem r (d.pos + buf.length) := by
      have hcontent := content_of_mem hp₁
      rw [hshows₁.content, Function.update_self, Option.some.injEq] at hcontent
      exact hcontent.symm
    -- the bytes in front of the position have moved with the block
    have hfront : (fs₁.bytes d.data).take d.pos = (fs.bytes d.data).take d.pos := by
      rw [hbytes₁, DfsRamfs.bytes, take_slice _ _ (by omega), take_slice _ _ (by omega)]
      refine slice_congr fun i hi => ?_
      by_cases hd : (fs.dirent d.data).data = 0
      · have hempty := hs.blocks.empty _ hp hd
        omega
      · exact hrealloc.data hr _ (hs.blocks.data hp hd) i (by omega)
    obtain ⟨hs', hshows'⟩ := hs₁.writeAt hk hp₁ buf d.pos (by rw [hdirent])
    rw [hdirent] at hs' hshows'
    refine ⟨_, _, rfl, hs', hshows'.root.trans hshows₁.root, hshows'.entries.trans hshows₁.entries, ?_⟩
    rw [hshows'.content, hshows₁.content, Function.update_idem,
      splice_of_prefix hfront (by rw [length_bytes]; omega) (by rw [length_bytes, hdirent])]

theorem Stored.write (hk : k ≤ 30) (hs : Stored k region fs live) {d : DfsFd} (hp : d.data ∈ fs.list)
    (hsize : d.size = (fs.dirent d.data).size) (hpos : d.pos ≤ d.size)
    (hroom : d.pos + buf.length + 2 ^ k + memheapMinialloc < 2 ^ 32) :
    ∃ n d' fs' live', dfsRamfsWrite k fs d buf = some (n, d', fs') ∧ Stored k region fs' live' ∧
      (d.size < d.pos + buf.length ∧ n = 0 ∧ d' = d ∧ Shows fs' fs.root fs.entries fs.content ∨
        Wrote fs d buf n d' fs') := by
  have hpow := Nat.two_pow_pos k
  have hadd : add 32 d.pos buf.length = d.pos + buf.length := Nat.mod_eq_of_lt (by omega)
  have hadd' : add 32 buf.length d.pos = d.pos + buf.length := by rw [add, Nat.add_comm, ← add, hadd]
  rw [dfsRamfsWrite]
  simp only [hadd, hadd']
  by_cases hgrow : d.size < d.pos + buf.length
  · obtain ⟨r, pool, hrun, hfailed, hdone⟩ := hs.grow hk hp hsize hpos hgrow hroom
    rw [if_pos hgrow, hrun, Option.map_some]
    by_cases hr : r = 0
    · rw [if_pos hr]
      obtain ⟨hs', hshows⟩ := hfailed hr
      exact ⟨_, _, _, live, rfl, hs', Or.inl ⟨hgrow, rfl, rfl, hshows⟩⟩
    · rw [if_neg hr]
      obtain ⟨fs', live', rfl, hs', hshows⟩ := hdone hr
      exact ⟨_, _, _, live', rfl, hs', Or.inr ⟨rfl, by rw [max_eq_right hgrow.le], hshows⟩⟩
  · rw [if_neg hgrow]
    obtain ⟨hs', hshows⟩ := hs.writeAt hk hp buf d.pos (by omega)
    exact ⟨_, _, _, live, rfl, hs', Or.inr ⟨rfl, by rw [max_eq_left (by omega)], hshows⟩⟩

theorem Stored.unlink (hk : k ≤ 30) (hs : Stored k region fs live) (hp : p ∈ fs.list) :
    ∃ pool live', ((Ramfs.freeData k fs p).bind fun pool => pool.rtMemheapFree k p) = some pool ∧
      Stored k region ((fs.withPool pool).unlink p) live' ∧
      Shows ((fs.withPool pool).unlink p) fs.root (fs.entries.filter fun e => e.2 != p)
        (Function.update fs.content p none) := by
  obtain ⟨pool₁, hrun₁, howned₁, hregion₁, hkeeps₁⟩ := hs.freeData hk hp
  have hdata : p ≠ (fs.dirent p).data := fun h => hs.blocks.apart p hp (h ▸ hp)
  have hnode : Function.update live (fs.dirent p).data none p = some sizeofRamfsDirent := by
    rw [Function.update_of_ne hdata, hs.blocks.node hp]
  obtain ⟨pool₂, hrun₂, howned₂, hkeeps₂⟩ := howned₁.free hk hnode
  have hregion := (Pool.rtMemheapFree_region hrun₂).trans hregion₁
  rw [hrun₁, Option.bind_some, hrun₂]
  obtain ⟨-, hblocks, hheap, hsmall, hnamed, hlow, hroot⟩ := hs
  have herase : fs.list.erase p = fs.list.filter (· != p) := hblocks.nodup.erase_eq_filter p
  refine ⟨_, _, rfl, ⟨howned₂, hblocks.unlink hp, hregion.trans hheap, hsmall,
    fun q hq => hnamed q (List.mem_of_mem_erase hq), hlow, hroot⟩, rfl, ?_, ?_⟩
  · simp only [DfsRamfs.entries, unlink_list, withPool_list, herase, List.filter_map]
    rfl
  · funext q
    by_cases he : q = p
    · subst he
      rw [Function.update_self, content_of_notMem hblocks.nodup.not_mem_erase]
    · rw [Function.update_of_ne he]
      by_cases hq : q ∈ fs.list
      · rw [content_of_mem ((List.mem_erase_of_ne he).mpr hq), content_of_mem hq]
        refine congrArg some (slice_congr fun i hi => ?_)
        rw [unlink_dirent, withPool_dirent] at hi ⊢
        by_cases hd : (fs.dirent q).data = 0
        · rw [hblocks.empty q hq hd] at hi
          cases hi
        have hne : (fs.dirent q).data ≠ (fs.dirent p).data := fun h => he (hblocks.unshared q hq p hp h hd)
        have hlive := hblocks.data hq hd
        have hlive₁ : Function.update live (fs.dirent p).data none (fs.dirent q).data = some (fs.dirent q).size := by
          rw [Function.update_of_ne hne, hlive]
        have hne' : (fs.dirent q).data ≠ p := fun h => hblocks.apart q hq (h ▸ hp)
        exact (hkeeps₂ _ _ i hlive₁ hne' hi).trans (hkeeps₁ _ _ i hlive hne hi)
      · rw [content_of_notMem fun h => hq (List.mem_of_mem_erase h), content_of_notMem hq]

theorem Stored.rename (hk : k ≤ 30) (hs : Stored k region fs live) (hp : p ∈ fs.list) (hpath : '\x00' ∉ path)
    (hlen : path.length < ramfsNameMax) :
    Stored k region (fs.setDirent p { fs.dirent p with name := strncpyName path }) live ∧
      Shows (fs.setDirent p { fs.dirent p with name := strncpyName path }) fs.root
        (fs.entries.map fun e => if e.2 = p then (path, p) else e) fs.content := by
  refine ⟨hs.update hk hp hs.owned hs.blocks.rename rfl (zero_mem_strncpyName hlen), rfl, ?_, content_congr rfl ?_⟩
  · rw [DfsRamfs.entries, DfsRamfs.entries, List.map_map]
    refine List.map_congr_left fun q _ => ?_
    simp only [Function.comp_apply, setDirent_dirent]
    by_cases he : q = p
    · rw [he, Function.update_self, if_pos rfl, nameOf_strncpyName hlen hpath]
    · rw [Function.update_of_ne he, if_neg he]
  · intro q _
    simp only [DfsRamfs.bytes, setDirent_dirent, setDirent_pool]
    by_cases he : q = p
    · rw [he, Function.update_self]
    · rw [Function.update_of_ne he]

end RtThread.Dfs.Ramfs
