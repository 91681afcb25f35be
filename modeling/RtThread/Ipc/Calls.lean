import RtThread.Ipc.Base

/-!
# The take calls of a run

`rt_sem_take` and `rt_mutex_take` have the same outline: the call returns in its
first section, or the thread is suspended there and returns `thread->error` after
something has made it ready again. `History` follows the calls of a run. Each call has
a number; the lists record which calls were granted the object and what each call
returned. They are history: no function of the kernel reads them.
-/

namespace RtThread.Ipc.Calls

open RtThread.Ipc.Base

/-- Where a thread stands: outside of a call, suspended in one, or ready again and
about to read `thread->error`. -/
inductive Pc where
  | idle
  | suspended
  | resumed
  deriving DecidableEq, Repr

structure History (T : Type*) where
  pc : T → Pc
  call : T → ℕ
  started : ℕ
  granted : List ℕ
  returned : List (ℕ × RtErr)

variable {T : Type*} [DecidableEq T]

def empty : History T := ⟨fun _ => .idle, fun _ => 0, 0, [], []⟩

/-! ### What the sections do to the history

A call gets the object (`pass`) or is refused (`refuse`) in its first section, or its thread is
suspended there (`block`). A suspended thread is made ready by a release that hands it the
object (`grant`) or by its timer (`expire`); then it leaves the call (`finish`), or is suspended
again in the same call (`resuspend`). -/

def History.pass (c : History T) : History T :=
  { c with started := c.started + 1, granted := c.started :: c.granted,
           returned := (c.started, .eok) :: c.returned }

def History.refuse (c : History T) (e : RtErr) : History T :=
  { c with started := c.started + 1, returned := (c.started, e) :: c.returned }

def History.block (c : History T) (t : T) : History T :=
  { c with pc := Function.update c.pc t .suspended, call := Function.update c.call t c.started,
           started := c.started + 1 }

def History.grant (c : History T) (t : T) : History T :=
  { c with pc := Function.update c.pc t .resumed, granted := c.call t :: c.granted }

def History.expire (c : History T) (t : T) : History T :=
  { c with pc := Function.update c.pc t .resumed }

def History.finish (c : History T) (t : T) (e : RtErr) : History T :=
  { c with pc := Function.update c.pc t .idle, returned := (c.call t, e) :: c.returned }

def History.resuspend (c : History T) (t : T) : History T :=
  { c with pc := Function.update c.pc t .suspended }

/-- What the history of a run satisfies; `err` is the field `error` of the threads. -/
structure Ok (c : History T) (err : T → RtErr) : Prop where
  granted_lt : ∀ k ∈ c.granted, k < c.started
  returned_lt : ∀ k e, (k, e) ∈ c.returned → k < c.started
  call_lt : ∀ t, c.pc t ≠ .idle → c.call t < c.started
  call_inj : ∀ t u, c.pc t ≠ .idle → c.pc u ≠ .idle → c.call t = c.call u → t = u
  call_open : ∀ t, c.pc t ≠ .idle → ∀ e, (c.call t, e) ∉ c.returned
  suspended : ∀ t, c.pc t = .suspended → c.call t ∉ c.granted
  resumed : ∀ t, c.pc t = .resumed → (err t = .eok ↔ c.call t ∈ c.granted)
  success : ∀ k, (k, .eok) ∈ c.returned → k ∈ c.granted
  failure : ∀ k e, (k, e) ∈ c.returned → e ≠ .eok → k ∉ c.granted
  nodup : c.granted.Nodup

omit [DecidableEq T] in
theorem empty_ok (err : T → RtErr) : Ok (empty : History T) err := by
  constructor <;> simp [empty]

omit [DecidableEq T] in
theorem Ok.congr {c : History T} {err err' : T → RtErr} (h : Ok c err)
    (he : ∀ t, c.pc t = .resumed → err' t = err t) : Ok c err' :=
  { h with resumed := fun t ht => by rw [he t ht]; exact h.resumed t ht }

omit [DecidableEq T] in
theorem Ok.pass {c : History T} {err : T → RtErr} (h : Ok c err) : Ok c.pass err := by
  have hfresh : c.started ∉ c.granted := fun hk => lt_irrefl _ (h.granted_lt _ hk)
  have hne : ∀ t, c.pc t ≠ .idle → c.call t ≠ c.started :=
    fun t ht => Nat.ne_of_lt (h.call_lt t ht)
  constructor
  · intro k hk
    rcases List.mem_cons.mp hk with rfl | hk
    · exact Nat.lt_succ_self _
    · exact Nat.lt_succ_of_lt (h.granted_lt k hk)
  · intro k e hk
    rcases List.mem_cons.mp hk with hk | hk
    · cases hk
      exact Nat.lt_succ_self _
    · exact Nat.lt_succ_of_lt (h.returned_lt k e hk)
  · exact fun t ht => Nat.lt_succ_of_lt (h.call_lt t ht)
  · exact h.call_inj
  · intro t ht e hk
    rcases List.mem_cons.mp hk with hk | hk
    · exact hne t ht (Prod.ext_iff.mp hk).1
    · exact h.call_open t ht e hk
  · intro t ht hk
    have hni : c.pc t ≠ .idle := by rw [show c.pc t = .suspended from ht]; decide
    rcases List.mem_cons.mp hk with hk | hk
    · exact hne t hni hk
    · exact h.suspended t ht hk
  · intro t ht
    have hni : c.pc t ≠ .idle := by rw [show c.pc t = .resumed from ht]; decide
    rw [h.resumed t ht]
    exact ⟨List.mem_cons_of_mem _, fun hk => (List.mem_cons.mp hk).resolve_left (hne t hni)⟩
  · intro k hk
    rcases List.mem_cons.mp hk with hk | hk
    · cases hk
      exact List.mem_cons_self
    · exact List.mem_cons_of_mem _ (h.success k hk)
  · intro k e hk he hg
    rcases List.mem_cons.mp hk with hk | hk
    · cases hk
      exact he rfl
    · rcases List.mem_cons.mp hg with rfl | hg
      · exact lt_irrefl _ (h.returned_lt _ _ hk)
      · exact h.failure k e hk he hg
  · exact List.nodup_cons.mpr ⟨hfresh, h.nodup⟩

omit [DecidableEq T] in
theorem Ok.refuse {c : History T} {err : T → RtErr} (h : Ok c err) {e : RtErr} (he : e ≠ .eok) :
    Ok (c.refuse e) err := by
  constructor
  · exact fun k hk => Nat.lt_succ_of_lt (h.granted_lt k hk)
  · intro k e' hk
    rcases List.mem_cons.mp hk with hk | hk
    · cases hk
      exact Nat.lt_succ_self _
    · exact Nat.lt_succ_of_lt (h.returned_lt k e' hk)
  · exact fun t ht => Nat.lt_succ_of_lt (h.call_lt t ht)
  · exact h.call_inj
  · intro t ht e' hk
    rcases List.mem_cons.mp hk with hk | hk
    · exact Nat.ne_of_lt (h.call_lt t ht) (Prod.ext_iff.mp hk).1
    · exact h.call_open t ht e' hk
  · exact h.suspended
  · exact h.resumed
  · intro k hk
    rcases List.mem_cons.mp hk with hk | hk
    · exact absurd (Prod.ext_iff.mp hk).2.symm he
    · exact h.success k hk
  · intro k e' hk he' hg
    rcases List.mem_cons.mp hk with hk | hk
    · cases hk
      exact lt_irrefl _ (h.granted_lt _ hg)
    · exact h.failure k e' hk he' hg
  · exact h.nodup

theorem Ok.block {c : History T} {err : T → RtErr} (h : Ok c err) (t : T) : Ok (c.block t) err := by
  have hcall : ∀ u, (c.block t).pc u ≠ .idle → u ≠ t → c.pc u ≠ .idle := by
    intro u hu hut
    simpa [History.block, hut] using hu
  constructor
  · exact fun k hk => Nat.lt_succ_of_lt (h.granted_lt k hk)
  · exact fun k e hk => Nat.lt_succ_of_lt (h.returned_lt k e hk)
  · intro u hu
    by_cases hut : u = t
    · simp [History.block, hut]
    · have hlt := h.call_lt u (hcall u hu hut)
      simp only [History.block, Function.update_of_ne hut]
      omega
  · intro u v hu hv huv
    by_cases hut : u = t <;> by_cases hvt : v = t
    · rw [hut, hvt]
    · have hlt := h.call_lt v (hcall v hv hvt)
      simp only [History.block, hut, Function.update_self, Function.update_of_ne hvt] at huv
      omega
    · have hlt := h.call_lt u (hcall u hu hut)
      simp only [History.block, hvt, Function.update_self, Function.update_of_ne hut] at huv
      omega
    · simp only [History.block, Function.update_of_ne hut, Function.update_of_ne hvt] at huv
      exact h.call_inj u v (hcall u hu hut) (hcall v hv hvt) huv
  · intro u hu e hk
    by_cases hut : u = t
    · simp only [History.block, hut, Function.update_self] at hk
      exact lt_irrefl _ (h.returned_lt _ _ hk)
    · simp only [History.block, Function.update_of_ne hut] at hk
      exact h.call_open u (hcall u hu hut) e hk
  · intro u hu hk
    by_cases hut : u = t
    · simp only [History.block, hut, Function.update_self] at hk
      exact lt_irrefl _ (h.granted_lt _ hk)
    · simp only [History.block, Function.update_of_ne hut] at hu hk
      exact h.suspended u hu hk
  · intro u hu
    by_cases hut : u = t
    · simp [History.block, hut] at hu
    · simp only [History.block, Function.update_of_ne hut] at hu ⊢
      exact h.resumed u hu
  · exact h.success
  · exact h.failure
  · exact h.nodup

theorem Ok.grant {c : History T} {err : T → RtErr} (h : Ok c err) {t : T}
    (ht : c.pc t = .suspended) (he : err t = .eok) : Ok (c.grant t) err := by
  have hni : c.pc t ≠ .idle := by rw [ht]; decide
  have hpc : ∀ u, (c.grant t).pc u ≠ .idle → c.pc u ≠ .idle := by
    intro u hu
    by_cases hut : u = t
    · rw [hut]; exact hni
    · simpa [History.grant, hut] using hu
  constructor
  · intro k hk
    rcases List.mem_cons.mp hk with rfl | hk
    · exact h.call_lt t hni
    · exact h.granted_lt k hk
  · exact h.returned_lt
  · exact fun u hu => h.call_lt u (hpc u hu)
  · exact fun u v hu hv => h.call_inj u v (hpc u hu) (hpc v hv)
  · exact fun u hu => h.call_open u (hpc u hu)
  · intro u hu hk
    have hut : u ≠ t := by
      rintro rfl
      simp [History.grant] at hu
    simp only [History.grant, Function.update_of_ne hut] at hu
    rcases List.mem_cons.mp hk with hk | hk
    · exact hut (h.call_inj u t (by rw [hu]; decide) hni hk)
    · exact h.suspended u hu hk
  · intro u hu
    by_cases hut : u = t
    · subst hut
      exact iff_of_true he List.mem_cons_self
    · simp only [History.grant, Function.update_of_ne hut] at hu
      rw [h.resumed u hu]
      refine ⟨List.mem_cons_of_mem _, fun hk => (List.mem_cons.mp hk).resolve_left fun hc => ?_⟩
      exact hut (h.call_inj u t (by rw [hu]; decide) hni hc)
  · exact fun k hk => List.mem_cons_of_mem _ (h.success k hk)
  · intro k e hk he' hg
    rcases List.mem_cons.mp hg with rfl | hg
    · exact h.call_open t hni e hk
    · exact h.failure k e hk he' hg
  · exact List.nodup_cons.mpr ⟨h.suspended t ht, h.nodup⟩

theorem Ok.expire {c : History T} {err : T → RtErr} (h : Ok c err) {t : T}
    (ht : c.pc t = .suspended) {e : RtErr} (he : e ≠ .eok) :
    Ok (c.expire t) (Function.update err t e) := by
  have hni : c.pc t ≠ .idle := by rw [ht]; decide
  have hpc : ∀ u, (c.expire t).pc u ≠ .idle → c.pc u ≠ .idle := by
    intro u hu
    by_cases hut : u = t
    · rw [hut]; exact hni
    · simpa [History.expire, hut] using hu
  constructor
  · exact h.granted_lt
  · exact h.returned_lt
  · exact fun u hu => h.call_lt u (hpc u hu)
  · exact fun u v hu hv => h.call_inj u v (hpc u hu) (hpc v hv)
  · exact fun u hu => h.call_open u (hpc u hu)
  · intro u hu
    have hut : u ≠ t := by
      rintro rfl
      simp [History.expire] at hu
    simp only [History.expire, Function.update_of_ne hut] at hu
    exact h.suspended u hu
  · intro u hu
    by_cases hut : u = t
    · subst hut
      rw [Function.update_self]
      exact iff_of_false he (h.suspended u ht)
    · simp only [History.expire, Function.update_of_ne hut] at hu ⊢
      exact h.resumed u hu
  · exact h.success
  · exact h.failure
  · exact h.nodup

theorem Ok.finish {c : History T} {err : T → RtErr} (h : Ok c err) {t : T}
    (ht : c.pc t = .resumed) : Ok (c.finish t (err t)) err := by
  have hni : c.pc t ≠ .idle := by rw [ht]; decide
  have hne : ∀ u, (c.finish t (err t)).pc u ≠ .idle → u ≠ t ∧ c.pc u ≠ .idle := by
    intro u hu
    by_cases hut : u = t
    · simp [History.finish, hut] at hu
    · exact ⟨hut, by simpa [History.finish, hut] using hu⟩
  have hpc : ∀ u, u ≠ t → (c.finish t (err t)).pc u = c.pc u :=
    fun u hut => Function.update_of_ne hut _ _
  have hself : (c.finish t (err t)).pc t = .idle := Function.update_self ..
  constructor
  · exact h.granted_lt
  · intro k e hk
    rcases List.mem_cons.mp hk with hk | hk
    · cases hk
      exact h.call_lt t hni
    · exact h.returned_lt k e hk
  · exact fun u hu => h.call_lt u (hne u hu).2
  · exact fun u v hu hv => h.call_inj u v (hne u hu).2 (hne v hv).2
  · intro u hu e hk
    rcases List.mem_cons.mp hk with hk | hk
    · exact (hne u hu).1 (h.call_inj u t (hne u hu).2 hni (Prod.ext_iff.mp hk).1)
    · exact h.call_open u (hne u hu).2 e hk
  · intro u hu
    have hut : u ≠ t := by
      rintro rfl
      rw [hself] at hu
      exact absurd hu (by decide)
    exact h.suspended u (by rw [← hpc u hut]; exact hu)
  · intro u hu
    have hut : u ≠ t := by
      rintro rfl
      rw [hself] at hu
      exact absurd hu (by decide)
    exact h.resumed u (by rw [← hpc u hut]; exact hu)
  · intro k hk
    rcases List.mem_cons.mp hk with hk | hk
    · obtain ⟨rfl, he⟩ := Prod.ext_iff.mp hk
      exact (h.resumed t ht).mp he.symm
    · exact h.success k hk
  · intro k e hk he hg
    rcases List.mem_cons.mp hk with hk | hk
    · cases hk
      exact he ((h.resumed t ht).mpr hg)
    · exact h.failure k e hk he hg
  · exact h.nodup

end RtThread.Ipc.Calls
