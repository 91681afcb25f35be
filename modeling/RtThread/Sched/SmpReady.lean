import RtThread.Lib.Transition
import RtThread.Sched.Bitmap

/-!
# The ready tables of several CPUs (`scheduler.c:126-168`, `587-650`, `697-747`, `RT_USING_SMP`)

Threads that are bound to no CPU are ready in the global tables, the others in the tables of their CPU.
There are more than 32 priorities, so each table has a byte for eight of them. Threads are not running on
a CPU while they are inserted and removed, and keep their priority and their CPU.
-/

namespace RtThread.Sched.SmpReady

open RtThread.Sched.Bitmap RtThread.Lib.Transition

/-- The priority lists with their bitmap: `rt_thread_priority_table`, `rt_thread_ready_table` and
`rt_thread_ready_priority_group`, or the fields of the same purpose in `struct rt_cpu`. -/
structure Ready (T : Type*) where
  priorityTable : ℕ → List T
  bits : Bits

/-- The fields of `struct rt_thread` used here; `bindCpu` is empty for `RT_CPUS_NR`. -/
structure Thread (C : Type*) where
  currentPriority : ℕ
  bindCpu : Option C

structure State (T C : Type*) where
  shared : Ready T
  cpu : C → Ready T

variable {T C : Type*}

def Ready.empty : Ready T := ⟨fun _ => [], .empty⟩

def State.init : State T C := ⟨.empty, fun _ => .empty⟩

/-- `number`, `number_mask` and `high_mask`, set when the thread is started. -/
def Thread.masks (prioMax : ℕ) (thread : Thread C) : Masks := masksOf prioMax thread.currentPriority

def Ready.insert (prioMax : ℕ) (r : Ready T) (t : T) (thread : Thread C) : Ready T where
  priorityTable := Function.update r.priorityTable thread.currentPriority (r.priorityTable thread.currentPriority ++ [t])
  bits := r.bits.set prioMax (thread.masks prioMax)

/-- The bits of a bound thread are cleared (`scheduler.c:734-738`): the byte is that of the CPU, and the
byte that is looked at is the global one. -/
def clearBound (global b : Bits) (m : Masks) : Bits where
  group := if global.readyTable m.number = 0 then b.group &&& ~~~m.numberMask else b.group
  readyTable := Function.update b.readyTable m.number (b.readyTable m.number &&& ~~~m.highMask)

variable [DecidableEq T] [DecidableEq C]

/-- `rt_list_remove`, and then `clear` when the list is empty. -/
def Ready.remove (r : Ready T) (t : T) (thread : Thread C) (clear : Bits → Bits) : Ready T :=
  let list := (r.priorityTable thread.currentPriority).erase t
  { priorityTable := Function.update r.priorityTable thread.currentPriority list
    bits := if list = [] then clear r.bits else r.bits }

omit [DecidableEq T] in
/-- `rt_schedule_insert_thread` (`scheduler.c:587-650`). -/
def rtScheduleInsertThread (prioMax : ℕ) (thread : T → Thread C) (s : State T C) (t : T) : State T C :=
  match (thread t).bindCpu with
  | none => { s with shared := s.shared.insert prioMax t (thread t) }
  | some c => { s with cpu := Function.update s.cpu c ((s.cpu c).insert prioMax t (thread t)) }

/-- `rt_schedule_remove_thread` (`scheduler.c:697-747`). -/
def rtScheduleRemoveThread (prioMax : ℕ) (thread : T → Thread C) (s : State T C) (t : T) : State T C :=
  match (thread t).bindCpu with
  | none =>
    { s with shared := s.shared.remove t (thread t) fun b => b.clear prioMax ((thread t).masks prioMax) }
  | some c =>
    { s with cpu := Function.update s.cpu c ((s.cpu c).remove t (thread t) fun b =>
        clearBound s.shared.bits b ((thread t).masks prioMax)) }

/-- `number` and the priority computed from it (`scheduler.c:142-143`, `144-145`); `none` when `number`
is not an index of `ready_table`. -/
def readyPriority (b : Bits) : Option ℕ :=
  let number := (rtFfs b.group + (2 ^ 32 - 1)) % 2 ^ 32
  if number < 32 then
    some (((number <<< 3) + rtFfs ((b.readyTable number).setWidth 32) + (2 ^ 32 - 1)) % 2 ^ 32)
  else none

omit [DecidableEq T] [DecidableEq C] in
/-- The first thread of a list; `none` when its head is taken for a thread. -/
def Ready.first (r : Ready T) (p : ℕ) : Option (T × ℕ) := (r.priorityTable p).head?.map fun t => (t, p)

omit [DecidableEq T] [DecidableEq C] in
/-- `_get_highest_priority_thread` on the CPU `c`, which runs `current` (`scheduler.c:126-168`). -/
def getHighestPriorityThread (thread : T → Thread C) (s : State T C) (c : C) (current : T) : Option (T × ℕ) :=
  if s.shared.bits.group = 0 ∧ (s.cpu c).bits.group = 0 then some (current, (thread current).currentPriority)
  else
    (readyPriority s.shared.bits).bind fun highest =>
      (readyPriority (s.cpu c).bits).bind fun localHighest =>
        if highest < localHighest then s.shared.first highest else (s.cpu c).first localHighest

/-! ### What the tables should be -/

omit [DecidableEq T] in
/-- A bit of the table for each priority whose list is not empty, and a bit of the group for each byte that
is not zero. -/
structure Ready.Consistent (prioMax : ℕ) (r : Ready T) : Prop where
  marked : ∀ p, r.bits.Marked prioMax p ↔ r.priorityTable p ≠ []
  grouped : ∀ n, r.bits.group.getLsbD n = true ↔ r.bits.readyTable n ≠ 0

omit [DecidableEq T] [DecidableEq C] in
def Consistent (prioMax : ℕ) (s : State T C) : Prop :=
  s.shared.Consistent prioMax ∧ ∀ c, (s.cpu c).Consistent prioMax

omit [DecidableEq T] [DecidableEq C] in
/-- The choice is the first thread of a list of the least priority number in both tables, or the current
thread when there is none. -/
def Chooses (thread : T → Thread C) (s : State T C) (c : C) (current : T) : Prop :=
  ∃ t p, getHighestPriorityThread thread s c current = some (t, p) ∧
    ((∀ q, s.shared.priorityTable q = [] ∧ (s.cpu c).priorityTable q = []) ∧ t = current ∧
        p = (thread current).currentPriority ∨
      ((s.shared.priorityTable p).head? = some t ∨ ((s.cpu c).priorityTable p).head? = some t) ∧
        ∀ q < p, s.shared.priorityTable q = [] ∧ (s.cpu c).priorityTable q = [])

/-- `choose c current` is a call of `_get_highest_priority_thread`. -/
inductive Act (T C : Type*) where
  | insert (t : T)
  | remove (t : T)
  | choose (c : C) (current : T)

omit [DecidableEq C] in
def State.list (s : State T C) (thread : Thread C) : List T :=
  match thread.bindCpu with
  | none => s.shared.priorityTable thread.currentPriority
  | some c => (s.cpu c).priorityTable thread.currentPriority

def step (prioMax : ℕ) (thread : T → Thread C) (s : State T C) : Act T C → Option (State T C)
  | .insert t => if t ∉ s.list (thread t) then some (rtScheduleInsertThread prioMax thread s t) else none
  | .remove t => some (rtScheduleRemoveThread prioMax thread s t)
  | .choose _ _ => some s

/-- What is claimed of a step: the calls of `_get_highest_priority_thread` choose as they should. -/
def ChoosesRight (thread : T → Thread C) (s : State T C) : Act T C → Prop
  | .choose c current => Chooses thread s c current
  | _ => True

/-- When a bound thread leaves its list empty, the global table has no thread in its octet exactly if the
table of the CPU has none left there; and a choice is made when both tables have ready threads or neither. -/
def OctetsAgree (prioMax : ℕ) (thread : T → Thread C) (s : State T C) : Act T C → Prop
  | .insert _ => True
  | .remove t =>
    match (thread t).bindCpu with
    | none => True
    | some c =>
      let m := (thread t).masks prioMax
      let byte := (s.cpu c).bits.readyTable m.number
      ((s.cpu c).priorityTable (thread t).currentPriority).erase t = [] → byte ≠ 0 →
        (s.shared.bits.readyTable m.number = 0 ↔ byte &&& ~~~m.highMask = 0)
  | .choose c _ => s.shared.bits.group = 0 ↔ (s.cpu c).bits.group = 0

/-! ### One table -/

section Table

variable {prioMax : ℕ} {thread : Thread C} {r : Ready T} {t : T}

omit [DecidableEq T] [DecidableEq C] in
theorem consistent_empty : (Ready.empty : Ready T).Consistent prioMax :=
  ⟨fun p => iff_of_false (not_marked_empty prioMax p) (not_not.mpr rfl), fun n => by simp [Ready.empty, Bits.empty]⟩

omit [DecidableEq T] [DecidableEq C] in
theorem Ready.Consistent.insert (h : r.Consistent prioMax) (hmin : 32 < prioMax) (hmax : prioMax ≤ 256)
    (hp : thread.currentPriority < prioMax) (t : T) : (r.insert prioMax t thread).Consistent prioMax := by
  constructor
  · intro p
    simp only [Ready.insert, Thread.masks]
    rw [marked_set hmax hp]
    by_cases hpp : p = thread.currentPriority
    · rw [hpp, Function.update_self]
      exact iff_of_true (.inl rfl) (List.append_ne_nil_of_right_ne_nil _ (List.cons_ne_nil t []))
    · rw [Function.update_of_ne hpp, or_iff_right hpp]
      exact h.marked p
  · exact grouped_set hmax hp (fun _ => h.grouped) hmin

omit [DecidableEq C] in
theorem Ready.Consistent.remove_marked (h : r.Consistent prioMax) (hmax : prioMax ≤ 256)
    (hp : thread.currentPriority < prioMax) {clear : Bits → Bits}
    (hclear : ∀ b p, (clear b).Marked prioMax p ↔ (b.clear prioMax (thread.masks prioMax)).Marked prioMax p) (p : ℕ) :
    (r.remove t thread clear).bits.Marked prioMax p ↔ (r.remove t thread clear).priorityTable p ≠ [] := by
  simp only [Ready.remove]
  by_cases hempty : (r.priorityTable thread.currentPriority).erase t = []
  · rw [if_pos hempty, hclear, Thread.masks, marked_clear hmax hp, hempty]
    by_cases hpp : p = thread.currentPriority
    · rw [hpp, Function.update_self]
      exact iff_of_false (fun hc => hc.1 rfl) (not_not.mpr rfl)
    · rw [Function.update_of_ne hpp, and_iff_right hpp]
      exact h.marked p
  · rw [if_neg hempty, h.marked]
    by_cases hpp : p = thread.currentPriority
    · rw [hpp, Function.update_self]
      exact iff_of_true (fun he => hempty (by rw [he, List.erase_nil])) hempty
    · rw [Function.update_of_ne hpp]

theorem getLsbD_clear (v : BitVec 32) {i : ℕ} (hi : i < 32) (n : ℕ) :
    (v &&& ~~~(1#32 <<< i)).getLsbD n = true ↔ n ≠ i ∧ v.getLsbD n = true := by
  rw [BitVec.getLsbD_and, BitVec.getLsbD_not, getLsbD_one_shiftLeft hi]
  by_cases hn : n < 32
  · simp [hn, and_comm]
  · simp [BitVec.getLsbD_of_ge v n (Nat.le_of_not_lt hn)]

theorem grouped_clearBound_iff {prioMax p : ℕ} {global b : Bits} (hmin : 32 < prioMax) (hmax : prioMax ≤ 256)
    (hp : p < prioMax) (hb : ∀ n, b.group.getLsbD n = true ↔ b.readyTable n ≠ 0) :
    (∀ n, (clearBound global b (masksOf prioMax p)).group.getLsbD n = true ↔
        (clearBound global b (masksOf prioMax p)).readyTable n ≠ 0) ↔
      (b.readyTable (masksOf prioMax p).number ≠ 0 → (global.readyTable (masksOf prioMax p).number = 0 ↔
        b.readyTable (masksOf prioMax p).number &&& ~~~(masksOf prioMax p).highMask = 0)) := by
  obtain ⟨hnum, -⟩ := coords_lt hmax hp hmin
  simp only [clearBound, masksOf, if_pos hmin]
  generalize hk : p >>> 3 = k at hnum
  generalize (~~~(1#8 <<< (p &&& 7)) : BitVec 8) = mask
  have hother : ∀ n, n ≠ k →
      ((if global.readyTable k = 0 then b.group &&& ~~~(1#32 <<< k) else b.group).getLsbD n = true ↔
        Function.update b.readyTable k (b.readyTable k &&& mask) n ≠ 0) := by
    intro n hn
    rw [Function.update_of_ne hn, ← hb n]
    split
    · rw [getLsbD_clear _ hnum, and_iff_right hn]
    · exact Iff.rfl
  have hown : (∀ n, (if global.readyTable k = 0 then b.group &&& ~~~(1#32 <<< k) else b.group).getLsbD n = true ↔
        Function.update b.readyTable k (b.readyTable k &&& mask) n ≠ 0) ↔
      ((if global.readyTable k = 0 then b.group &&& ~~~(1#32 <<< k) else b.group).getLsbD k = true ↔
        b.readyTable k &&& mask ≠ 0) := by
    constructor
    · intro h
      have hself := h k
      rw [Function.update_self] at hself
      exact hself
    · intro h n
      by_cases hn : n = k
      · rw [hn, Function.update_self]
        exact h
      · exact hother n hn
  rw [hown]
  by_cases hg : global.readyTable k = 0
  · rw [if_pos hg, getLsbD_clear _ hnum]
    simp only [ne_eq, not_true_eq_false, false_and, false_iff, not_not, hg, true_iff]
    refine ⟨fun h _ => h, fun h => ?_⟩
    by_cases hzero : b.readyTable k = 0
    · rw [hzero]
      exact BitVec.zero_and
    · exact h hzero
  · rw [if_neg hg, hb]
    simp only [hg, false_iff, ne_eq]
    refine ⟨fun h hne => h.mp hne, fun h => ⟨h, fun hne hzero => hne ?_⟩⟩
    rw [hzero]
    exact BitVec.zero_and

end Table

/-! ### The choice -/

section Choice

variable {prioMax : ℕ}

omit [DecidableEq T] [DecidableEq C] in
theorem readyPriority_of_ne_zero {r : Ready T} (h : r.Consistent prioMax) (hmin : 32 < prioMax)
    (hgroup : r.bits.group ≠ 0) : ∃ p, readyPriority r.bits = some p ∧ r.priorityTable p ≠ [] ∧
      ∀ q < p, r.priorityTable q = [] := by
  obtain ⟨hmarked, hleast⟩ := highest_spec (fun _ => h.grouped) hgroup
  refine ⟨r.bits.highest prioMax, ?_, (h.marked _).mp hmarked, fun q hq => ?_⟩
  · obtain ⟨i, hi, hset, -⟩ := rtFfs_spec hgroup
    have hi32 : i < 32 := by
      by_contra hge
      rw [BitVec.getLsbD_of_ge _ _ (Nat.le_of_not_lt hge)] at hset
      cases hset
    have hnumber : (i + 1 + (2 ^ 32 - 1)) % 2 ^ 32 = i := by omega
    have hwide : (r.bits.readyTable i).setWidth 32 ≠ 0 := by
      intro hzero
      refine (h.grouped i).mp hset (BitVec.eq_of_getLsbD_eq fun j hj => ?_)
      have hbit := congrArg (fun v => v.getLsbD j) hzero
      simp only [BitVec.getLsbD_setWidth] at hbit
      simpa [show j < 32 by omega] using hbit
    obtain ⟨k, hk, hkset, -⟩ := rtFfs_spec hwide
    have hk32 : k < 32 := by
      by_contra hge
      rw [BitVec.getLsbD_of_ge _ _ (Nat.le_of_not_lt hge)] at hkset
      cases hkset
    simp only [readyPriority, hi, hnumber, if_pos hi32, hk, Bits.highest, if_pos hmin, Nat.add_sub_cancel, Nat.shiftLeft_eq]
    rw [Option.some.injEq]
    omega
  · by_contra hne
    exact hleast q hq ((h.marked q).mpr hne)

theorem readyPriority_of_eq_zero {b : Bits} (hgroup : b.group = 0) : readyPriority b = none := by
  have hffs : rtFfs b.group = 0 := by rw [hgroup, rtFfs, if_pos rfl]
  rw [readyPriority, hffs]
  exact if_neg (by decide)

omit [DecidableEq T] [DecidableEq C] in
theorem Ready.Consistent.group_eq_zero_iff {r : Ready T} (h : r.Consistent prioMax) :
    r.bits.group = 0 ↔ ∀ p, r.priorityTable p = [] := by
  rw [Bitmap.group_eq_zero_iff (fun _ => h.grouped)]
  exact forall_congr' fun p => by rw [h.marked p, not_not]

omit [DecidableEq T] [DecidableEq C] in
theorem first_of_ne_nil {r : Ready T} {p : ℕ} (h : r.priorityTable p ≠ []) :
    ∃ t, r.first p = some (t, p) ∧ (r.priorityTable p).head? = some t := by
  obtain ⟨t, rest, hlist⟩ := List.exists_cons_of_ne_nil h
  exact ⟨t, by rw [Ready.first, hlist]; rfl, by rw [hlist]; rfl⟩

omit [DecidableEq T] [DecidableEq C] in
/-- With the tables as they should be, the choice is right exactly if both of them or none of them has
ready threads. -/
theorem chooses_iff {thread : T → Thread C} {s : State T C} (h : Consistent prioMax s) (hmin : 32 < prioMax) (c : C)
    (current : T) : Chooses thread s c current ↔ (s.shared.bits.group = 0 ↔ (s.cpu c).bits.group = 0) := by
  obtain ⟨hshared, hcpu⟩ := h
  have hlocal := hcpu c
  by_cases hg : s.shared.bits.group = 0
  · by_cases hl : (s.cpu c).bits.group = 0
    · refine iff_of_true ⟨current, _, if_pos ⟨hg, hl⟩, .inl ⟨fun q => ?_, rfl, rfl⟩⟩ (iff_of_true hg hl)
      exact ⟨hshared.group_eq_zero_iff.mp hg q, hlocal.group_eq_zero_iff.mp hl q⟩
    · refine iff_of_false (fun ⟨t, p, hget, _⟩ => ?_) fun hiff => hl (hiff.mp hg)
      rw [getHighestPriorityThread, if_neg fun hboth => hl hboth.2, readyPriority_of_eq_zero hg] at hget
      cases hget
  · obtain ⟨p, hp, hpne, hpleast⟩ := readyPriority_of_ne_zero hshared hmin hg
    by_cases hl : (s.cpu c).bits.group = 0
    · refine iff_of_false (fun ⟨t, q, hget, _⟩ => ?_) fun hiff => hg (hiff.mpr hl)
      rw [getHighestPriorityThread, if_neg fun hboth => hg hboth.1, hp, readyPriority_of_eq_zero hl] at hget
      cases hget
    · obtain ⟨l, hlp, hlne, hlleast⟩ := readyPriority_of_ne_zero hlocal hmin hl
      refine iff_of_true ?_ (iff_of_false hg hl)
      have hget : getHighestPriorityThread thread s c current = if p < l then s.shared.first p else (s.cpu c).first l := by
        rw [getHighestPriorityThread, if_neg fun hboth => hg hboth.1, hp, hlp]
        rfl
      by_cases hlt : p < l
      · obtain ⟨t, hfirst, hhead⟩ := first_of_ne_nil hpne
        rw [if_pos hlt] at hget
        exact ⟨t, p, hget.trans hfirst, .inr ⟨.inl hhead, fun q hq => ⟨hpleast q hq, hlleast q (hq.trans hlt)⟩⟩⟩
      · obtain ⟨t, hfirst, hhead⟩ := first_of_ne_nil hlne
        rw [if_neg hlt] at hget
        exact ⟨t, l, hget.trans hfirst,
          .inr ⟨.inr hhead, fun q hq => ⟨hpleast q (hq.trans_le (Nat.le_of_not_lt hlt)), hlleast q hq⟩⟩⟩

end Choice

/-! ### Runs -/

section Runs

variable {prioMax : ℕ} {thread : T → Thread C} {s s' : State T C}

omit [DecidableEq T] in
theorem consistent_update {c : C} {r : Ready T} (h : Consistent prioMax s) :
    Consistent prioMax { s with cpu := Function.update s.cpu c r } ↔ r.Consistent prioMax := by
  constructor
  · intro hall
    have hself := hall.2 c
    simp only [Function.update_self] at hself
    exact hself
  · intro hr
    refine ⟨h.1, fun d => ?_⟩
    simp only
    by_cases hdc : d = c
    · rw [hdc, Function.update_self]
      exact hr
    · rw [Function.update_of_ne hdc]
      exact h.2 d

omit [DecidableEq T] in
theorem consistent_insert (h : Consistent prioMax s) (hmin : 32 < prioMax) (hmax : prioMax ≤ 256) {t : T}
    (ht : (thread t).currentPriority < prioMax) : Consistent prioMax (rtScheduleInsertThread prioMax thread s t) := by
  unfold rtScheduleInsertThread
  cases (thread t).bindCpu with
  | none => exact ⟨h.1.insert hmin hmax ht t, h.2⟩
  | some c => exact (consistent_update h).mpr ((h.2 c).insert hmin hmax ht t)

theorem consistent_remove (h : Consistent prioMax s) (hmin : 32 < prioMax) (hmax : prioMax ≤ 256) {t : T}
    (ht : (thread t).currentPriority < prioMax) :
    Consistent prioMax (rtScheduleRemoveThread prioMax thread s t) ↔ OctetsAgree prioMax thread s (.remove t) := by
  cases hbind : (thread t).bindCpu with
  | none =>
    simp only [rtScheduleRemoveThread, OctetsAgree, hbind]
    refine iff_of_true ⟨⟨h.1.remove_marked hmax ht fun _ _ => Iff.rfl, ?_⟩, h.2⟩ trivial
    simp only [Ready.remove]
    split
    · exact grouped_clear hmax ht (fun _ => h.1.grouped) hmin
    · exact h.1.grouped
  | some c =>
    simp only [rtScheduleRemoveThread, OctetsAgree, hbind]
    rw [consistent_update h]
    have hmarked := @Ready.Consistent.remove_marked T C _ prioMax (thread t) (s.cpu c) t (h.2 c) hmax ht
      (fun b => clearBound s.shared.bits b ((thread t).masks prioMax)) fun b p => by
        simp only [Bits.Marked, clearBound, Bits.clear, if_pos hmin]
    by_cases hempty : ((s.cpu c).priorityTable (thread t).currentPriority).erase t = []
    · have hiff := @grouped_clearBound_iff prioMax (thread t).currentPriority s.shared.bits (s.cpu c).bits hmin hmax ht
        (h.2 c).grouped
      have hbits : ((s.cpu c).remove t (thread t) fun b => clearBound s.shared.bits b ((thread t).masks prioMax)).bits =
          clearBound s.shared.bits (s.cpu c).bits ((thread t).masks prioMax) := if_pos hempty
      rw [forall_prop_of_true hempty, Thread.masks, ← hiff, ← Thread.masks, ← hbits]
      exact ⟨fun hc => hc.grouped, fun hgrouped => ⟨hmarked, hgrouped⟩⟩
    · refine iff_of_true ⟨hmarked, ?_⟩ fun he => absurd he hempty
      simp only [Ready.remove, if_neg hempty]
      exact (h.2 c).grouped

/-- The states of a run have consistent tables and the choices in it are right exactly if the octets agree
at each of its steps. -/
theorem ready_tables_right_iff (hmin : 32 < prioMax) (hmax : prioMax ≤ 256)
    (hprio : ∀ t, (thread t).currentPriority < prioMax) (acts : List (Act T C)) :
    AllStates (step prioMax thread) (Consistent prioMax) State.init acts ∧
        AllSteps (step prioMax thread) (ChoosesRight thread) State.init acts ↔
      AllSteps (step prioMax thread) (OctetsAgree prioMax thread) State.init acts := by
  refine allStates_and_allSteps_iff (Consistent prioMax) (ChoosesRight thread) (OctetsAgree prioMax thread)
    (fun s a s' h hstep => ?_) acts ⟨consistent_empty, fun _ => consistent_empty⟩
  cases a with
  | insert t =>
    simp only [step, Option.ite_none_right_eq_some, Option.some.injEq] at hstep
    rw [← hstep.2]
    exact iff_of_true ⟨consistent_insert h hmin hmax (hprio t), trivial⟩ trivial
  | remove t =>
    cases hstep
    exact (and_iff_left trivial).trans (consistent_remove h hmin hmax (hprio t))
  | choose c current =>
    cases hstep
    exact (and_iff_right h).trans (chooses_iff h hmin c current)

end Runs

instance (prioMax : ℕ) (thread : T → Thread C) (s : State T C) : (a : Act T C) → Decidable (OctetsAgree prioMax thread s a)
  | .insert _ => isTrue trivial
  | .remove t =>
    match h : (thread t).bindCpu with
    | none => isTrue (by simp only [OctetsAgree, h])
    | some c => decidable_of_iff
        (((s.cpu c).priorityTable (thread t).currentPriority).erase t = [] →
          (s.cpu c).bits.readyTable ((thread t).masks prioMax).number ≠ 0 →
          (s.shared.bits.readyTable ((thread t).masks prioMax).number = 0 ↔
            (s.cpu c).bits.readyTable ((thread t).masks prioMax).number &&& ~~~((thread t).masks prioMax).highMask = 0))
        (by simp only [OctetsAgree, h])
  | .choose c _ => decidable_of_iff (s.shared.bits.group = 0 ↔ (s.cpu c).bits.group = 0) Iff.rfl

/-- Thread 0 is bound to no CPU, thread 1 to the CPU 0 in the same octet, and thread 2 in another one. -/
def threads : Fin 3 → Thread (Fin 1)
  | 0 => ⟨3, none⟩
  | 1 => ⟨2, some 0⟩
  | 2 => ⟨20, some 0⟩

theorem ready_tables_right_iff_run :
    AllStates (step 256 threads) (Consistent 256) State.init [.insert 0, .insert 2, .choose 0 0, .remove 2, .remove 0, .choose 0 1] ∧
      AllSteps (step 256 threads) (ChoosesRight threads) State.init
        [.insert 0, .insert 2, .choose 0 0, .remove 2, .remove 0, .choose 0 1] :=
  (ready_tables_right_iff (by decide) (by decide) (by decide) _).mpr (by decide)

/-- Thread 1 leaves its list while thread 0 is ready in the same octet of the global table: the group of the
CPU keeps a bit for an empty byte. And with no bound thread ready, the choice reads outside of the table. -/
theorem ready_tables_go_wrong :
    ¬AllStates (step 256 threads) (Consistent 256) State.init [.insert 0, .insert 1, .remove 1] ∧
      ¬AllSteps (step 256 threads) (ChoosesRight threads) State.init [.insert 0, .choose 0 1] := by
  constructor
  · intro h
    have hgrouped := ((((h.2 _ rfl).2 _ rfl).2 _ rfl).head.2 0).grouped 0
    exact absurd hgrouped (by decide)
  · intro h
    obtain ⟨t, p, hget, -⟩ := ((h _ rfl).2 _ rfl).1
    have hnone : getHighestPriorityThread threads (rtScheduleInsertThread 256 threads State.init 0) 0 1 = none := by
      decide
    rw [hnone] at hget
    cases hget

end RtThread.Sched.SmpReady
