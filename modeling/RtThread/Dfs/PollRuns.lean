import RtThread.Dfs.Poll

/-!
# What a call of `poll` relies on and what it returns

The results are about one thread in runs of any number of threads: the number that the call returns,
what becomes of it once a node of it has been woken, and when it is suspended.
-/

namespace RtThread.Dfs.Poll

open RtThread.Lib.Transition

variable {T F Q : Type*}

/-! ### The entries that have been counted -/

/-- What the place of a thread says about its call. -/
def Place.Here (c : Call) : Place Q → Prop
  | .adding _ => c.n < c.fds.length
  | .scanned => c.n = c.fds.length
  | .waiting | .ready => c.n = c.fds.length ∧ c.num = 0 ∧ c.istimeout = false
  | .suspended _ => c.n = c.fds.length ∧ c.num = 0 ∧ c.istimeout = false ∧ c.triggered = false
  | .leaving => c.n = c.fds.length ∧ (0 < c.num ∨ c.istimeout = true)
  | .idle | .blocked _ => True

def reported (fds : List Pollfd) : ℕ := fds.countP fun p => p.revents != 0

/-- `num` is the number of entries with events among those the loop has passed. -/
structure Counted (c : Call) (place : Place Q) : Prop where
  within : c.n ≤ c.fds.length
  num_eq : c.num = reported (c.fds.take c.n)
  here : place.Here c

theorem Call.next_here (files : Files F Q) (c : Call) (hwithin : c.n ≤ c.fds.length) : (c.next files).Here c := by
  unfold Call.next
  cases hget : c.fds[c.n]? with
  | none => exact Nat.le_antisymm hwithin (List.getElem?_eq_none_iff.mp hget)
  | some p => exact (List.getElem?_eq_some_iff.mp hget).1

theorem Call.again_counted (files : Files F Q) (c : Call) : Counted c.again (c.again.next files) :=
  ⟨Nat.zero_le _, by rfl, c.again.next_here files (Nat.zero_le _)⟩

theorem setWidth_ne_zero {m : BitVec 32} (hm : m.toNat < 32) : m.setWidth 16 ≠ 0 ↔ m ≠ 0 := by
  refine not_congr ⟨fun h => ?_, fun h => by rw [h]; rfl⟩
  have htoNat := congrArg BitVec.toNat h
  rw [BitVec.toNat_setWidth, Nat.mod_eq_of_lt (lt_trans hm (by norm_num))] at htoNat
  exact BitVec.eq_of_toNat_eq htoNat

theorem Files.doPollfd_lt (files : Files F Q) {mask : F → BitVec 32} (hmask : ∀ f, (mask f).toNat < 32) (p : Pollfd) :
    (files.doPollfd mask p).toNat < 32 := by
  unfold Files.doPollfd
  split
  · split
    · decide
    · next f _ =>
      rw [BitVec.toNat_and]
      refine lt_of_le_of_lt Nat.and_le_left ?_
      split
      · exact hmask f
      · decide
  · decide

theorem Call.checked_counted (files : Files F Q) {mask : F → BitVec 32} (hmask : ∀ f, (mask f).toNat < 32)
    {c : Call} {place : Place Q} {p : Pollfd} (h : Counted c place) (hp : c.fds[c.n]? = some p) :
    Counted (c.checked files mask p) ((c.checked files mask p).next files) := by
  obtain ⟨hlt, hget⟩ := List.getElem?_eq_some_iff.mp hp
  have hwithin : (c.checked files mask p).n ≤ (c.checked files mask p).fds.length := by
    rw [checked_n, checked_fds, List.length_set]
    exact hlt
  refine ⟨hwithin, ?_, Call.next_here files _ hwithin⟩
  have htake : (c.checked files mask p).fds.take (c.checked files mask p).n =
      c.fds.take c.n ++ [{ p with revents := (files.doPollfd mask p).setWidth 16 }] := by
    rw [checked_n, checked_fds, List.take_succ_eq_append_getElem (by rw [List.length_set]; exact hlt),
      List.take_set_of_le (Nat.le_refl _), List.getElem_set_self]
  rw [htake, reported, List.countP_append, ← reported, ← h.num_eq]
  by_cases hzero : files.doPollfd mask p = 0
  · rw [checked_of_zero _ _ _ _ hzero, hzero]
    rfl
  · have hne := (setWidth_ne_zero (files.doPollfd_lt hmask p)).mpr hzero
    rw [checked_of_ne _ _ _ _ hzero, List.countP_singleton, if_pos (bne_iff_ne.mpr hne)]

variable {files : Files F Q} {mask : F → BitVec 32} {t : T}

theorem Counted.moves (hmask : ∀ f, (mask f).toNat < 32) {a : Act T F Q} {place place' : Place Q} {c c' : Call}
    (h : Counted c place) (hmove : Moves files mask t a place c place' c') : Counted c' place' := by
  cases hmove with
  | poll fds msec c => exact ⟨Nat.zero_le _, by rfl, Call.next_here files _ (Nat.zero_le _)⟩
  | add room q rest c => exact ⟨h.within, h.num_eq, h.here⟩
  | check p c hp => exact Call.checked_counted files hmask h hp
  | leave c hend => exact ⟨h.within, h.num_eq, h.here, hend⟩
  | stay c hnum htimeout => exact ⟨h.within, h.num_eq, h.here, hnum, htimeout⟩
  | suspend timer c htriggered => exact ⟨h.within, h.num_eq, h.here.1, h.here.2.1, h.here.2.2, htriggered⟩
  | pass c => exact Call.again_counted files c
  | expire c => exact ⟨h.within, h.num_eq, h.here.1, h.here.2.1, h.here.2.2.1⟩
  | back c => exact Call.again_counted files c
  | teardown c => exact ⟨h.within, h.num_eq, trivial⟩
  | block q c => exact ⟨h.within, h.num_eq, trivial⟩
  | unblock q c => exact ⟨h.within, h.num_eq, trivial⟩

theorem Counted.woken {place : Place Q} {c : Call} (h : Counted c place) :
    Counted { c with triggered := true } place.resume := by
  refine ⟨h.within, h.num_eq, ?_⟩
  have hhere := h.here
  cases place with
  | suspended timer => exact ⟨hhere.1, hhere.2.1, hhere.2.2.1⟩
  | _ => exact hhere

variable [DecidableEq T] [DecidableEq F] [DecidableEq Q]
variable {tickPerSecond : ℤ} {s s' : Sys T F Q} {a : Act T F Q}

theorem step_mask (hmask : ∀ f, (s.mask f).toNat < 32) (hstep : step tickPerSecond files s a = some s') :
    ∀ f, (s'.mask f).toNat < 32 := by
  cases a with
  | raise f events q key =>
    simp only [step] at hstep
    split at hstep
    · next hguard =>
      cases hstep
      intro g
      by_cases hgf : g = f
      · subst hgf
        simp only [Function.update_self, BitVec.toNat_or]
        exact Nat.or_lt_two_pow (n := 5) (hmask g) hguard.2.2
      · simpa only [Function.update_of_ne hgf] using hmask g
    · cases hstep
  | lower f events =>
    cases hstep
    intro g
    by_cases hgf : g = f
    · subst hgf
      simp only [Function.update_self, BitVec.toNat_and]
      exact lt_of_le_of_lt Nat.and_le_left (hmask g)
    · simpa only [Function.update_of_ne hgf] using hmask g
  | wakeup q key =>
    simp only [step] at hstep
    split at hstep
    · cases hstep
      simpa using hmask
    · cases hstep
  | add u room =>
    simp only [step] at hstep
    split at hstep
    · cases hstep
      simpa using hmask
    · cases hstep
  | _ =>
    simp only [step] at hstep
    repeat' split at hstep
    all_goals first | (cases hstep; exact hmask) | cases hstep

/-- The invariant of every run. -/
structure Inv (s : Sys T F Q) : Prop where
  mask_lt : ∀ f, (s.mask f).toNat < 32
  counted : ∀ t, Counted (s.call t) (s.place t)

theorem step_inv (h : Inv s) (hstep : step tickPerSecond files s a = some s') : Inv s' := by
  refine ⟨step_mask h.mask_lt hstep, fun t => ?_⟩
  cases step_seen hstep t with
  | apart hplace hcall =>
    rw [hplace, hcall]
    exact h.counted t
  | woken hplace hcall =>
    rw [hplace, hcall]
    exact (h.counted t).woken
  | moved hmove => exact (h.counted t).moves h.mask_lt hmove

omit [DecidableEq T] [DecidableEq F] [DecidableEq Q] in
theorem inv_start : Inv (start : Sys T F Q) :=
  ⟨fun _ => show (0 : BitVec 32).toNat < 32 by decide, fun _ => ⟨Nat.le_refl 0, by rfl, trivial⟩⟩

theorem run_inv {acts : List (Act T F Q)} (hrun : exec (step tickPerSecond files) start acts = some s) : Inv s :=
  exec_inv Inv (fun _ _ _ h hstep => step_inv h hstep) inv_start hrun

/-- When a call of `poll` is about to return, its number is that of the entries with events, and it is 0
only if the call has timed out. -/
theorem poll_counts {acts : List (Act T F Q)} (hrun : exec (step tickPerSecond files) start acts = some s)
    (hplace : s.place t = .leaving) :
    (s.call t).num = reported (s.call t).fds ∧ ((s.call t).num = 0 → (s.call t).istimeout = true) := by
  have h := (run_inv hrun).counted t
  have hhere := h.here
  rw [hplace] at hhere
  refine ⟨?_, fun hzero => hhere.2.resolve_left fun hpos => absurd hzero (Nat.pos_iff_ne_zero.mp hpos)⟩
  have hnum := h.num_eq
  rwa [hhere.1, List.take_length] at hnum

/-- A pipe is open for reading as descriptor 3, and `false` is its `reader_queue`. -/
def pipeFiles : Files Unit Bool := ⟨fun fd => if fd = 3 then some () else none, fun _ => some [false, true]⟩

def fdsRead : List Pollfd := [⟨-1, 0, 0⟩, ⟨3, 1, 0⟩]

/-- A call that does not wait finds the pipe readable. -/
def countRun : List (Act ℕ Unit Bool) :=
  [.raise () 1 false 1, .poll 0 fdsRead 0, .check 0, .add 0 true, .add 0 true, .check 0, .decide 0]

theorem poll_counts_sample : ∃ s, exec (step 1000 pipeFiles) start countRun = some s ∧
    (s.call 0).num = 1 ∧ (s.call 0).num = reported (s.call 0).fds := by
  have hrun : (exec (step 1000 pipeFiles) start countRun).map (fun s => (s.place 0, (s.call 0).num)) =
      some (.leaving, 1) := by decide
  obtain ⟨s, hs, hat⟩ := Option.map_eq_some_iff.mp hrun
  rw [Prod.mk.injEq] at hat
  exact ⟨s, hs, hat.2, (poll_counts hs hat.1).1⟩

/-! ### A call of which a node has been woken -/

/-- The call runs between `poll_table_init` and `poll_teardown`. -/
def Place.inPoll : Place Q → Bool
  | .idle | .blocked _ => false
  | _ => true

omit [DecidableEq Q] in
theorem Place.resume_inPoll (place : Place Q) : place.resume.inPoll = place.inPoll := by
  cases place <;> rfl

/-- The call has been woken in time, and has not been left for want of events. -/
structure Spins (c : Call) (place : Place Q) : Prop where
  triggered : c.triggered = true
  in_time : c.istimeout = false
  inPoll : place.inPoll = true
  runs : ∀ timer, place ≠ .suspended timer
  events : place = .leaving → 0 < c.num

omit [DecidableEq T] [DecidableEq F] [DecidableEq Q] in
theorem Counted.spins {place : Place Q} {c : Call} (h : Counted c place) (htriggered : c.triggered = true)
    (htimeout : c.istimeout = false) (hplace : place.inPoll = true) : Spins c place := by
  have hhere := h.here
  refine ⟨htriggered, htimeout, hplace, fun timer hsuspended => ?_, fun hleaving => ?_⟩
  · rw [hsuspended] at hhere
    exact absurd (hhere.2.2.2.symm.trans htriggered) Bool.noConfusion
  · rw [hleaving] at hhere
    exact hhere.2.resolve_right fun htrue => absurd (htimeout.symm.trans htrue) Bool.noConfusion

omit [DecidableEq T] [DecidableEq F] [DecidableEq Q] in
theorem Call.next_inPoll (c : Call) : (c.next files).inPoll = true := by
  unfold Call.next
  split <;> rfl

omit [DecidableEq T] [DecidableEq F] [DecidableEq Q] in
/-- No action of the thread itself takes the mark of the wake-up away, and the time-out is not looked at. -/
theorem Spins.moves {place place' : Place Q} {c c' : Call} (h : Spins c place) (hact : a ≠ .teardown t)
    (hmove : Moves files mask t a place c place' c') :
    c'.triggered = true ∧ c'.istimeout = false ∧ place'.inPoll = true := by
  cases hmove with
  | poll fds msec c => exact absurd h.inPoll Bool.noConfusion
  | add room q rest c => exact ⟨h.triggered, h.in_time, rfl⟩
  | check p c hp =>
    exact ⟨by rw [checked_triggered, h.triggered], by rw [checked_istimeout, h.in_time], Call.next_inPoll _⟩
  | leave c hend => exact ⟨h.triggered, h.in_time, rfl⟩
  | stay c hnum htimeout => exact ⟨h.triggered, h.in_time, rfl⟩
  | suspend timer c htriggered => exact absurd (htriggered.symm.trans h.triggered) Bool.noConfusion
  | pass c => exact ⟨h.triggered, by simp only [Call.again, h.in_time, h.triggered]; rfl, Call.next_inPoll _⟩
  | expire c => exact absurd rfl (h.runs true)
  | back c => exact ⟨h.triggered, by simp only [Call.again, h.in_time, h.triggered]; rfl, Call.next_inPoll _⟩
  | teardown c => exact absurd rfl hact
  | block q c => exact absurd h.inPoll Bool.noConfusion
  | unblock q c => exact absurd h.inPoll Bool.noConfusion

theorem Spins.step (h : Spins (s.call t) (s.place t)) (hinv : Inv s) (hact : a ≠ .teardown t)
    (hstep : step tickPerSecond files s a = some s') : Spins (s'.call t) (s'.place t) := by
  have hkept : (s'.call t).triggered = true ∧ (s'.call t).istimeout = false ∧ (s'.place t).inPoll = true := by
    cases step_seen hstep t with
    | apart hplace hcall =>
      rw [hplace, hcall]
      exact ⟨h.triggered, h.in_time, h.inPoll⟩
    | woken hplace hcall =>
      rw [hplace, hcall, Place.resume_inPoll]
      exact ⟨rfl, h.in_time, h.inPoll⟩
    | moved hmove => exact h.moves hact hmove
  exact ((step_inv hinv hstep).counted t).spins hkept.1 hkept.2.1 hkept.2.2

/-- Once a node of the call has been woken in time, the call is not suspended again, whatever becomes of the
events, and it returns only when a scan finds some: the time-out no longer ends it. -/
theorem poll_triggered_spins {before acts : List (Act T F Q)}
    (hreach : exec (step tickPerSecond files) start before = some s) (hplace : (s.place t).inPoll = true)
    (htriggered : (s.call t).triggered = true) (htimeout : (s.call t).istimeout = false)
    (hacts : ∀ a ∈ acts, a ≠ .teardown t) (hrun : exec (step tickPerSecond files) s acts = some s') :
    (∀ timer, s'.place t ≠ .suspended timer) ∧ (s'.call t).istimeout = false ∧
      (s'.place t = .leaving → 0 < (s'.call t).num) := by
  have hinv := run_inv hreach
  have h := exec_inv_of_forall (fun s => Inv s ∧ Spins (s.call t) (s.place t)) (fun a => a ≠ .teardown t)
    (fun _ _ _ h hact hstep => ⟨step_inv h.1 hstep, h.2.step h.1 hact hstep⟩)
    ⟨hinv, (hinv.counted t).spins htriggered htimeout hplace⟩ hacts hrun
  exact ⟨h.2.runs, h.2.in_time, h.2.events⟩

/-- The thread waits for the pipe to become readable. -/
def waitRun : List (Act ℕ Unit Bool) :=
  [.poll 0 fdsRead 50, .check 0, .add 0 true, .add 0 true, .check 0, .decide 0, .wait 0]

/-- What has been written is read by another thread before the one that polls runs again. -/
def readRun : List (Act ℕ Unit Bool) := [.raise () 1 false 1, .wakeup false 1, .lower () 1, .back 0]

def scanRun : List (Act ℕ Unit Bool) := [.check 0, .add 0 true, .add 0 true, .check 0, .decide 0, .wait 0]

theorem poll_triggered_spins_sample : ∃ s s', exec (step 1000 pipeFiles) start (waitRun ++ readRun) = some s ∧
    exec (step 1000 pipeFiles) s (scanRun ++ scanRun) = some s' ∧ (s'.call 0).num = 0 ∧
      ∀ timer, s'.place 0 ≠ .suspended timer := by
  have hwoken : (exec (step 1000 pipeFiles) start (waitRun ++ readRun)).map
      (fun s => ((s.place 0).inPoll, (s.call 0).triggered, (s.call 0).istimeout)) = some (true, true, false) := by
    decide
  have hscanned : ((exec (step 1000 pipeFiles) start (waitRun ++ readRun)).bind fun s =>
      exec (step 1000 pipeFiles) s (scanRun ++ scanRun)).map (fun s => (s.call 0).num) = some 0 := by decide
  obtain ⟨s, hs, hat⟩ := Option.map_eq_some_iff.mp hwoken
  obtain ⟨s', hs', hnum⟩ := Option.map_eq_some_iff.mp hscanned
  rw [hs, Option.bind_some] at hs'
  simp only [Prod.mk.injEq] at hat
  exact ⟨s, s', hs, hs', hnum, (poll_triggered_spins hs hat.1 hat.2.1 hat.2.2 (by decide) hs').1⟩

/-! ### A suspended call -/

/-- An entry that the thread has passed without events: its nodes are queued, and events it has got since
will still wake one of the queues. -/
structure Armed (files : Files F Q) (s : Sys T F Q) (t : T) (p : Pollfd) : Prop where
  queued : ∀ q ∈ files.queues p, ⟨t, p.key, true⟩ ∈ s.queue q
  told : files.doPollfd s.mask p ≠ 0 →
    ∃ q ∈ files.queues p, ∃ key, (q, key) ∈ s.coming ∧ (⟨t, p.key, true⟩ : Node T).accepts key = true

/-- No entry has shown events, and the call has neither been woken nor timed out. -/
def Call.quiet (c : Call) : Prop := c.triggered = false ∧ c.istimeout = false ∧ c.num = 0

/-- `rt_malloc` has room for the nodes of the thread, and a wake-up that one of them accepts does not go to a
node in front of it. -/
def Undisturbed (t : T) (s : Sys T F Q) : Act T F Q → Prop
  | .add u room => u = t → room = true
  | .wakeup q key =>
    (∃ e ∈ s.queue q, e.accepts key = true ∧ e.polls = true ∧ e.thread = t) →
      ∃ e ∈ (rtWqueueWakeup key (s.queue q)).1, e.polls = true ∧ e.thread = t
  | _ => True

theorem step_queue (hstep : step tickPerSecond files s a = some s') (hact : a ≠ .teardown t) {q : Q} {e : Node T}
    (he : e ∈ s.queue q) (hpolls : e.polls = true) (hthread : e.thread = t) :
    e ∈ s'.queue q ∨ (s'.call t).triggered = true := by
  have hupdate : ∀ q' nodes, (q = q' → e ∈ nodes) → e ∈ Function.update s.queue q' nodes q := by
    intro q' nodes h
    by_cases hq : q = q'
    · subst hq
      rw [Function.update_self]
      exact h rfl
    · rwa [Function.update_of_ne hq]
  cases a with
  | add u room =>
    simp only [step] at hstep
    split at hstep
    · cases hstep
      left
      rw [move_queue, Sys.pollAdd]
      split
      · exact hupdate _ _ fun hq => List.mem_append_left _ (hq ▸ he)
      · exact he
    · cases hstep
  | teardown u =>
    simp only [step] at hstep
    split at hstep
    · cases hstep
      left
      rw [move_queue, List.mem_filter]
      have hne : e.thread ≠ u := fun h => hact (by rw [← hthread, h])
      exact ⟨he, by rw [beq_false_of_ne hne, Bool.and_false]; rfl⟩
    · cases hstep
  | wakeup q' key =>
    simp only [step] at hstep
    split at hstep
    · cases hstep
      by_cases hfirst : q = q' ∧ (rtWqueueWakeup key (s.queue q')).1 = some e
      · -- the node itself is woken
        right
        obtain ⟨-, -, hne⟩ | ⟨-, hcall, -⟩ := wake_thread
          ({ s with coming := s.coming.erase (q', key) }.setQueue q' (rtWqueueWakeup key (s.queue q')).2)
          t (rtWqueueWakeup key (s.queue q')).1
        · exact absurd hthread (hne e hfirst.2 hpolls)
        · rw [hcall]
      · left
        rw [wake_queue, setQueue_queue]
        refine hupdate _ _ fun hq => ?_
        subst hq
        rw [not_and] at hfirst
        exact rtWqueueWakeup_keeps he (hfirst rfl)
    · cases hstep
  | block u q' =>
    simp only [step] at hstep
    split at hstep
    · cases hstep
      exact .inl (hupdate _ _ fun hq => List.mem_append_left _ (hq ▸ he))
    · cases hstep
  | unblock u =>
    simp only [step] at hstep
    split at hstep
    · cases hstep
      refine .inl (hupdate _ _ fun hq => ?_)
      have hne : e ≠ ⟨u, 0, false⟩ := fun h => by rw [h] at hpolls; cases hpolls
      exact (List.mem_erase_of_ne hne).mpr (hq ▸ he)
    · cases hstep
  | _ =>
    simp only [step] at hstep
    repeat' split at hstep
    all_goals first | (cases hstep; exact .inl he) | cases hstep

omit [DecidableEq T] [DecidableEq F] [DecidableEq Q] in
theorem accepts_of_subset {p : Pollfd} {events key : BitVec 32} (hsubset : events &&& key = events)
    (hwanted : events &&& p.wanted ≠ 0) : (⟨t, p.key, true⟩ : Node T).accepts key = true := by
  have hkey : key &&& p.wanted ≠ 0 := by
    intro hnone
    refine hwanted ?_
    rw [← hsubset, BitVec.and_assoc, hnone]
    exact BitVec.and_zero
  have haccepts : (key &&& p.key != 0) = true := bne_iff_ne.mpr (by rwa [Pollfd.key_eq])
  simp only [Node.accepts, haccepts, Bool.or_true]

/-- Reports, and wake-ups that the thread is not deprived of, leave an entry armed until the call is woken. -/
theorem Armed.step {p : Pollfd} (h : Armed files s t p) (hC : Undisturbed t s a) (hact : a ≠ .teardown t)
    (hstep : step tickPerSecond files s a = some s') (hquiet : (s'.call t).triggered = false) : Armed files s' t p := by
  have hqueued : ∀ q ∈ files.queues p, ⟨t, p.key, true⟩ ∈ s'.queue q := fun q hq =>
    (step_queue hstep hact (h.queued q hq) rfl rfl).resolve_right fun h => absurd (h.symm.trans hquiet) Bool.noConfusion
  refine ⟨hqueued, ?_⟩
  cases a with
  | raise f events q key =>
    simp only [Poll.step] at hstep
    split at hstep
    · next hguard =>
      cases hstep
      intro hafter
      by_cases hbefore : files.doPollfd s.mask p = 0
      · obtain ⟨hqueues, hwanted⟩ := files.doPollfd_raise hbefore hafter
        exact ⟨q, hqueues ▸ hguard.1, key, by simp, accepts_of_subset hguard.2.1 hwanted⟩
      · obtain ⟨q', hq', key', hcoming, haccepts⟩ := h.told hbefore
        exact ⟨q', hq', key', List.mem_append_left _ hcoming, haccepts⟩
    · cases hstep
  | lower f events =>
    cases hstep
    exact fun hafter => h.told (Files.doPollfd_lower hafter)
  | wakeup q key =>
    simp only [Poll.step] at hstep
    split at hstep
    · cases hstep
      intro hafter
      rw [wake_mask, setQueue_mask] at hafter
      obtain ⟨q', hq', key', hcoming, haccepts⟩ := h.told hafter
      by_cases hsame : (q', key') = (q, key)
      · -- the wake-up finds a node of the call, so the call is woken
        cases hsame
        obtain ⟨e, hfirst, hpolls, hthread⟩ := hC ⟨_, h.queued q hq', haccepts, rfl, rfl⟩
        obtain ⟨-, -, hne⟩ | ⟨-, hcall, -⟩ := wake_thread
          ({ s with coming := s.coming.erase (q, key) }.setQueue q (rtWqueueWakeup key (s.queue q)).2)
          t (rtWqueueWakeup key (s.queue q)).1
        · exact absurd hthread (hne e hfirst hpolls)
        · rw [hcall] at hquiet
          cases hquiet
      · exact ⟨q', hq', key', by simpa using (List.mem_erase_of_ne hsame).mpr hcoming, haccepts⟩
    · cases hstep
  | add u room =>
    simp only [Poll.step] at hstep
    split at hstep
    · cases hstep
      simpa using h.told
    · cases hstep
  | _ =>
    simp only [Poll.step] at hstep
    repeat' split at hstep
    all_goals first | (cases hstep; exact h.told) | cases hstep

/-- Where the entries of a quiet call are watched from. -/
def Place.Watches (files : Files F Q) (s : Sys T F Q) (t : T) (c : Call) : Place Q → Prop
  | .adding rest => c.proc = true ∧ (∀ p ∈ c.fds.take c.n, Armed files s t p) ∧
      ∀ p, c.fds[c.n]? = some p → ∃ done, files.queues p = done ++ rest ∧ ∀ q ∈ done, ⟨t, p.key, true⟩ ∈ s.queue q
  | .scanned | .waiting | .suspended _ => ∀ p ∈ c.fds, Armed files s t p
  | .idle | .ready | .leaving | .blocked _ => True

def Watched (files : Files F Q) (t : T) (s : Sys T F Q) : Prop :=
  (s.call t).quiet → (s.place t).Watches files s t (s.call t)

omit [DecidableEq T] [DecidableEq F] [DecidableEq Q] in
theorem Call.next_watches {c : Call} (hproc : c.proc = true) (h : ∀ p ∈ c.fds.take c.n, Armed files s t p) :
    (c.next files).Watches files s t c := by
  unfold Call.next
  cases hget : c.fds[c.n]? with
  | none =>
    intro p hp
    rw [List.take_of_length_le (List.getElem?_eq_none_iff.mp hget)] at h
    exact h p hp
  | some p =>
    refine ⟨hproc, h, fun p' hp' => ?_⟩
    rw [hget] at hp'
    cases hp'
    exact ⟨[], rfl, fun q hq => by cases hq⟩

theorem Place.Watches.step {place : Place Q} {c : Call} (h : place.Watches files s t c) (hC : Undisturbed t s a)
    (hact : a ≠ .teardown t) (hstep : step tickPerSecond files s a = some s')
    (hquiet : (s'.call t).triggered = false) : place.Watches files s' t c := by
  have harmed : ∀ p, Armed files s t p → Armed files s' t p := fun p hp => hp.step hC hact hstep hquiet
  cases place with
  | adding rest =>
    obtain ⟨hproc, hbefore, hhere⟩ := h
    refine ⟨hproc, fun p hp => harmed p (hbefore p hp), fun p hp => ?_⟩
    obtain ⟨done, hsplit, hdone⟩ := hhere p hp
    exact ⟨done, hsplit, fun q hq => (step_queue hstep hact (hdone q hq) rfl rfl).resolve_right fun h =>
      absurd (h.symm.trans hquiet) Bool.noConfusion⟩
  | scanned | waiting | suspended => exact fun p hp => harmed p (h p hp)
  | idle | ready | leaving | blocked => trivial

theorem step_add {room : Bool} {q : Q} {rest : List Q} {p : Pollfd} (hplace : s.place t = .adding (q :: rest))
    (hp : (s.call t).fds[(s.call t).n]? = some p) (hproc : (s.call t).proc = true) (hroom : room = true)
    (hstep : step tickPerSecond files s (.add t room) = some s') : ⟨t, p.key, true⟩ ∈ s'.queue q := by
  simp only [step, hplace, hp, Sys.pollAdd, if_pos (And.intro hproc hroom), Option.some.injEq] at hstep
  cases hstep
  simp

omit [DecidableEq T] [DecidableEq F] [DecidableEq Q] in
theorem Call.checked_watches {c : Call} {p : Pollfd} (hp : c.fds[c.n]? = some p)
    (h : Place.Watches files s t c (.adding [])) (hquiet : (c.checked files s.mask p).num = 0) :
    ((c.checked files s.mask p).next files).Watches files s t (c.checked files s.mask p) := by
  obtain ⟨hlt, -⟩ := List.getElem?_eq_some_iff.mp hp
  obtain ⟨hproc, hbefore, hhere⟩ := h
  by_cases hnone : files.doPollfd s.mask p = 0
  · obtain ⟨done, hsplit, hdone⟩ := hhere p hp
    rw [List.append_nil] at hsplit
    have harmed : Armed files s t p := ⟨fun q hq => hdone q (hsplit ▸ hq), fun h => absurd hnone h⟩
    rw [checked_of_zero _ _ _ _ hnone]
    refine Call.next_watches hproc fun p' hp' => ?_
    simp only at hp'
    rw [List.take_succ_eq_append_getElem (by rw [List.length_set]; exact hlt), List.take_set_of_le (Nat.le_refl _),
      List.getElem_set_self, List.mem_append, List.mem_singleton] at hp'
    obtain hp' | rfl := hp'
    · exact hbefore p' hp'
    · exact ⟨harmed.queued, harmed.told⟩
  · rw [checked_of_ne _ _ _ _ hnone] at hquiet
    exact absurd hquiet (Nat.succ_ne_zero _)

omit [DecidableEq T] [DecidableEq F] [DecidableEq Q] in
theorem Moves.of_add {room : Bool} {place place' : Place Q} {c c' : Call}
    (hmove : Moves files mask t (.add t room) place c place' c') :
    ∃ q rest, place = .adding (q :: rest) ∧ place' = .adding rest ∧ c' = c := by
  cases hmove with
  | add room q rest c => exact ⟨q, rest, rfl, rfl, rfl⟩

omit [DecidableEq T] [DecidableEq F] [DecidableEq Q] in
theorem Moves.watches {place place' : Place Q} {c c' : Call} (hmove : Moves files s.mask t a place c place' c')
    (hadd : ∀ room, a ≠ .add t room) (h : c.quiet → place.Watches files s t c) (hquiet : c'.quiet) :
    place'.Watches files s t c' := by
  have hagain : ¬c.again.quiet := fun hq => by
    obtain ⟨htriggered, htimeout, -⟩ := hq
    simp only [Call.again] at htriggered htimeout
    rw [htriggered, Bool.not_false, Bool.or_true] at htimeout
    cases htimeout
  cases hmove with
  | poll fds msec c =>
    have hmsec : msec ≠ 0 := of_decide_eq_false hquiet.2.1
    exact Call.next_watches (decide_eq_true hmsec) fun p hp => by cases hp
  | add room q rest c => exact absurd rfl (hadd room)
  | check p c hp =>
    have hnum : c.num = 0 := Nat.le_zero.mp (hquiet.2.2 ▸ le_checked_num files s.mask c p)
    exact Call.checked_watches hp (h ⟨by simpa using hquiet.1, by simpa using hquiet.2.1, hnum⟩) hquiet.2.2
  | leave c hend => trivial
  | stay c hnum htimeout => exact h hquiet
  | suspend timer c htriggered => exact h hquiet
  | pass c => exact absurd hquiet hagain
  | expire c => trivial
  | back c => exact absurd hquiet hagain
  | teardown c => trivial
  | block q c => trivial
  | unblock q c => trivial

theorem Watched.step (h : Watched files t s) (hC : Undisturbed t s a)
    (hstep : step tickPerSecond files s a = some s') : Watched files t s' := by
  by_cases hact : a = .teardown t
  · subst hact
    intro _
    simp only [Poll.step] at hstep
    split at hstep
    · cases hstep
      simp only [move_place, Function.update_self]
      trivial
    · cases hstep
  intro hquiet
  cases step_seen hstep t with
  | apart hplace hcall =>
    rw [hplace, hcall]
    rw [hcall] at hquiet
    exact (h hquiet).step hC hact hstep (hcall ▸ hquiet.1)
  | woken hplace hcall =>
    rw [hcall] at hquiet
    exact absurd hquiet.1 Bool.noConfusion
  | moved hmove =>
    by_cases hadd : ∃ room, a = .add t room
    · obtain ⟨room, rfl⟩ := hadd
      obtain ⟨q, rest, hplace, hplace', hcall⟩ := hmove.of_add
      rw [hcall] at hquiet ⊢
      rw [hplace']
      have hbefore := h hquiet
      rw [hplace] at hbefore
      obtain ⟨hproc, harmed, hhere⟩ := hbefore.step hC hact hstep (hcall ▸ hquiet.1)
      refine ⟨hproc, harmed, fun p hp => ?_⟩
      obtain ⟨done, hsplit, hdone⟩ := hhere p hp
      refine ⟨done ++ [q], by rw [hsplit, List.append_assoc]; rfl, fun q' hq' => ?_⟩
      obtain hq' | hq' := List.mem_append.mp hq'
      · exact hdone q' hq'
      · rw [List.mem_singleton.mp hq']
        exact step_add hplace hp hproc (hC rfl) hstep
    · exact (hmove.watches (fun room hroom => hadd ⟨room, hroom⟩) h hquiet).step hC hact hstep hquiet.1

omit [DecidableEq T] [DecidableEq F] [DecidableEq Q] in
theorem watched_start : Watched files t (start : Sys T F Q) := fun _ => trivial

/-- While a call is suspended, an entry has events only if a wake-up that a node of the call accepts is still to
come, in every run in which the call gets its nodes and no other waiter is woken in their place. -/
theorem poll_suspended_unready {acts : List (Act T F Q)}
    (hC : AllSteps (step tickPerSecond files) (Undisturbed t) start acts)
    (hrun : exec (step tickPerSecond files) start acts = some s) {timer : Bool}
    (hplace : s.place t = .suspended timer) :
    ∀ p ∈ (s.call t).fds, files.doPollfd s.mask p ≠ 0 →
      ∃ q ∈ files.queues p, ∃ key, (q, key) ∈ s.coming ∧
        ∃ e ∈ s.queue q, e.accepts key = true ∧ e.polls = true ∧ e.thread = t := by
  have hhere := ((run_inv hrun).counted t).here
  rw [hplace] at hhere
  have h := exec_inv_of_allSteps (Watched files t) (Undisturbed t) (fun _ _ _ h hC hstep => h.step hC hstep)
    watched_start hC hrun ⟨hhere.2.2.2, hhere.2.2.1, hhere.2.1⟩
  rw [hplace] at h
  intro p hp hready
  obtain ⟨q, hq, key, hcoming, haccepts⟩ := (h p hp).told hready
  exact ⟨q, hq, key, hcoming, _, (h p hp).queued q hq, haccepts, rfl, rfl⟩

instance (t : T) (s : Sys T F Q) : (a : Act T F Q) → Decidable (Undisturbed t s a)
  | .add _ _ => inferInstanceAs (Decidable (_ → _))
  | .wakeup _ _ => inferInstanceAs (Decidable (_ → _))
  | .poll _ _ _ | .check _ | .decide _ | .wait _ | .expire _ | .back _ | .teardown _ | .raise _ _ _ _ | .lower _ _
  | .block _ _ | .unblock _ => isTrue trivial

/-- A reader blocks behind the node of the call, and the pipe gets something to read. -/
def suspendedRun : List (Act ℕ Unit Bool) := waitRun ++ [.block 1 false, .raise () 1 false 1]

theorem poll_suspended_unready_sample : ∃ s, exec (step 1000 pipeFiles) start suspendedRun = some s ∧
    s.place 0 = .suspended true ∧ ∀ p ∈ (s.call 0).fds, pipeFiles.doPollfd s.mask p ≠ 0 →
      ∃ q ∈ pipeFiles.queues p, ∃ key, (q, key) ∈ s.coming ∧
        ∃ e ∈ s.queue q, e.accepts key = true ∧ e.polls = true ∧ e.thread = 0 := by
  have hrun : (exec (step 1000 pipeFiles) start suspendedRun).map (fun s => s.place 0) = some (.suspended true) := by
    decide
  obtain ⟨s, hs, hplace⟩ := Option.map_eq_some_iff.mp hrun
  exact ⟨s, hs, hplace, poll_suspended_unready (by decide) hs hplace⟩

end RtThread.Dfs.Poll
