import RtThread.Sched.Defunct

/-!
# What the idle thread frees (`idle.c:126-235`)

`rt_thread_idle_excute` takes the first defunct thread off the list in a section with interrupts disabled and the
scheduler locked. A system object is detached there. The stack and the object of any other thread are freed behind
the section, where other threads may run.
-/

namespace RtThread.Sched.Defunct

open RtThread.Lib.Transition RtThread.Sched.Scheduler

variable {T : Type*}

/-- `reaping` is the thread that has been taken off the list and is still to be freed; `freed` and `detached` hold
the threads that are gone, the latest first. -/
structure Sys (T : Type*) where
  sched : State T
  reaping : Option T
  freed : List T
  detached : List T

inductive Act (T : Type*) where
  | call (a : Scheduler.Act T)
  | reap
  | free

def start (thread : T → Thread) : Sys T := ⟨rtSystemSchedulerInit thread, none, [], []⟩

/-- The threads that the idle thread has taken off the list. -/
def Sys.gone (s : Sys T) : List T := s.reaping.toList ++ s.freed ++ s.detached

def Sys.ends (s : Sys T) : List T := s.sched.defunct ++ s.gone

variable [DecidableEq T]

def step (prioMax : ℕ) (idle : T) (s : Sys T) : Act T → Option (Sys T)
  | .call a => (Scheduler.step prioMax s.sched a).map fun k => { s with sched := k }
  | .reap =>
    match s.sched.defunct, s.reaping with
    | t :: _, none =>
      if s.sched.currentThread = some idle then
        (rtExitCritical prioMax (rtEnterCritical (rtListRemove s.sched t))).map fun k =>
          if (s.sched.thread t).isSystem = true then { s with sched := k, detached := t :: s.detached }
          else { s with sched := k, reaping := some t }
      else none
    | _, _ => none
  | .free =>
    match s.reaping with
    | some t =>
      if s.sched.currentThread = some idle then some { s with reaping := none, freed := t :: s.freed } else none
    | none => none

/-- The thread that a call is made on. -/
def named : Scheduler.Act T → Option T
  | .startup t => some t
  | .suspend t => some t
  | .resume t => some t
  | .timerStart t => some t
  | .control t _ => some t
  | .delete t => some t
  | .detach t => some t
  | _ => none

/-- No call is made on a thread that the idle thread has taken off the list, and the idle thread is not closed. -/
def Valid (idle : T) (s : Sys T) : Act T → Prop
  | .call a => (∀ t ∈ named a, t ∉ s.gone) ∧ closing s.sched a ≠ some idle
  | _ => True

/-- A closed thread that has not been detached when it was closed. -/
def Ended (s : State T) (t : T) : Prop :=
  Closed s t ∧ ¬((s.thread t).isSystem = true ∧ (s.thread t).cleanup = false)

structure Inv (prioMax : ℕ) (idle : T) (s : Sys T) : Prop where
  sched : Scheduler.Inv prioMax s.sched
  ends : ∀ t, t ∈ s.ends ↔ Ended s.sched t
  nodup : s.ends.Nodup
  freed : ∀ t, t ∈ s.reaping.toList ++ s.freed → (s.sched.thread t).isSystem = false
  detached : ∀ t ∈ s.detached, (s.sched.thread t).isSystem = true
  current : ∀ t ∈ s.gone, s.sched.currentThread ≠ some t
  idle : ¬Closed s.sched idle

variable {prioMax : ℕ} {idle t : T} {s s' : Sys T} {k : State T}

omit [DecidableEq T] in
theorem Inv.defunctOk (h : Inv prioMax idle s) : DefunctOk s.sched := fun t ht =>
  ((h.ends t).mp (List.mem_append_left _ ht)).1

omit [DecidableEq T] in
theorem Inv.gone_closed (h : Inv prioMax idle s) (ht : t ∈ s.gone) : Closed s.sched t :=
  ((h.ends t).mp (List.mem_append_right _ ht)).1

omit [DecidableEq T] in
theorem SameClosed.ended {s s' : State T} (h : SameClosed s s') : Ended s' t ↔ Ended s t := by
  rw [Ended, Ended, h.closed, h.isSystem, h.cleanup]

omit [DecidableEq T] in
theorem Inv.same (h : Inv prioMax idle s) (hk : Scheduler.Inv prioMax k) (hsame : SameClosed s.sched k) :
    Inv prioMax idle { s with sched := k } where
  sched := hk
  ends t := by
    rw [hsame.ended, ← h.ends t, Sys.ends, Sys.ends, hsame.defunct]
    rfl
  nodup := by
    have hnodup := h.nodup
    rwa [Sys.ends, ← hsame.defunct] at hnodup
  freed t ht := (hsame.isSystem t).trans (h.freed t ht)
  detached t ht := (hsame.isSystem t).trans (h.detached t ht)
  current t ht hcur := by
    obtain hcur | hopen := hsame.current t hcur
    · exact h.current t ht hcur
    · exact hopen (h.gone_closed ht)
  idle hclosed := h.idle ((hsame.closed idle).mp hclosed)

theorem Inv.closes (h : Inv prioMax idle s) (hk : Scheduler.Inv prioMax k) (hcloses : Closes s.sched k t)
    (ht : t ∉ s.gone) (hidle : t ≠ idle) : Inv prioMax idle { s with sched := k } := by
  have hnodup := h.nodup
  rw [Sys.ends, List.nodup_append] at hnodup
  obtain ⟨hdefunct, hgone, hapart⟩ := hnodup
  refine ⟨hk, fun u => ?_, ?_, fun u hu => (hcloses.isSystem u).trans (h.freed u hu),
    fun u hu => (hcloses.isSystem u).trans (h.detached u hu), fun u hu hcur => ?_, fun hclosed => ?_⟩
  · -- `t` is ended exactly if it has been put on the list
    have hends := h.ends u
    rw [Sys.ends, List.mem_append] at hends
    show u ∈ k.defunct ++ s.gone ↔ Ended k u
    rw [List.mem_append, hcloses.defunct, List.mem_append, Ended, hcloses.closed, hcloses.isSystem, hcloses.cleanup]
    by_cases hut : u = t
    · subst hut
      have herase : u ∉ s.sched.defunct.erase u := hdefunct.not_mem_erase
      split
      · rename_i hkind
        exact iff_of_false (by simp [herase, ht]) fun hended => hended.2 hkind
      · rename_i hkind
        exact iff_of_true (by simp) ⟨.inl rfl, hkind⟩
    · rw [List.mem_erase_of_ne hut, or_iff_right hut, ← Ended, ← hends]
      split <;> simp [hut]
  · show (k.defunct ++ s.gone).Nodup
    rw [hcloses.defunct, List.nodup_append]
    refine ⟨?_, hgone, fun u hu v hv => ?_⟩
    · split
      · exact hdefunct.erase t
      · exact List.nodup_cons.mpr ⟨hdefunct.not_mem_erase, hdefunct.erase t⟩
    · rw [List.mem_append] at hu
      obtain hu | hu := hu
      · split at hu
        · cases hu
        · rintro rfl
          exact ht (List.mem_singleton.mp hu ▸ hv)
      · exact hapart u (List.mem_of_mem_erase hu) v hv
  · obtain hcur | hopen := hcloses.current u hcur
    · exact h.current u hu hcur
    · exact hopen (h.gone_closed hu)
  · exact ((hcloses.closed idle).mp hclosed).elim (fun he => hidle he.symm) h.idle

theorem Inv.rtListRemove (h : Inv prioMax idle s) (ht : Closed s.sched t) :
    Scheduler.Inv prioMax (rtListRemove s.sched t) := by
  have htable : (Scheduler.rtListRemove s.sched t).priorityTable = s.sched.priorityTable := by
    funext p
    refine List.erase_of_not_mem fun hmem => ?_
    have hready := ((h.sched.lists.listed p t).mp hmem).2.1
    rw [show (s.sched.thread t).stat = .close from ht] at hready
    cases hready
  exact ⟨h.sched.lists.of_eq htable rfl rfl, h.sched.current⟩

theorem reap_spec (hmax : prioMax ≤ 256) (h : Inv prioMax idle s) {rest : List T} (hlist : s.sched.defunct = t :: rest)
    (hcur : s.sched.currentThread = some idle)
    (hs : rtExitCritical prioMax (rtEnterCritical (Scheduler.rtListRemove s.sched t)) = some k) :
    Scheduler.Inv prioMax k ∧ k.defunct = rest ∧ (∀ u, Closed k u ↔ Closed s.sched u) ∧
      (∀ u, (k.thread u).isSystem = (s.sched.thread u).isSystem ∧ (k.thread u).cleanup = (s.sched.thread u).cleanup) ∧
      ∀ u, k.currentThread = some u → ¬Closed s.sched u := by
  have hclosed : Closed s.sched t := h.defunctOk t (hlist ▸ List.mem_cons_self)
  have hinv := lockNest_inv (h.rtListRemove hclosed) (Int.bmod (s.sched.lockNest + 1) (2 ^ 16))
  have hdefunct : (rtEnterCritical (Scheduler.rtListRemove s.sched t)).defunct = rest := by
    show s.sched.defunct.erase t = rest
    rw [hlist, List.erase_cons_head]
  have hd : DefunctOk (rtEnterCritical (Scheduler.rtListRemove s.sched t)) := fun u hu =>
    h.defunctOk u (hlist ▸ List.mem_cons_of_mem t (hdefunct ▸ hu))
  have hsame := exitCritical_sameClosed hinv hd hs
  refine ⟨Scheduler.step_inv hmax (a := .exitCritical) hinv hs, hsame.defunct.trans hdefunct, hsame.closed,
    fun u => ⟨hsame.isSystem u, hsame.cleanup u⟩, fun u hu => ?_⟩
  obtain hu | hopen := hsame.current u hu
  · cases hcur.symm.trans hu
    exact h.idle
  · exact hopen

omit [DecidableEq T] in
theorem Inv.moved (h : Inv prioMax idle s) (hinv : Scheduler.Inv prioMax s'.sched) (hperm : s'.ends.Perm s.ends)
    (hclosed : ∀ u, Closed s'.sched u ↔ Closed s.sched u)
    (hkind : ∀ u, (s'.sched.thread u).isSystem = (s.sched.thread u).isSystem ∧
      (s'.sched.thread u).cleanup = (s.sched.thread u).cleanup)
    (hfreed : ∀ u ∈ s'.reaping.toList ++ s'.freed, (s.sched.thread u).isSystem = false)
    (hdetached : ∀ u ∈ s'.detached, (s.sched.thread u).isSystem = true)
    (hcurrent : ∀ u, s'.sched.currentThread = some u → u ∉ s'.gone) : Inv prioMax idle s' where
  sched := hinv
  ends u := by rw [hperm.mem_iff, h.ends, Ended, Ended, hclosed, (hkind u).1, (hkind u).2]
  nodup := hperm.nodup_iff.mpr h.nodup
  freed u hu := (hkind u).1.trans (hfreed u hu)
  detached u hu := (hkind u).1.trans (hdetached u hu)
  current u hu hcur := hcurrent u hcur hu
  idle hc := h.idle ((hclosed idle).mp hc)

theorem Inv.reap (hmax : prioMax ≤ 256) (h : Inv prioMax idle s) (hs : step prioMax idle s .reap = some s') :
    Inv prioMax idle s' := by
  simp only [step] at hs
  split at hs
  · rename_i t rest hlist hreaping
    simp only [Option.ite_none_right_eq_some, Option.map_eq_some_iff] at hs
    obtain ⟨hcur, k, hk, rfl⟩ := hs
    obtain ⟨hinv, hdefunct, hclosed, hkind, hcurrent⟩ := reap_spec hmax h hlist hcur hk
    have hends : s.ends = t :: (rest ++ (s.freed ++ s.detached)) := by
      rw [Sys.ends, Sys.gone, hlist, hreaping]
      rfl
    have hgone : ∀ u, u ∈ s.freed ++ s.detached ∨ u = t → Closed s.sched u := by
      intro u hu
      refine ((h.ends u).mp ?_).1
      rw [hends]
      obtain hu | rfl := hu
      · exact List.mem_cons_of_mem t (List.mem_append_right rest hu)
      · exact List.mem_cons_self
    have hfreed := h.freed
    rw [hreaping] at hfreed
    split
    · rename_i hsystem
      have hperm : (Sys.ends { s with sched := k, detached := t :: s.detached }).Perm s.ends := by
        rw [hends, Sys.ends, Sys.gone]
        simp only [hdefunct, hreaping, Option.toList_none, List.nil_append, ← List.append_assoc]
        exact List.perm_middle
      refine h.moved hinv hperm hclosed hkind (by rwa [hreaping]) (fun u hu => ?_) fun u hu hmem => ?_
      · obtain rfl | hu := List.mem_cons.mp hu
        · exact hsystem
        · exact h.detached u hu
      · refine hcurrent u hu (hgone u ?_)
        simp only [Sys.gone, hreaping, Option.toList_none, List.nil_append, List.mem_append, List.mem_cons] at hmem ⊢
        tauto
    · rename_i hsystem
      have hperm : (Sys.ends { s with sched := k, reaping := some t }).Perm s.ends := by
        rw [hends, Sys.ends, Sys.gone]
        simp only [hdefunct, Option.toList_some, List.append_assoc]
        exact List.perm_middle
      refine h.moved hinv hperm hclosed hkind (fun u hu => ?_) h.detached fun u hu hmem => ?_
      · obtain rfl | hu := List.mem_cons.mp hu
        · exact Bool.eq_false_iff.mpr hsystem
        · exact hfreed u hu
      · refine hcurrent u hu (hgone u ?_)
        simp only [Sys.gone, Option.toList_some, List.cons_append, List.nil_append, List.mem_append, List.mem_cons]
          at hmem ⊢
        tauto
  · cases hs

theorem Inv.free (h : Inv prioMax idle s) (hs : step prioMax idle s .free = some s') : Inv prioMax idle s' := by
  simp only [step] at hs
  split at hs
  · rename_i t hreaping
    simp only [Option.ite_none_right_eq_some, Option.some.injEq] at hs
    obtain ⟨-, rfl⟩ := hs
    have hgone : (Sys.gone { s with reaping := none, freed := t :: s.freed }) = s.gone := by
      simp only [Sys.gone, hreaping]
      rfl
    have hfreed := h.freed
    rw [hreaping] at hfreed
    refine h.moved h.sched ?_ (fun _ => Iff.rfl) (fun _ => ⟨rfl, rfl⟩) hfreed h.detached fun u hu hmem => ?_
    · rw [Sys.ends, hgone]
      exact List.Perm.refl _
    · exact h.current u (hgone ▸ hmem) hu
  · cases hs

theorem step_inv (hmax : prioMax ≤ 256) (h : Inv prioMax idle s) {a : Act T} (hvalid : Valid idle s a)
    (hs : step prioMax idle s a = some s') : Inv prioMax idle s' := by
  cases a with
  | call a =>
    obtain ⟨k, hk, rfl⟩ := Option.map_eq_some_iff.mp hs
    have hinv := Scheduler.step_inv hmax h.sched hk
    cases hclosing : closing s.sched a with
    | none => exact h.same hinv (call_sameClosed hmax h.sched h.defunctOk hk hclosing)
    | some t =>
      refine h.closes hinv (call_closes hmax h.sched h.defunctOk hk hclosing) ?_ fun he => ?_
      · -- the thread is the one the call names or the one that runs
        cases a with
        | delete u => exact hvalid.1 t hclosing
        | detach u => exact hvalid.1 t hclosing
        | exit => exact fun hgone => h.current t hgone hclosing
        | _ => cases hclosing
      · exact hvalid.2 (he ▸ hclosing)
  | reap => exact h.reap hmax hs
  | free => exact h.free hs

/-! ### Runs -/

variable {thread : T → Thread}

omit [DecidableEq T] in
theorem start_inv (hthread : ∀ t, ∃ p isSystem cleanup, p < prioMax ∧ thread t = rtThreadInit p isSystem cleanup)
    (idle : T) : Inv prioMax idle (start thread) := by
  have hopen : ∀ t, ¬Closed (rtSystemSchedulerInit thread) t := by
    intro t hclosed
    obtain ⟨p, isSystem, cleanup, -, ht⟩ := hthread t
    have hstat : (thread t).stat = .close := hclosed
    rw [ht] at hstat
    cases hstat
  refine ⟨init_inv hthread, fun t => iff_of_false (List.not_mem_nil) fun h => hopen t h.1, List.nodup_nil,
    fun t ht => (by cases ht), fun t ht => (by cases ht), fun t ht => (by cases ht), hopen idle⟩

/-- In every run a thread that has been freed is a closed one that no list holds and that does not run, no thread is
freed twice, and when the list of defunct threads is empty and the idle thread is through with the last one, all
closed threads that are not system objects have been freed. -/
theorem closed_threads_freed (hmax : prioMax ≤ 256)
    (hthread : ∀ t, ∃ p isSystem cleanup, p < prioMax ∧ thread t = rtThreadInit p isSystem cleanup)
    {acts : List (Act T)} (hvalid : AllSteps (step prioMax idle) (Valid idle) (start thread) acts)
    (hrun : exec (step prioMax idle) (start thread) acts = some s) :
    (∀ t ∈ s.freed, Closed s.sched t ∧ (s.sched.thread t).isSystem = false ∧ t ∉ s.sched.defunct ∧
      (∀ p, t ∉ s.sched.priorityTable p) ∧ s.sched.currentThread ≠ some t) ∧
    s.freed.Nodup ∧
    (s.sched.defunct = [] → s.reaping = none → ∀ t, Closed s.sched t → (s.sched.thread t).isSystem = false →
      t ∈ s.freed) := by
  have h := exec_inv_of_allSteps (Inv prioMax idle) (Valid idle)
    (fun _ _ _ h hvalid hs => step_inv hmax h hvalid hs) (start_inv hthread idle) hvalid hrun
  have hnodup := h.nodup
  rw [Sys.ends, List.nodup_append, Sys.gone] at hnodup
  obtain ⟨-, hgone, hapart⟩ := hnodup
  refine ⟨fun t ht => ?_, hgone.of_append_left.of_append_right, fun hdefunct hreaping t hclosed hsystem => ?_⟩
  · have hmem : t ∈ s.gone := List.mem_append_left _ (List.mem_append_right _ ht)
    have hclosed := h.gone_closed hmem
    refine ⟨hclosed, h.freed t (List.mem_append_right _ ht), fun hd => hapart t hd t hmem rfl, fun p hp => ?_,
      h.current t hmem⟩
    have hready := ((h.sched.lists.listed p t).mp hp).2.1
    rw [show (s.sched.thread t).stat = .close from hclosed] at hready
    cases hready
  · have hmem := (h.ends t).mpr ⟨hclosed, fun hkind => by rw [hsystem] at hkind; cases hkind.1⟩
    rw [Sys.ends, Sys.gone, hdefunct, hreaping, Option.toList_none, List.nil_append, List.nil_append] at hmem
    obtain hfreed | hdetached := List.mem_append.mp hmem
    · exact hfreed
    · have hkind := h.detached t hdetached
      rw [hsystem] at hkind
      cases hkind

/-- Thread 0 is the idle thread. Threads 1 and 2 close themselves, 2 is a system object with a cleanup function, and
thread 1 deletes thread 3 before. -/
def idleThreads (t : ℕ) : Thread := rtThreadInit (if t = 0 then 31 else 5) (t = 2) (t = 2)

theorem idleThreads_init (t : ℕ) :
    ∃ p isSystem cleanup, p < 32 ∧ idleThreads t = rtThreadInit p isSystem cleanup :=
  ⟨_, _, _, by split <;> decide, rfl⟩

def idleRun : List (Act ℕ) :=
  [.call (.startup 0), .call (.startup 1), .call (.startup 2), .call (.startup 3), .call .start,
   .call (.delete 3), .call (.delete 3), .call .exit, .call .exit, .reap, .reap, .free, .reap, .free]

instance (idle : T) (s : Sys T) : (a : Act T) → Decidable (Valid idle s a)
  | .call a => inferInstanceAs (Decidable ((∀ t ∈ named a, t ∉ s.gone) ∧ closing s.sched a ≠ some idle))
  | .reap | .free => isTrue trivial

theorem closed_threads_freed_sample : ∃ s, exec (step 32 0) (start idleThreads) idleRun = some s ∧
    s.detached = [2] ∧ s.freed.Nodup ∧ 1 ∈ s.freed ∧ 3 ∈ s.freed := by
  have hvalid : AllSteps (step 32 0) (Valid 0) (start idleThreads) idleRun := by decide +kernel
  have hrun : (exec (step 32 0) (start idleThreads) idleRun).map (fun s => (s.detached, s.sched.defunct, s.reaping,
      (s.sched.thread 1).stat, (s.sched.thread 3).stat)) = some ([2], [], none, .close, .close) := by decide +kernel
  have hkinds : (exec (step 32 0) (start idleThreads) idleRun).map (fun s =>
      ((s.sched.thread 1).isSystem, (s.sched.thread 3).isSystem)) = some (false, false) := by decide +kernel
  obtain ⟨s, hs, hat⟩ := Option.map_eq_some_iff.mp hrun
  rw [hs] at hkinds
  simp only [Prod.mk.injEq, Option.map_some, Option.some.injEq] at hat hkinds
  obtain ⟨-, hnodup, hall⟩ := closed_threads_freed (by decide) idleThreads_init hvalid hs
  exact ⟨s, hs, hat.1, hnodup, hall hat.2.1 hat.2.2.1 1 hat.2.2.2.1 hkinds.1,
    hall hat.2.1 hat.2.2.1 3 hat.2.2.2.2 hkinds.2⟩

/-! ### A closed thread that has left the CPU -/

/-- The thread is closed and another one runs. -/
def Left (s : State T) (t : T) : Prop := Closed s t ∧ s.currentThread ≠ some t

omit [DecidableEq T] in
theorem Left.of_current {k k' : State T} (h : Left k t) (hclosed : Closed k' t)
    (hcurrent : ∀ u, k'.currentThread = some u → k.currentThread = some u ∨ ¬Closed k u) : Left k' t := by
  refine ⟨hclosed, fun hcur => ?_⟩
  obtain hcur | hopen := hcurrent t hcur
  · exact h.2 hcur
  · exact hopen h.1

theorem Left.step (hmax : prioMax ≤ 256) (hinv : Inv prioMax idle s) (h : Left s.sched t) {a : Act T}
    (hs : step prioMax idle s a = some s') : Left s'.sched t := by
  cases a with
  | call a =>
    obtain ⟨k, hk, rfl⟩ := Option.map_eq_some_iff.mp hs
    cases hclosing : closing s.sched a with
    | none =>
      have hsame := call_sameClosed hmax hinv.sched hinv.defunctOk hk hclosing
      exact h.of_current ((hsame.closed t).mpr h.1) hsame.current
    | some u =>
      have hcloses := call_closes hmax hinv.sched hinv.defunctOk hk hclosing
      exact h.of_current ((hcloses.closed t).mpr (.inr h.1)) hcloses.current
  | reap =>
    simp only [Defunct.step] at hs
    split at hs
    · rename_i u rest hlist _
      simp only [Option.ite_none_right_eq_some, Option.map_eq_some_iff] at hs
      obtain ⟨hcur, k, hk, rfl⟩ := hs
      obtain ⟨-, -, hclosed, -, hcurrent⟩ := reap_spec hmax hinv hlist hcur hk
      have hleft := h.of_current ((hclosed t).mpr h.1) fun v hv => .inr (hcurrent v hv)
      split <;> exact hleft
    · cases hs
  | free =>
    simp only [Defunct.step] at hs
    split at hs
    · simp only [Option.ite_none_right_eq_some, Option.some.injEq] at hs
      obtain ⟨-, rfl⟩ := hs
      exact h
    · cases hs

end RtThread.Sched.Defunct
