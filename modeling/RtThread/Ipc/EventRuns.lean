import RtThread.Ipc.Event

/-!
# Runs on an event

Any number of threads receive, any thread or interrupt sends, and the timers of the waiting
threads expire, in any order of the interrupt-disabled sections. No receiver is left waiting
with its condition fulfilled.
-/

namespace RtThread.Ipc.Event

open RtThread.Lib.Transition RtThread.Ipc.Base

/-! ### Sets of flags -/

def Within (a b : BitVec 32) : Prop := a &&& b = a

theorem within_refl (a : BitVec 32) : Within a a := BitVec.and_self

theorem within_trans {a b c : BitVec 32} (hab : Within a b) (hbc : Within b c) : Within a c := by
  unfold Within at *
  rw [← hab, BitVec.and_assoc, hbc]

theorem within_of_and (a b : BitVec 32) : Within (a &&& b) a := by
  unfold Within
  rw [BitVec.and_comm a b, BitVec.and_assoc, BitVec.and_self]

theorem and_eq_zero_of_within {a b c : BitVec 32} (hb : Within b c) (hc : a &&& c = 0) : a &&& b = 0 := by
  rw [← hb, BitVec.and_comm b c, ← BitVec.and_assoc, hc]
  exact BitVec.zero_and

theorem and_clear (a c : BitVec 32) : a &&& (c &&& ~~~a) = 0 := by
  refine BitVec.eq_of_getLsbD_eq fun i hi => ?_
  simp only [BitVec.getLsbD_and, BitVec.getLsbD_not, hi, decide_true, Bool.true_and]
  cases a.getLsbD i <;> simp

theorem satisfied_mono {option : BitVec 8} {want a b : BitVec 32} (h : Within a b)
    (hs : satisfied option want a) : satisfied option want b := by
  unfold satisfied at *
  split at hs
  · rename_i hand
    rw [if_pos hand]
    exact (BitVec.and_comm b want).trans (within_trans ((BitVec.and_comm want a).trans hs) h)
  · rename_i hand
    rw [if_neg hand]
    split at hs
    · rename_i hor
      rw [if_pos hor]
      intro hb
      refine hs ?_
      rw [BitVec.and_comm] at hb ⊢
      exact and_eq_zero_of_within h hb
    · exact hs.elim

/-! ### One send -/

variable {T : Type*} [DecidableEq T]

/-- What holds of a receiver that was made ready. -/
def Wake.Fulfilled (w : Wake T) : Prop :=
  satisfied w.option w.want w.set ∧ satisfied w.option w.want w.recved ∧ Within w.recved w.set ∧
    Within w.recved w.want

theorem examine_fst (s : State T) (t : T) :
    (examine s t).1 = { s with eventSet := (examine s t).1.eventSet } := by
  unfold examine
  split
  · rfl
  · split
    · split <;> rfl
    · rfl

theorem examine_true {s : State T} {t : T} (h : (examine s t).2 = true) :
    Wake.Fulfilled ⟨t, s.eventInfo t, s.eventSet t, s.event.set, (examine s t).1.eventSet t⟩ ∧
      ∀ u, u ≠ t → (examine s t).1.eventSet u = s.eventSet u := by
  unfold examine at h ⊢
  unfold Wake.Fulfilled satisfied
  split
  · rename_i hand
    simp only [if_pos hand] at h ⊢
    rw [decide_eq_true_iff] at h
    have hw : Within (s.eventSet t) s.event.set := h
    exact ⟨⟨(BitVec.and_comm _ _).trans hw, BitVec.and_self, hw, within_refl _⟩, fun u _ => trivial⟩
  · rename_i hand
    simp only [if_neg hand] at h ⊢
    split
    · rename_i hor
      simp only [if_pos hor] at h ⊢
      split
      · rename_i hne
        have hw := within_of_and (s.eventSet t) s.event.set
        have hw' : Within (s.eventSet t &&& s.event.set) s.event.set := by
          rw [BitVec.and_comm]
          exact within_of_and _ _
        simp only [Function.update_self]
        refine ⟨⟨by rwa [BitVec.and_comm], ?_, hw', hw⟩, fun u hu => Function.update_of_ne hu _ _⟩
        rwa [show s.eventSet t &&& s.event.set &&& s.eventSet t = _ from hw]
      · rename_i hne
        simp only [if_neg hne] at h
        cases h
    · rename_i hor
      simp only [if_neg hor] at h
      cases h

theorem examine_false {s : State T} {t : T} (h : (examine s t).2 = false) :
    (examine s t).1 = s ∧ ¬satisfied (s.eventInfo t) (s.eventSet t) s.event.set := by
  unfold examine at h ⊢
  unfold satisfied
  split
  · rename_i hand
    simp only [if_pos hand] at h ⊢
    refine ⟨trivial, fun hs => of_decide_eq_false h ?_⟩
    rwa [BitVec.and_comm]
  · rename_i hand
    simp only [if_neg hand] at h ⊢
    split
    · rename_i hor
      simp only [if_pos hor] at h ⊢
      split
      · rename_i hne
        simp only [if_pos hne] at h
        cases h
      · rename_i hne
        refine ⟨rfl, fun hs => hne ?_⟩
        rwa [BitVec.and_comm]
    · exact ⟨rfl, fun hs => hs⟩

/-- What the loop over the waiting threads `l` does: `ws` are the threads made ready. -/
structure Walked (s : State T) (l : List T) (s' : State T) (ws : List (Wake T)) : Prop where
  set : Within s'.event.set s.event.set
  info : s'.eventInfo = s.eventInfo
  error : ∀ u, (s'.thread u).error = (s.thread u).error
  asked : ∀ w ∈ ws, w.thread ∈ l ∧ w.option = s.eventInfo w.thread ∧ w.want = s.eventSet w.thread
  fulfilled : ∀ w ∈ ws, w.Fulfilled ∧ Within w.set s.event.set
  left : ∀ w ∈ ws, s'.eventSet w.thread = w.recved
  others : ∀ u, (∀ w ∈ ws, w.thread ≠ u) → s'.eventSet u = s.eventSet u
  waits : ∀ t ∈ l, (∀ w ∈ ws, w.thread ≠ t) → ¬satisfied (s.eventInfo t) (s.eventSet t) s'.event.set
  nodup : s.event.suspendThread.Nodup → s'.event.suspendThread.Nodup
  suspended : s.event.suspendThread.Nodup →
    ∀ t, t ∈ s'.event.suspendThread ↔ t ∈ s.event.suspendThread ∧ ∀ w ∈ ws, w.thread ≠ t
  consumed : ws.Pairwise fun a b => a.option &&& flagClear ≠ 0 → a.recved &&& b.recved = 0

theorem resume_set_within (s : State T) (t : T) : Within (resume s t).event.set s.event.set := by
  simp only [resume]
  split
  · exact within_of_and _ _
  · exact within_refl _

theorem resume_error (s : State T) (t u : T) : ((resume s t).thread u).error = (s.thread u).error := by
  by_cases hut : u = t
  · simp [resume, hut, Thread.resume]
  · simp [resume, hut]

theorem Walked.cons {s s' : State T} {t : T} {l : List T} {ws : List (Wake T)}
    (hx : (examine s t).2 = true) (ht : t ∉ l) (h : Walked (resume (examine s t).1 t) l s' ws) :
    Walked s (t :: l) s'
      (⟨t, s.eventInfo t, s.eventSet t, s.event.set, (examine s t).1.eventSet t⟩ :: ws) := by
  obtain ⟨hful, hothers⟩ := examine_true hx
  have hfst := examine_fst s t
  generalize (examine s t).1 = s₁ at h hful hothers hfst
  have hset₁ : s₁.event = s.event := by rw [hfst]
  have hinfo₁ : s₁.eventInfo = s.eventInfo := by rw [hfst]
  have hthread₁ : s₁.thread = s.thread := by rw [hfst]
  have hset : Within (resume s₁ t).event.set s.event.set := by
    rw [← hset₁]
    exact resume_set_within s₁ t
  have hne : ∀ w ∈ ws, w.thread ≠ t := by
    rintro w hw rfl
    exact ht (h.asked w hw).1
  have hu : ∀ u, u ≠ t → (resume s₁ t).eventSet u = s.eventSet u := hothers
  refine ⟨within_trans h.set hset, h.info.trans hinfo₁, fun u => ?_, fun w hw => ?_, fun w hw => ?_,
    fun w hw => ?_, fun u hnot => ?_, fun u hmem hnot => ?_, fun hnd => ?_, fun hnd u => ?_, ?_⟩
  · rw [h.error u, resume_error, hthread₁]
  · rcases List.mem_cons.mp hw with rfl | hw
    · exact ⟨List.mem_cons_self, rfl, rfl⟩
    · obtain ⟨hmem, hopt, hwant⟩ := h.asked w hw
      refine ⟨List.mem_cons_of_mem t hmem, ?_, ?_⟩
      · rw [hopt, ← hinfo₁]
        rfl
      · rw [hwant, hu _ (hne w hw)]
  · rcases List.mem_cons.mp hw with rfl | hw
    · exact ⟨hful, within_refl _⟩
    · obtain ⟨hw₁, hw₂⟩ := h.fulfilled w hw
      exact ⟨hw₁, within_trans hw₂ hset⟩
  · rcases List.mem_cons.mp hw with rfl | hw
    · exact h.others t hne
    · exact h.left w hw
  · have hut : u ≠ t := fun he => hnot _ List.mem_cons_self he.symm
    rw [h.others u fun w hw => hnot w (List.mem_cons_of_mem _ hw), hu u hut]
  · have hut : u ≠ t := fun he => hnot _ List.mem_cons_self he.symm
    have hwait := h.waits u ((List.mem_cons.mp hmem).resolve_left hut)
      fun w hw => hnot w (List.mem_cons_of_mem _ hw)
    rw [hu u hut, show (resume s₁ t).eventInfo = s.eventInfo from hinfo₁] at hwait
    exact hwait
  · refine h.nodup ?_
    simp only [resume, hset₁]
    exact hnd.erase t
  · have hmem : u ∈ (resume s₁ t).event.suspendThread ↔ u ≠ t ∧ u ∈ s.event.suspendThread := by
      simp only [resume, hset₁]
      exact hnd.mem_erase_iff
    have hnd' : (resume s₁ t).event.suspendThread.Nodup := by
      simp only [resume, hset₁]
      exact hnd.erase t
    rw [h.suspended hnd' u, hmem, List.forall_mem_cons]
    tauto
  · refine List.pairwise_cons.mpr ⟨fun w hw hclear => ?_, h.consumed⟩
    -- the flags are taken out of the set that the later receivers see
    have hw' := (h.fulfilled w hw).1.2.2.1
    have hseen : Within w.recved (s.event.set &&& ~~~s₁.eventSet t) := by
      refine within_trans hw' (within_trans (h.fulfilled w hw).2 ?_)
      have hcl : s₁.eventInfo t &&& flagClear ≠ 0 := by
        rw [hinfo₁]
        exact hclear
      simp only [resume, if_pos hcl, hset₁]
      exact within_refl _
    exact and_eq_zero_of_within hseen (and_clear _ _)

theorem sendLoop_walked {l : List T} (s : State T) (hl : l.Nodup) :
    Walked s l (sendLoop l s).1 (sendLoop l s).2 := by
  induction l generalizing s with
  | nil =>
    exact ⟨within_refl _, rfl, fun _ => rfl, by simp [sendLoop], by simp [sendLoop], by simp [sendLoop],
      fun _ _ => rfl, by simp, fun h => h, by simp [sendLoop], List.Pairwise.nil⟩
  | cons t l ih =>
    obtain ⟨ht, hl'⟩ := List.nodup_cons.mp hl
    simp only [sendLoop]
    cases hx : (examine s t).2 with
    | true =>
      simp only [if_true]
      exact Walked.cons hx ht (ih _ hl')
    | false =>
      obtain ⟨hsame, hnot⟩ := examine_false hx
      have h := ih s hl'
      simp only [hsame, Bool.false_eq_true, if_false]
      refine { h with asked := fun w hw => ?_, waits := fun u hu hne => ?_ }
      · obtain ⟨hmem, hrest⟩ := h.asked w hw
        exact ⟨List.mem_cons_of_mem t hmem, hrest⟩
      · rcases List.mem_cons.mp hu with rfl | hu
        · exact fun hs => hnot (satisfied_mono h.set hs)
        · exact h.waits u hu hne

/-! ### The system -/

/-- Where a thread stands in `rt_event_recv`: outside, suspended, or ready again. A thread that
a send made ready has its wake; one whose timer expired has none. -/
inductive Frame (T : Type*) where
  | idle
  | waiting (option : BitVec 8) (want : BitVec 32)
  | ready (option : BitVec 8) (want : BitVec 32) (wake : Option (Wake T))

/-- What a receiver that was suspended has stored at `recved`. -/
structure Received (T : Type*) where
  option : BitVec 8
  want : BitVec 32
  wake : Option (Wake T)
  flags : BitVec 32

/-- `sends` and `received` are history; `sends` has the wakes of each send in the order of the
loop. -/
structure Sys (T : Type*) where
  state : State T
  frame : T → Frame T
  sends : List (List (Wake T))
  received : List (Received T)

omit [DecidableEq T] in
def start (state : State T) : Sys T := ⟨state, fun _ => .idle, [], []⟩

def Sys.setFrame (s : Sys T) (t : T) (f : Frame T) : Sys T :=
  { s with frame := Function.update s.frame t f }

def wakeFrames (ws : List (Wake T)) (frame : T → Frame T) (t : T) : Frame T :=
  match frame t, ws.find? fun w => w.thread = t with
  | .waiting option want, some w => .ready option want (some w)
  | f, _ => f

def Sys.send (s : Sys T) (set : BitVec 32) : Sys T :=
  let r := rtEventSend s.state set
  { s with state := r.1, frame := wakeFrames r.2 s.frame, sends := r.2 :: s.sends }

def Sys.recordRecv (s : Sys T) (t : T) (set : BitVec 32) (option : BitVec 8) (r : State T × Outcome) :
    Sys T :=
  match r.2 with
  | .suspended => { s with state := r.1 }.setFrame t (.waiting option set)
  | _ => { s with state := r.1 }

def Sys.recordReturn (s : Sys T) (t : T) (option : BitVec 8) (want : BitVec 32) (wake : Option (Wake T)) :
    Sys T :=
  match rtEventRecvReturn s.state t with
  | .received flags => { s with received := ⟨option, want, wake, flags⟩ :: s.received }.setFrame t .idle
  | _ => s.setFrame t .idle

def Sys.expire (s : Sys T) (t : T) (option : BitVec 8) (want : BitVec 32) : Sys T :=
  { s with state := rtThreadTimeout s.state t }.setFrame t (.ready option want none)

inductive Act (T : Type*) where
  | send (set : BitVec 32)
  | recv (t : T) (set : BitVec 32) (option : BitVec 8) (timeout : ℤ)
  | recvReturn (t : T)
  | timeout (t : T)

/-- One interrupt-disabled section. -/
def step (s : Sys T) : Act T → Option (Sys T)
  | .send set => some (s.send set)
  | .recv t set option timeout =>
    match s.frame t with
    | .idle => (rtEventRecv s.state t set option timeout).map (s.recordRecv t set option)
    | _ => none
  | .recvReturn t =>
    match s.frame t with
    | .ready option want wake => some (s.recordReturn t option want wake)
    | _ => none
  | .timeout t =>
    match s.frame t with
    | .waiting option want =>
      if (s.state.thread t).threadTimer = true then some (s.expire t option want) else none
    | _ => none

theorem step_cases {s s' : Sys T} {a : Act T} (h : step s a = some s') :
    (∃ set, s' = s.send set) ∨
    (∃ t set option timeout r, s.frame t = .idle ∧
      rtEventRecv s.state t set option timeout = some r ∧ s' = s.recordRecv t set option r) ∨
    (∃ t option want wake, s.frame t = .ready option want wake ∧ s' = s.recordReturn t option want wake) ∨
    (∃ t option want, s.frame t = .waiting option want ∧ s' = s.expire t option want) := by
  cases a with
  | send set =>
    simp only [step, Option.some.injEq] at h
    exact Or.inl ⟨set, h.symm⟩
  | recv t set option timeout =>
    simp only [step] at h
    split at h
    · rename_i hf
      obtain ⟨r, hr, rfl⟩ := Option.map_eq_some_iff.mp h
      exact Or.inr (Or.inl ⟨t, set, option, timeout, r, hf, hr, rfl⟩)
    · cases h
  | recvReturn t =>
    simp only [step] at h
    split at h
    · rename_i option want wake hf
      cases h
      exact Or.inr (Or.inr (Or.inl ⟨t, option, want, wake, hf, rfl⟩))
    · cases h
  | timeout t =>
    simp only [step] at h
    split at h
    · rename_i option want hf
      simp only [Option.ite_none_right_eq_some, Option.some.injEq] at h
      exact Or.inr (Or.inr (Or.inr ⟨t, option, want, hf, h.2.symm⟩))
    · cases h

/-- What every run keeps. -/
structure Inv (s : Sys T) : Prop where
  nodup : s.state.event.suspendThread.Nodup
  listed : ∀ t, t ∈ s.state.event.suspendThread ↔ ∃ option want, s.frame t = .waiting option want
  waiting : ∀ t option want, s.frame t = .waiting option want →
    s.state.eventInfo t = option ∧ s.state.eventSet t = want ∧ (s.state.thread t).error = .eok ∧
      ¬satisfied option want s.state.event.set
  woken : ∀ t option want w, s.frame t = .ready option want (some w) →
    s.state.eventSet t = w.recved ∧ w.option = option ∧ w.want = want ∧ ∃ ws ∈ s.sends, w ∈ ws
  expired : ∀ t option want, s.frame t = .ready option want none → (s.state.thread t).error ≠ .eok
  fulfilled : ∀ ws ∈ s.sends, ∀ w ∈ ws, w.Fulfilled
  consumed : ∀ ws ∈ s.sends,
    ws.Pairwise fun a b => a.option &&& flagClear ≠ 0 → a.recved &&& b.recved = 0
  received : ∀ r ∈ s.received, ∃ w, r.wake = some w ∧ w.option = r.option ∧ w.want = r.want ∧
    w.recved = r.flags ∧ ∃ ws ∈ s.sends, w ∈ ws

theorem rtEventSend_walked (s : State T) (set : BitVec 32) (hnd : s.event.suspendThread.Nodup)
    (hset : set ≠ 0) :
    Walked { s with event := { s.event with set := s.event.set ||| set } } s.event.suspendThread
      (rtEventSend s set).1 (rtEventSend s set).2 := by
  unfold rtEventSend
  rw [if_neg hset]
  exact sendLoop_walked _ hnd

theorem wakeFrames_eq_waiting {ws : List (Wake T)} {frame : T → Frame T} {t : T} {option : BitVec 8}
    {want : BitVec 32} :
    wakeFrames ws frame t = .waiting option want ↔
      frame t = .waiting option want ∧ ∀ w ∈ ws, w.thread ≠ t := by
  have hfind : (ws.find? fun w => w.thread = t) = none ↔ ∀ w ∈ ws, w.thread ≠ t := by
    simp [List.find?_eq_none]
  unfold wakeFrames
  rw [← hfind]
  cases frame t <;> cases ws.find? fun w => w.thread = t <;> simp

theorem wakeFrames_eq_ready {ws : List (Wake T)} {frame : T → Frame T} {t : T} {option : BitVec 8}
    {want : BitVec 32} {wake : Option (Wake T)} (h : wakeFrames ws frame t = .ready option want wake) :
    frame t = .ready option want wake ∨
      frame t = .waiting option want ∧ ∃ w ∈ ws, w.thread = t ∧ wake = some w := by
  unfold wakeFrames at h
  split at h
  · rename_i option' want' w hf hw
    cases h
    have ht := List.find?_some hw
    exact Or.inr ⟨hf, w, List.mem_of_find?_eq_some hw, of_decide_eq_true ht, rfl⟩
  · exact Or.inl h

theorem Inv.addSend {s : Sys T} {s' : State T} {ws : List (Wake T)} {set : BitVec 32} (h : Inv s)
    (hw : Walked { s.state with event := { s.state.event with set := set } }
      s.state.event.suspendThread s' ws) :
    Inv { s with state := s', frame := wakeFrames ws s.frame, sends := ws :: s.sends } := by
  constructor
  · exact hw.nodup h.nodup
  · intro t
    refine (hw.suspended h.nodup t).trans ?_
    simp only [wakeFrames_eq_waiting, exists_and_right, ← h.listed t]
  · intro t option want he
    obtain ⟨hf, hne⟩ := wakeFrames_eq_waiting.mp he
    obtain ⟨hinfo, hset, herr, -⟩ := h.waiting t option want hf
    have hwait := hw.waits t ((h.listed t).mpr ⟨option, want, hf⟩) hne
    simp only [hinfo, hset] at hwait
    exact ⟨(congrFun hw.info t).trans hinfo, (hw.others t hne).trans hset, (hw.error t).trans herr, hwait⟩
  · intro t option want w he
    rcases wakeFrames_eq_ready he with hf | ⟨hf, w', hmem, ht, hwake⟩
    · obtain ⟨hset, hopt, hwant, ws', hws', hw'⟩ := h.woken t option want w hf
      have hne : ∀ w ∈ ws, w.thread ≠ t := by
        rintro w hw' rfl
        obtain ⟨option', want', hf'⟩ := (h.listed _).mp (hw.asked w hw').1
        rw [hf] at hf'
        cases hf'
      exact ⟨(hw.others t hne).trans hset, hopt, hwant, ws', List.mem_cons_of_mem ws hws', hw'⟩
    · cases hwake
      subst ht
      obtain ⟨-, hopt, hwant⟩ := hw.asked w hmem
      obtain ⟨hinfo, hset, -⟩ := h.waiting _ option want hf
      exact ⟨hw.left w hmem, hopt.trans hinfo, hwant.trans hset, ws, List.mem_cons_self, hmem⟩
  · intro t option want he
    rcases wakeFrames_eq_ready he with hf | ⟨-, w, -, -, hwake⟩
    · exact fun h0 => h.expired t option want hf ((hw.error t).symm.trans h0)
    · cases hwake
  · intro ws' hws' w hw'
    rcases List.mem_cons.mp hws' with rfl | hws'
    · exact (hw.fulfilled w hw').1
    · exact h.fulfilled ws' hws' w hw'
  · intro ws' hws'
    rcases List.mem_cons.mp hws' with rfl | hws'
    · exact hw.consumed
    · exact h.consumed ws' hws'
  · intro r hr
    obtain ⟨w, h₁, h₂, h₃, h₄, ws', hws', hw'⟩ := h.received r hr
    exact ⟨w, h₁, h₂, h₃, h₄, ws', List.mem_cons_of_mem ws hws', hw'⟩

theorem send_inv {s : Sys T} (h : Inv s) (set : BitVec 32) : Inv (s.send set) := by
  by_cases hset : set = 0
  · -- nothing is set, and by the invariant nobody is to be made ready
    refine @Inv.addSend _ _ _ _ _ s.state.event.set h ?_
    rw [rtEventSend, if_pos hset]
    refine ⟨within_refl _, rfl, fun _ => rfl, by simp, by simp, by simp, fun _ _ => rfl,
      fun t ht _ => ?_, fun hnd => hnd, by simp, List.Pairwise.nil⟩
    obtain ⟨option, want, hf⟩ := (h.listed t).mp ht
    obtain ⟨hinfo, hset', -, hnot⟩ := h.waiting t option want hf
    simpa only [hinfo, hset'] using hnot
  · exact h.addSend (rtEventSend_walked s.state set h.nodup hset)

theorem rtEventRecv_returned {s s' : State T} {t : T} {set : BitVec 32} {option : BitVec 8} {timeout : ℤ}
    {o : Outcome} (h : rtEventRecv s t set option timeout = some (s', o)) (ho : o ≠ .suspended) :
    s'.eventSet = s.eventSet ∧ s'.eventInfo = s.eventInfo ∧
      s'.event.suspendThread = s.event.suspendThread ∧ Within s'.event.set s.event.set ∧
      ∀ u, u ≠ t → s'.thread u = s.thread u := by
  unfold rtEventRecv at h
  split at h
  · cases h
    exact ⟨rfl, rfl, rfl, within_refl _, fun _ _ => rfl⟩
  · split at h
    · cases h
    · simp only at h
      split at h
      · cases h
        refine ⟨rfl, rfl, rfl, ?_, fun u hu => Function.update_of_ne hu _ _⟩
        simp only
        split
        · exact within_of_and _ _
        · exact within_refl _
      · split at h
        · cases h
          exact ⟨rfl, rfl, rfl, within_refl _, fun u hu => by simp [hu]⟩
        · cases h
          exact absurd rfl ho

theorem rtEventRecv_suspended {s s' : State T} {t : T} {set : BitVec 32} {option : BitVec 8} {timeout : ℤ}
    (h : rtEventRecv s t set option timeout = some (s', .suspended)) :
    ¬satisfied option set s.event.set ∧ s'.event.set = s.event.set ∧
      s'.eventSet = Function.update s.eventSet t set ∧ s'.eventInfo = Function.update s.eventInfo t option ∧
      s'.event.suspendThread =
        rtIpcListSuspend s.event.flag (fun u => (Function.update s.thread t
          { s.thread t with error := .eok } u).currentPriority) s.event.suspendThread t ∧
      (s'.thread t).error = .eok ∧ ∀ u, u ≠ t → s'.thread u = s.thread u := by
  unfold rtEventRecv at h
  split at h
  · cases h
  · split at h
    · cases h
    · simp only at h
      split at h
      · cases h
      · rename_i hnot
        split at h
        · cases h
        · cases h
          exact ⟨hnot, rfl, rfl, rfl, rfl, by simp [Thread.suspend], fun u hu => by simp [hu]⟩

theorem frame_of_setFrame {s : Sys T} {t u : T} {f g : Frame T} (h : (s.setFrame t f).frame u = g)
    (hne : f ≠ g) : u ≠ t ∧ s.frame u = g := by
  simp only [Sys.setFrame] at h
  by_cases hut : u = t
  · rw [hut, Function.update_self] at h
    exact absurd h hne
  · rw [Function.update_of_ne hut] at h
    exact ⟨hut, h⟩

theorem recordRecv_inv {s : Sys T} (h : Inv s) {t : T} {set : BitVec 32} {option : BitVec 8} {timeout : ℤ}
    {r : State T × Outcome} (ht : s.frame t = .idle)
    (hr : rtEventRecv s.state t set option timeout = some r) : Inv (s.recordRecv t set option r) := by
  obtain ⟨s', o⟩ := r
  have hne : ∀ u f, s.frame u = f → f ≠ .idle → u ≠ t := by
    rintro u f hf hidle rfl
    exact hidle (hf.symm.trans ht)
  by_cases ho : o = .suspended
  · subst ho
    obtain ⟨hnot, hset, heset, hinfo, hlist, herr, hthread⟩ := rtEventRecv_suspended hr
    have hmem : t ∉ s.state.event.suspendThread := by
      rw [h.listed]
      rintro ⟨option', want', hf⟩
      rw [ht] at hf
      cases hf
    constructor
    · simp only [Sys.recordRecv, Sys.setFrame, hlist]
      exact nodup_rtIpcListSuspend.mpr ⟨hmem, h.nodup⟩
    · intro u
      simp only [Sys.recordRecv, Sys.setFrame, hlist, mem_rtIpcListSuspend, h.listed]
      by_cases hut : u = t
      · simp [hut]
      · simp [hut]
    · intro u option' want' hf
      simp only [Sys.recordRecv, Sys.setFrame] at hf ⊢
      by_cases hut : u = t
      · subst hut
        rw [Function.update_self] at hf
        cases hf
        rw [heset, hinfo, hset, Function.update_self, Function.update_self]
        exact ⟨rfl, rfl, herr, hnot⟩
      · rw [Function.update_of_ne hut] at hf
        rw [heset, hinfo, hset, Function.update_of_ne hut, Function.update_of_ne hut, hthread u hut]
        exact h.waiting u option' want' hf
    · intro u option' want' w hf
      obtain ⟨hut, hf⟩ := frame_of_setFrame hf (by simp)
      simp only [Sys.recordRecv, Sys.setFrame, heset, Function.update_of_ne hut]
      exact h.woken u option' want' w hf
    · intro u option' want' hf
      obtain ⟨hut, hf⟩ := frame_of_setFrame hf (by simp)
      simp only [Sys.recordRecv, Sys.setFrame, hthread u hut]
      exact h.expired u option' want' hf
    · exact h.fulfilled
    · exact h.consumed
    · exact h.received
  · obtain ⟨heset, hinfo, hlist, hset, hthread⟩ := rtEventRecv_returned hr ho
    have hrec : s.recordRecv t set option (s', o) = { s with state := s' } := by
      cases o with
      | suspended => exact absurd rfl ho
      | failed e => rfl
      | received flags => rfl
    rw [hrec]
    constructor
    · exact hlist ▸ h.nodup
    · intro u
      rw [hlist]
      exact h.listed u
    · intro u option' want' hf
      obtain ⟨h₁, h₂, h₃, h₄⟩ := h.waiting u option' want' hf
      rw [heset, hinfo, hthread u (hne u _ hf (by simp))]
      exact ⟨h₁, h₂, h₃, fun hs => h₄ (satisfied_mono hset hs)⟩
    · intro u option' want' w hf
      rw [heset]
      exact h.woken u option' want' w hf
    · intro u option' want' hf
      rw [hthread u (hne u _ hf (by simp))]
      exact h.expired u option' want' hf
    · exact h.fulfilled
    · exact h.consumed
    · exact h.received

theorem Inv.leave {s : Sys T} (h : Inv s) {t : T} {option : BitVec 8} {want : BitVec 32}
    {wake : Option (Wake T)} (ht : s.frame t = .ready option want wake) : Inv (s.setFrame t .idle) := by
  constructor
  · exact h.nodup
  · intro u
    refine (h.listed u).trans ?_
    by_cases hut : u = t
    · simp [Sys.setFrame, hut, ht]
    · simp [Sys.setFrame, hut]
  · exact fun u _ _ hu => h.waiting u _ _ (frame_of_setFrame hu (by simp)).2
  · exact fun u _ _ _ hu => h.woken u _ _ _ (frame_of_setFrame hu (by simp)).2
  · exact fun u _ _ hu => h.expired u _ _ (frame_of_setFrame hu (by simp)).2
  · exact h.fulfilled
  · exact h.consumed
  · exact h.received

theorem recordReturn_inv {s : Sys T} (h : Inv s) {t : T} {option : BitVec 8} {want : BitVec 32}
    {wake : Option (Wake T)} (ht : s.frame t = .ready option want wake) :
    Inv (s.recordReturn t option want wake) := by
  have hleave := h.leave ht
  unfold Sys.recordReturn rtEventRecvReturn
  by_cases herr : (s.state.thread t).error = .eok
  · rw [if_neg (not_not.mpr herr)]
    refine { hleave with received := fun r hr => ?_ }
    rcases List.mem_cons.mp hr with rfl | hr
    · cases wake with
      | none => exact absurd herr (h.expired t option want ht)
      | some w =>
        obtain ⟨hset, hopt, hwant, hws⟩ := h.woken t option want w ht
        exact ⟨w, rfl, hopt, hwant, hset.symm, hws⟩
    · exact h.received r hr
  · rw [if_pos herr]
    exact hleave

theorem expire_inv {s : Sys T} (h : Inv s) {t : T} {option : BitVec 8} {want : BitVec 32}
    (ht : s.frame t = .waiting option want) : Inv (s.expire t option want) := by
  have hthread : ∀ u, u ≠ t → (rtThreadTimeout s.state t).thread u = s.state.thread u :=
    fun u hu => Function.update_of_ne hu _ _
  constructor
  · exact h.nodup.erase t
  · intro u
    simp only [Sys.expire, Sys.setFrame, rtThreadTimeout, h.nodup.mem_erase_iff, h.listed]
    by_cases hut : u = t
    · simp [hut]
    · simp [hut]
  · intro u option' want' hf
    obtain ⟨hut, hf⟩ := frame_of_setFrame hf (by simp)
    simp only [Sys.expire, Sys.setFrame, hthread u hut]
    exact h.waiting u option' want' hf
  · intro u option' want' w hf
    exact h.woken u option' want' w (frame_of_setFrame hf (by simp)).2
  · intro u option' want' hf
    simp only [Sys.expire, Sys.setFrame] at hf ⊢
    by_cases hut : u = t
    · subst hut
      simp [rtThreadTimeout, Thread.timeout]
    · rw [Function.update_of_ne hut] at hf
      rw [hthread u hut]
      exact h.expired u option' want' hf
  · exact h.fulfilled
  · exact h.consumed
  · exact h.received

theorem step_inv {s s' : Sys T} {a : Act T} (h : Inv s) (hs : step s a = some s') : Inv s' := by
  rcases step_cases hs with ⟨set, rfl⟩ | ⟨t, set, option, timeout, r, ht, hr, rfl⟩ |
    ⟨t, option, want, wake, ht, rfl⟩ | ⟨t, option, want, ht, rfl⟩
  · exact send_inv h set
  · exact recordRecv_inv h ht hr
  · exact recordReturn_inv h ht
  · exact expire_inv h ht

omit [DecidableEq T] in
theorem start_inv (flag : IpcFlag) (thread : T → Thread) (eventSet : T → BitVec 32)
    (eventInfo : T → BitVec 8) : Inv (start (rtEventInit flag thread eventSet eventInfo)) := by
  constructor <;> simp [start, rtEventInit]

/-- After every run: the condition of no suspended receiver is fulfilled by the set; what a
suspended receiver got from a send fulfils its condition and was in the set when the send
examined it; and flags taken by a receiver with `RT_EVENT_FLAG_CLEAR` are given to no receiver
that the same send examines later. -/
theorem event_no_missed_wakeup {flag : IpcFlag} {thread : T → Thread} {eventSet : T → BitVec 32}
    {eventInfo : T → BitVec 8} {acts : List (Act T)} {s : Sys T}
    (hrun : exec step (start (rtEventInit flag thread eventSet eventInfo)) acts = some s) :
    (∀ t option want, s.frame t = .waiting option want →
      t ∈ s.state.event.suspendThread ∧ ¬satisfied option want s.state.event.set) ∧
    (∀ t ∈ s.state.event.suspendThread, ∃ option want, s.frame t = .waiting option want) ∧
    (∀ r ∈ s.received, ∃ w ws, ws ∈ s.sends ∧ w ∈ ws ∧ r = ⟨w.option, w.want, some w, w.recved⟩ ∧
      satisfied w.option w.want w.set ∧ satisfied w.option w.want w.recved ∧
      w.recved &&& w.set = w.recved ∧ w.recved &&& w.want = w.recved) ∧
    (∀ ws ∈ s.sends, ws.Pairwise fun a b => a.option &&& flagClear ≠ 0 → a.recved &&& b.recved = 0) := by
  have h : Inv s := exec_inv Inv (fun _ _ _ => step_inv) (start_inv flag thread eventSet eventInfo) hrun
  refine ⟨fun t option want hf => ?_, fun t ht => (h.listed t).mp ht, fun r hr => ?_, h.consumed⟩
  · exact ⟨(h.listed t).mpr ⟨option, want, hf⟩, (h.waiting t option want hf).2.2.2⟩
  · obtain ⟨w, hwake, hopt, hwant, hflags, ws, hws, hw⟩ := h.received r hr
    refine ⟨w, ws, hws, hw, ?_, h.fulfilled ws hws w hw⟩
    rw [hopt, hwant, hflags, ← hwake]

/-- Three receivers: 1 wants flag 0 or 1 and clears, 2 wants flags 0 and 2, 3 wants flag 1 or 3.
Flags 0 and 3 are sent: receiver 1 takes flag 0, so that 2 goes on waiting, and 3 gets flag 3. -/
def clearRun : List (Act ℕ) :=
  [.recv 1 3 (flagOr ||| flagClear) (-1), .recv 2 5 flagAnd 10, .recv 3 10 flagOr (-1), .send 9,
    .recvReturn 1, .recvReturn 3]

theorem event_no_missed_wakeup_clear :
    ∃ s, exec step (start (rtEventInit .fifo (fun t : ℕ => rtThreadInit t) (fun _ => 0) fun _ => 0)) clearRun =
        some s ∧
      s.state.event.suspendThread = [2] ∧ s.received.map (fun r => r.flags) = [8, 1] ∧
      (∀ ws ∈ s.sends, ws.Pairwise fun a b => a.option &&& flagClear ≠ 0 → a.recved &&& b.recved = 0) := by
  refine ⟨_, rfl, by decide, by decide, ?_⟩
  have h := @event_no_missed_wakeup ℕ _ .fifo (fun t => rtThreadInit t) (fun _ => 0) (fun _ => 0) clearRun _ rfl
  exact h.2.2.2

end RtThread.Ipc.Event
