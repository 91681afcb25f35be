import RtThread.Lib.Flags
import RtThread.Lib.Transition
import RtThread.Lib.Word

/-!
# Opening and closing a device (`device.c:240-331`)

The driver's callbacks are parameters: each of them gets the device with the driver's own state
and returns it with an error code. The code treats `-RT_ENOSYS` of the open and the close callback
as success, and returns it: a result is `ok` with the code that is returned when the device counts
as opened or closed, and `error` with that code otherwise. A call of `rt_device_open` that fails
the assertion on `ref_count` does not return.
-/

namespace RtThread.Drivers.Device

open RtThread.Lib.Flags RtThread.Lib.Transition RtThread.Lib.Word

def rtEok : ℤ := 0
def rtError : ℤ := 1
def rtEnosys : ℤ := 6
def rtEbusy : ℤ := 7
def rtEio : ℤ := 8

def flagStandalone : BitVec 16 := 0x008
def flagActivated : BitVec 16 := 0x010
def oflagClose : BitVec 16 := 0x000
def oflagOpen : BitVec 16 := 0x008
def oflagMask : BitVec 16 := 0xf0f

/-- `struct rt_device` (`rtdef.h:935-974`); `driver` is what the driver keeps behind it. -/
structure RtDevice (σ : Type*) where
  flag : BitVec 16
  openFlag : BitVec 16
  refCount : ℕ
  driver : σ
  deriving DecidableEq

structure RtDeviceOps (σ : Type*) where
  deviceInit : Option (RtDevice σ → RtDevice σ × ℤ)
  deviceOpen : Option (RtDevice σ → BitVec 16 → RtDevice σ × ℤ)
  deviceClose : Option (RtDevice σ → RtDevice σ × ℤ)

variable {σ : Type*}

/-- The results on which the device counts as opened, and as closed. -/
def succeeded (result : ℤ) : Bool := decide (result = rtEok) || decide (result = -rtEnosys)

/-- The first part of `rt_device_open`: the device is initialized unless it is activated. -/
def activate (ops : RtDeviceOps σ) (dev : RtDevice σ) : RtDevice σ × ℤ :=
  if has dev.flag flagActivated = true then (dev, rtEok)
  else
    let r := match ops.deviceInit with
      | some deviceInit => deviceInit dev
      | none => (dev, rtEok)
    if r.2 = rtEok then ({ r.1 with flag := r.1.flag ||| flagActivated }, rtEok) else r

/-- The call of the driver's open callback, or what stands for it. -/
def callOpen (ops : RtDeviceOps σ) (dev : RtDevice σ) (oflag : BitVec 16) : RtDevice σ × ℤ :=
  match ops.deviceOpen with
  | some deviceOpen => deviceOpen dev oflag
  | none => ({ dev with openFlag := oflag &&& oflagMask }, rtEok)

/-- `rt_device_open` (`device.c:240-291`). -/
def rtDeviceOpen (ops : RtDeviceOps σ) (dev : RtDevice σ) (oflag : BitVec 16) : Option (RtDevice σ × Except ℤ ℤ) :=
  let r := activate ops dev
  if r.2 ≠ rtEok then some (r.1, .error r.2)
  else if has r.1.flag flagStandalone = true ∧ has r.1.openFlag oflagOpen = true then some (r.1, .error (-rtEbusy))
  else
    let r := callOpen ops r.1 oflag
    if succeeded r.2 = true then
      let refCount := inc 8 r.1.refCount
      if refCount ≠ 0 then
        some ({ r.1 with openFlag := r.1.openFlag ||| oflagOpen, refCount := refCount }, .ok r.2)
      else none
    else some (r.1, .error r.2)

def callClose (ops : RtDeviceOps σ) (dev : RtDevice σ) : RtDevice σ × ℤ :=
  match ops.deviceClose with
  | some deviceClose => deviceClose dev
  | none => (dev, rtEok)

/-- `rt_device_close` (`device.c:301-331`). -/
def rtDeviceClose (ops : RtDeviceOps σ) (dev : RtDevice σ) : RtDevice σ × Except ℤ ℤ :=
  if dev.refCount = 0 then (dev, .error (-rtError))
  else
    let dev := { dev with refCount := dec 8 dev.refCount }
    if dev.refCount ≠ 0 then (dev, .ok rtEok)
    else
      let r := callClose ops dev
      if succeeded r.2 = true then ({ r.1 with openFlag := oflagClose }, .ok r.2) else (r.1, .error r.2)

/-! ### Drivers whose callbacks fail -/

/-- What the callbacks of a driver return in one call, `none` for a callback that is not there. An
open callback that succeeds may set `open_flag`; the callbacks leave the device alone otherwise. -/
structure Results where
  init : Option ℤ
  opened : Option (ℤ × BitVec 16)
  closed : Option ℤ
  deriving DecidableEq

def Results.ops (r : Results) : RtDeviceOps Unit where
  deviceInit := r.init.map fun code dev => (dev, code)
  deviceOpen := r.opened.map fun o dev _ => (if succeeded o.1 = true then { dev with openFlag := o.2 } else dev, o.1)
  deviceClose := r.closed.map fun code dev => (dev, code)

/-- The device, the numbers of the calls that succeeded, and whether every call that failed has left
`ref_count` and `open_flag` as they were. -/
structure Sys where
  dev : RtDevice Unit
  opens : ℕ
  closes : ℕ
  kept : Bool

/-- A device as `rt_device_register` leaves it (`device.c:60-84`). -/
def registered (flag : BitVec 16) : Sys := ⟨⟨flag, oflagClose, 0, ()⟩, 0, 0, true⟩

inductive Act where
  | opened (oflag : BitVec 16) (r : Results)
  | closed (r : Results)
  deriving DecidableEq

def kept (dev dev' : RtDevice Unit) : Bool :=
  decide (dev'.refCount = dev.refCount) && decide (dev'.openFlag = dev.openFlag)

def step (s : Sys) : Act → Option Sys
  | .opened oflag r => (rtDeviceOpen r.ops s.dev oflag).map fun
    | (dev, .ok _) => { s with dev := dev, opens := s.opens + 1 }
    | (dev, .error _) => { s with dev := dev, kept := s.kept && kept s.dev dev }
  | .closed r => some (match rtDeviceClose r.ops s.dev with
    | (dev, .ok _) => { s with dev := dev, closes := s.closes + 1 }
    | (dev, .error _) => { s with dev := dev, kept := s.kept && kept s.dev dev })

structure Consistent (s : Sys) : Prop where
  open_iff : has s.dev.openFlag oflagOpen = true ↔ 0 < s.dev.refCount
  count : s.dev.refCount + s.closes = s.opens
  kept : s.kept = true

/-- The close callback is not called, or it succeeds. -/
def CloseSucceeds (s : Sys) : Act → Prop
  | .opened _ _ => True
  | .closed r => s.dev.refCount = 1 → ∀ code, r.closed = some code → succeeded code = true

variable {s s' : Sys}

theorem has_open_or (x : BitVec 16) : has (x ||| oflagOpen) oflagOpen = true := by
  rw [has_or, show has oflagOpen oflagOpen = true by decide, Bool.or_true]

theorem has_close : ¬has oflagClose oflagOpen = true := by decide

theorem rtDeviceOpen_cases {r : Results} {dev : RtDevice Unit} {oflag : BitVec 16} {o : RtDevice Unit × Except ℤ ℤ}
    (h : rtDeviceOpen r.ops dev oflag = some o) :
    (∃ code, o.2 = .error code ∧ o.1.refCount = dev.refCount ∧ o.1.openFlag = dev.openFlag) ∨
    (∃ code flags, o.2 = .ok code ∧ inc 8 dev.refCount ≠ 0 ∧ o.1.refCount = inc 8 dev.refCount ∧
      o.1.openFlag = flags ||| oflagOpen) := by
  have hact : (activate r.ops dev).1.refCount = dev.refCount ∧ (activate r.ops dev).1.openFlag = dev.openFlag := by
    unfold activate Results.ops
    cases r.init with
    | none => simp only [Option.map_none, if_true]; split <;> exact ⟨rfl, rfl⟩
    | some code =>
      simp only [Option.map_some]
      split
      · exact ⟨rfl, rfl⟩
      · split <;> exact ⟨rfl, rfl⟩
  unfold rtDeviceOpen at h
  generalize activate r.ops dev = a at h hact
  simp only at h
  split at h
  · cases h
    exact Or.inl ⟨_, rfl, hact⟩
  · split at h
    · cases h
      exact Or.inl ⟨_, rfl, hact⟩
    · have hcall : (callOpen r.ops a.1 oflag).1.refCount = dev.refCount ∧
          (succeeded (callOpen r.ops a.1 oflag).2 = false → (callOpen r.ops a.1 oflag).1.openFlag = dev.openFlag) := by
        unfold callOpen Results.ops
        cases r.opened with
        | none => exact ⟨hact.1, fun hf => by cases hf⟩
        | some o =>
          simp only [Option.map_some]
          split
          · rename_i hok
            exact ⟨hact.1, fun hf => by rw [hok] at hf; cases hf⟩
          · exact ⟨hact.1, fun _ => hact.2⟩
      split at h
      · split at h
        · rename_i hne
          cases h
          rw [hcall.1] at hne
          exact Or.inr ⟨_, _, rfl, hne, congrArg (inc 8) hcall.1, rfl⟩
        · cases h
      · rename_i hfail
        cases h
        exact Or.inl ⟨_, rfl, hcall.1, hcall.2 (Bool.not_eq_true _ ▸ hfail)⟩

theorem rtDeviceClose_cases (r : Results) (dev : RtDevice Unit) :
    (dev.refCount = 0 ∧ rtDeviceClose r.ops dev = (dev, .error (-rtError))) ∨
    (1 < dev.refCount ∧ rtDeviceClose r.ops dev = ({ dev with refCount := dev.refCount - 1 }, .ok rtEok)) ∨
    (dev.refCount = 1 ∧ (∀ code, r.closed = some code → succeeded code = true) ∧
      ∃ code, rtDeviceClose r.ops dev = ({ dev with refCount := 0, openFlag := oflagClose }, .ok code)) ∨
    (dev.refCount = 1 ∧ ¬(∀ code, r.closed = some code → succeeded code = true) ∧
      ∃ code, rtDeviceClose r.ops dev = ({ dev with refCount := 0 }, .error code)) := by
  unfold rtDeviceClose
  by_cases hzero : dev.refCount = 0
  · rw [if_pos hzero]
    exact Or.inl ⟨hzero, rfl⟩
  · rw [if_neg hzero, dec_of_pos (Nat.pos_of_ne_zero hzero)]
    simp only
    by_cases hone : dev.refCount = 1
    · rw [hone, Nat.sub_self, if_neg (not_not.mpr rfl)]
      unfold callClose Results.ops
      cases r.closed with
      | none => exact Or.inr (Or.inr (Or.inl ⟨rfl, fun code hc => (by cases hc), _, rfl⟩))
      | some code =>
        simp only [Option.map_some, Option.some.injEq, forall_eq']
        by_cases hok : succeeded code = true
        · rw [if_pos hok]
          exact Or.inr (Or.inr (Or.inl ⟨trivial, hok, _, rfl⟩))
        · rw [if_neg hok]
          exact Or.inr (Or.inr (Or.inr ⟨trivial, hok, _, rfl⟩))
    · rw [if_pos (by omega)]
      exact Or.inr (Or.inl ⟨by omega, rfl⟩)

theorem step_bound {a : Act} (h : s.dev.refCount < 256) (hstep : step s a = some s') : s'.dev.refCount < 256 := by
  cases a with
  | opened oflag r =>
    obtain ⟨⟨dev, res⟩, ho, rfl⟩ := Option.map_eq_some_iff.mp hstep
    rcases rtDeviceOpen_cases ho with ⟨code, rfl, href, -⟩ | ⟨code, flags, rfl, -, href, -⟩
    · exact href.trans_lt h
    · exact href.trans_lt (inc_lt 8 _)
  | closed r =>
    cases hstep
    rcases rtDeviceClose_cases r s.dev with ⟨-, heq⟩ | ⟨-, heq⟩ | ⟨-, -, code, heq⟩ | ⟨-, -, code, heq⟩ <;>
      rw [heq] <;> simp only <;> omega

theorem step_consistent_iff {a : Act} (h : s.dev.refCount < 256) (hc : Consistent s) (hstep : step s a = some s') :
    Consistent s' ↔ CloseSucceeds s a := by
  obtain ⟨hiff, hcount, hkept⟩ := hc
  cases a with
  | opened oflag r =>
    refine iff_of_true ?_ trivial
    obtain ⟨⟨dev, res⟩, ho, rfl⟩ := Option.map_eq_some_iff.mp hstep
    rcases rtDeviceOpen_cases ho with ⟨code, rfl, href, hflag⟩ | ⟨code, flags, rfl, hne, href, hflag⟩
    · simp only at href hflag ⊢
      refine ⟨?_, ?_, ?_⟩ <;> simp only
      · rw [hflag, href]
        exact hiff
      · rw [href]
        exact hcount
      · simp [kept, href, hflag, hkept]
    · have hinc : inc 8 s.dev.refCount = s.dev.refCount + 1 := by
        refine inc_of_lt (lt_of_le_of_ne h fun he => hne (inc_max he))
      simp only at href hflag ⊢
      refine ⟨?_, ?_, hkept⟩ <;> simp only
      · rw [hflag, href, hinc]
        exact iff_of_true (has_open_or flags) (Nat.succ_pos _)
      · rw [href, hinc]
        omega
  | closed r =>
    cases hstep
    unfold CloseSucceeds
    rcases rtDeviceClose_cases r s.dev with ⟨hzero, heq⟩ | ⟨hgt, heq⟩ | ⟨hone, hok, code, heq⟩ | ⟨hone, hok, code, heq⟩ <;>
      rw [heq] <;> simp only
    · refine iff_of_true ⟨hiff, hcount, ?_⟩ fun hone => by omega
      simp [kept, hkept]
    · refine iff_of_true ⟨?_, ?_, hkept⟩ fun hone => by omega
      · simp only
        rw [hiff]
        omega
      · simp only
        omega
    · refine iff_of_true ⟨?_, ?_, hkept⟩ fun _ => hok
      · exact iff_of_false has_close (lt_irrefl 0)
      · simp only
        omega
    · refine iff_of_false (fun hc => ?_) fun hs => hok (hs hone)
      have hk := hc.kept
      simp [kept, hone] at hk

/-- The state of a device is consistent along a run exactly if the close callback succeeds whenever
it is called. -/
theorem device_consistent_iff (flag : BitVec 16) (acts : List Act) :
    AllStates step Consistent (registered flag) acts ↔ AllSteps step CloseSucceeds (registered flag) acts :=
  allStates_iff_allSteps (fun s => s.dev.refCount < 256) Consistent CloseSucceeds
    (fun _ _ _ h hstep => step_bound h hstep) (fun _ _ _ h hc hstep => step_consistent_iff h hc hstep) acts
    (Nat.zero_lt_succ 255) ⟨iff_of_false has_close (lt_irrefl 0), rfl, rfl⟩

/-- The close callback fails with `-RT_EIO`: the reference is given up, and the device stays open. -/
theorem device_left_open :
    exec step (registered 0) [.opened 3 ⟨none, some (0, 3), some (-8)⟩, .closed ⟨none, some (0, 3), some (-8)⟩] =
        some ⟨⟨flagActivated, 11, 0, ()⟩, 1, 0, false⟩ ∧
      ¬AllStates step Consistent (registered 0)
        [.opened 3 ⟨none, some (0, 3), some (-8)⟩, .closed ⟨none, some (0, 3), some (-8)⟩] := by
  refine ⟨rfl, fun hall => ?_⟩
  have hlast := (hall.2 _ rfl).2 _ rfl
  exact absurd hlast.kept (by decide)

end RtThread.Drivers.Device
