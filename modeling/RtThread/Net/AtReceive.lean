import RtThread.Lib.Framing
import RtThread.Lib.Transition
import RtThread.Lib.Word

/-!
# How the AT client receives lines (`components/net/at/src/at_client.c`)

The interrupt stores what arrives in the device and releases `rx_notice`. The parser thread reads one character after
the other, and waits for the semaphore when there is none. The functions of the URC table read nothing themselves.
-/

namespace RtThread.Net.AtReceive

open RtThread.Lib.Framing RtThread.Lib.Transition RtThread.Lib.Word

/-- `struct at_urc`, without the function; the strings are given without their zeros. -/
structure AtUrc where
  cmdPrefix : List Char
  cmdSuffix : List Char
  no_zero : '\x00' ∉ cmdPrefix ++ cmdSuffix

/-- What `at_client_init` and the setters put into the client. -/
structure Config where
  recvBufsz : ℕ
  endSign : Char
  urcTable : Option (List AtUrc)

/-- Where the parser thread stands in `at_client_getchar`. -/
inductive Getchar where
  /-- before `rt_device_read` -/
  | reading
  /-- nothing was read, and `rx_notice` is not yet reset -/
  | empty
  /-- before `rt_sem_take` -/
  | taking
  /-- suspended on `rx_notice` -/
  | waiting
  deriving DecidableEq

/-- The client with the characters that its device holds. `results` is history: what `at_recv_readline` has returned
so far, where nothing stands for `-RT_EFULL`. -/
structure Client where
  device : List Char
  rxNotice : ℕ
  parser : Getchar
  recvBuffer : List Char
  lastCh : Char
  isFull : Bool
  results : List (Option (List Char))

def init : Client := ⟨[], 0, .reading, [], '\x00', false, []⟩

/-- `get_urc_obj` (`at_client.c:580-610`); `buffer` is the first `cur_recv_len` bytes. -/
def getUrcObj (cfg : Config) (buffer : List Char) : Option AtUrc :=
  cfg.urcTable.bind fun table => table.find? fun urc =>
    decide (urc.cmdPrefix.length + urc.cmdSuffix.length ≤ buffer.length) &&
      (decide (buffer.take urc.cmdPrefix.length = urc.cmdPrefix) &&
        decide (buffer.drop (buffer.length - urc.cmdSuffix.length) = urc.cmdSuffix))

/-- What ends a line in `at_recv_readline` (`at_client.c:636-637`). -/
def isEnd (cfg : Config) (lastCh ch : Char) (buffer : List Char) : Bool :=
  (decide (ch = '\n') && decide (lastCh = '\r')) || (decide (cfg.endSign ≠ '\x00') && decide (ch = cfg.endSign)) ||
    (getUrcObj cfg buffer).isSome

/-- The character goes into the buffer, or is one too many (`at_client.c:625-633`). -/
def storeChar (cfg : Config) (c : Client) (ch : Char) : Client :=
  if c.recvBuffer.length < cfg.recvBufsz then { c with recvBuffer := c.recvBuffer ++ [ch] }
  else { c with isFull := true }

/-- One pass of the loop of `at_recv_readline` (`at_client.c:621-649`), and the start of the next call. -/
def recvChar (cfg : Config) (c : Client) (ch : Char) : Client :=
  let d := storeChar cfg c ch
  if isEnd cfg c.lastCh ch d.recvBuffer = true then
    { d with
      recvBuffer := []
      lastCh := '\x00'
      isFull := false
      results := d.results ++ [if d.isFull = true then none else some d.recvBuffer] }
  else { d with lastCh := ch }

inductive Act where
  /-- the interrupt (`at_client.c:728-741`) -/
  | arrive (chars : List Char)
  | read
  | reset
  | take

/-- `rt_sem_release` of `rx_notice`. -/
def Client.release (c : Client) : Client :=
  if c.parser = .waiting then { c with parser := .reading } else { c with rxNotice := inc 16 c.rxNotice }

def step (cfg : Config) (c : Client) : Act → Option Client
  | .arrive chars => if chars = [] then none else some { c with device := c.device ++ chars }.release
  | .read =>
    if c.parser = .reading then
      match c.device with
      | [] => some { c with parser := .empty }
      | ch :: rest => some (recvChar cfg { c with device := rest } ch)
    else none
  | .reset => if c.parser = .empty then some { c with rxNotice := 0, parser := .taking } else none
  | .take =>
    if c.parser = .taking then
      if 0 < c.rxNotice then some { c with rxNotice := dec 16 c.rxNotice, parser := .reading }
      else some { c with parser := .waiting }
    else none

/-- What has arrived in a run. -/
def arrived : List Act → List Char
  | [] => []
  | .arrive chars :: as => chars ++ arrived as
  | _ :: as => arrived as

/-- The characters since the last line end a line. -/
def Ends (cfg : Config) (line : List Char) : Prop :=
  ['\r', '\n'] <:+ line ∨ (cfg.endSign ≠ '\x00' ∧ line.getLast? = some cfg.endSign) ∨
    (getUrcObj cfg (line.take cfg.recvBufsz)).isSome = true

/-- What `at_recv_readline` makes of a line: one that is longer than the buffer is dropped. -/
def delivered (cfg : Config) (line : List Char) : Option (List Char) :=
  if line.length ≤ cfg.recvBufsz then some line else none

variable {cfg : Config} {c c' : Client} {ch : Char} {taken rest : List Char} {lines : List (List Char)}

/-- What the client holds after the characters `taken`. -/
structure Holds (cfg : Config) (taken : List Char) (lines : List (List Char)) (rest : List Char) (c : Client) :
    Prop where
  framed : Framed (Ends cfg) taken lines rest
  results : c.results = lines.map (delivered cfg)
  buffer : c.recvBuffer = rest.take cfg.recvBufsz
  full : c.isFull = decide (cfg.recvBufsz < rest.length)
  last : c.lastCh = rest.getLast?.getD '\x00'

theorem crlf_suffix_iff : ['\r', '\n'] <:+ rest ++ [ch] ↔ ch = '\n' ∧ rest.getLast?.getD '\x00' = '\r' := by
  obtain rfl | ⟨xs, x, rfl⟩ := rest.eq_nil_or_concat'
  · simp [List.suffix_cons_iff]
  · rw [List.append_assoc, List.getLast?_concat, Option.getD_some]
    constructor
    · rintro ⟨ys, h⟩
      have htail := (List.append_inj_right' h rfl)
      simp at htail
      exact ⟨htail.2.symm, htail.1.symm⟩
    · rintro ⟨rfl, rfl⟩
      exact ⟨xs, rfl⟩

theorem isEnd_iff : isEnd cfg (rest.getLast?.getD '\x00') ch ((rest ++ [ch]).take cfg.recvBufsz) = true ↔
    Ends cfg (rest ++ [ch]) := by
  rw [Ends, crlf_suffix_iff, List.getLast?_concat, isEnd]
  simp only [Bool.or_eq_true, Bool.and_eq_true, decide_eq_true_iff, Option.some.injEq, or_assoc]

theorem Holds.store (h : Holds cfg taken lines rest c) (ch : Char) :
    (storeChar cfg c ch).recvBuffer = (rest ++ [ch]).take cfg.recvBufsz ∧
      (storeChar cfg c ch).isFull = decide (cfg.recvBufsz < (rest ++ [ch]).length) ∧
      (storeChar cfg c ch).results = c.results ∧ (storeChar cfg c ch).device = c.device := by
  obtain ⟨-, -, hbuffer, hfull, -⟩ := h
  have hlen : c.recvBuffer.length = min cfg.recvBufsz rest.length := by rw [hbuffer, List.length_take]
  rw [storeChar, List.length_append, List.length_singleton]
  by_cases hroom : c.recvBuffer.length < cfg.recvBufsz
  · have hshort : rest.length < cfg.recvBufsz := by omega
    rw [if_pos hroom]
    refine ⟨?_, ?_, rfl, rfl⟩
    · rw [hbuffer, List.take_of_length_le hshort.le, List.take_of_length_le (by simpa)]
    · rw [hfull, decide_eq_decide]
      omega
  · have hlong : cfg.recvBufsz ≤ rest.length := by omega
    rw [if_neg hroom]
    refine ⟨?_, ?_, rfl, rfl⟩
    · rw [hbuffer, List.take_append_of_le_length hlong]
    · rw [eq_comm, decide_eq_true_iff]
      omega

theorem Holds.recvChar (h : Holds cfg taken lines rest c) (ch : Char) :
    ∃ lines' rest', Holds cfg (taken ++ [ch]) lines' rest' (recvChar cfg c ch) ∧
      (recvChar cfg c ch).device = c.device := by
  obtain ⟨hbuffer', hfull', hresults', hdevice⟩ := h.store ch
  obtain ⟨hframed, hresults, -, -, hlast⟩ := h
  have hiff : isEnd cfg c.lastCh ch (storeChar cfg c ch).recvBuffer = true ↔ Ends cfg (rest ++ [ch]) := by
    rw [hbuffer', hlast]
    exact isEnd_iff
  rw [Net.AtReceive.recvChar]
  by_cases hend : Ends cfg (rest ++ [ch])
  · simp only [if_pos (hiff.mpr hend)]
    refine ⟨_, _, ⟨hframed.close hend, ?_, by simp, by simp, rfl⟩, hdevice⟩
    rw [List.map_append, List.map_singleton, hresults', hresults, delivered, hfull', hbuffer']
    by_cases hlong : cfg.recvBufsz < (rest ++ [ch]).length
    · rw [if_pos (decide_eq_true hlong), if_neg (by omega)]
    · rw [if_neg (by simpa using hlong), if_pos (by omega), List.take_of_length_le (by omega)]
  · simp only [if_neg fun h => hend (hiff.mp h)]
    exact ⟨_, _, ⟨hframed.push hend, hresults'.trans hresults, hbuffer', hfull', by rw [List.getLast?_concat]; rfl⟩,
      hdevice⟩

theorem release_holds (h : Holds cfg taken lines rest c) : Holds cfg taken lines rest c.release := by
  rw [Client.release]
  split <;> exact ⟨h.framed, h.results, h.buffer, h.full, h.last⟩

theorem step_holds {a : Act} (h : Holds cfg taken lines rest c) (hstep : step cfg c a = some c') :
    ∃ taken' lines' rest', Holds cfg taken' lines' rest' c' ∧
      taken' ++ c'.device = taken ++ c.device ++ arrived [a] := by
  cases a with
  | arrive chars =>
    simp only [step, Option.ite_none_left_eq_some, Option.some.injEq] at hstep
    obtain ⟨-, rfl⟩ := hstep
    refine ⟨taken, lines, rest, release_holds ⟨h.framed, h.results, h.buffer, h.full, h.last⟩, ?_⟩
    rw [Client.release]
    split <;> simp [arrived]
  | read =>
    rw [step] at hstep
    split at hstep
    · cases hdev : c.device with
      | nil =>
        rw [hdev] at hstep
        cases hstep
        exact ⟨taken, lines, rest, ⟨h.framed, h.results, h.buffer, h.full, h.last⟩, by simp [arrived]⟩
      | cons ch chars =>
        rw [hdev] at hstep
        simp only [Option.some.injEq] at hstep
        subst hstep
        have hchars : Holds cfg taken lines rest { c with device := chars } :=
          ⟨h.framed, h.results, h.buffer, h.full, h.last⟩
        obtain ⟨lines', rest', h', hdevice⟩ := hchars.recvChar ch
        exact ⟨taken ++ [ch], lines', rest', h', by simp [hdevice, arrived]⟩
    · cases hstep
  | reset =>
    simp only [step, Option.ite_none_right_eq_some, Option.some.injEq] at hstep
    obtain ⟨-, rfl⟩ := hstep
    exact ⟨taken, lines, rest, ⟨h.framed, h.results, h.buffer, h.full, h.last⟩, by simp [arrived]⟩
  | take =>
    rw [step] at hstep
    split at hstep
    · split at hstep
      all_goals
        cases hstep
        exact ⟨taken, lines, rest, ⟨h.framed, h.results, h.buffer, h.full, h.last⟩, by simp [arrived]⟩
    · cases hstep

theorem arrived_cons (a : Act) (as : List Act) : arrived (a :: as) = arrived [a] ++ arrived as := by
  cases a <;> simp [arrived]

theorem run_holds {as : List Act} (h : Holds cfg taken lines rest c) (hrun : exec (step cfg) c as = some c') :
    ∃ taken' lines' rest', Holds cfg taken' lines' rest' c' ∧
      taken' ++ c'.device = taken ++ c.device ++ arrived as := by
  induction as generalizing c taken lines rest with
  | nil =>
    cases hrun
    exact ⟨taken, lines, rest, h, by simp [arrived]⟩
  | cons a as ih =>
    obtain ⟨m, hm, hrest⟩ := exec_cons_eq_some.mp hrun
    obtain ⟨taken₁, lines₁, rest₁, h₁, hsplit₁⟩ := step_holds h hm
    obtain ⟨taken₂, lines₂, rest₂, h₂, hsplit₂⟩ := ih h₁ hrest
    exact ⟨taken₂, lines₂, rest₂, h₂, by
      rw [hsplit₂, hsplit₁, arrived_cons a as, List.append_assoc]⟩

theorem init_holds (cfg : Config) : Holds cfg [] [] [] init :=
  ⟨Framed.nil, rfl, by simp [init], by simp [init], rfl⟩

/-- However the characters arrive and the parser runs: what has been read and what is still in the device are what has
arrived; what has been read is cut at the first character that ends a line, each line is returned unless it is longer
than the buffer, and the buffer holds the beginning of the next one. Runs in which the same characters have arrived and
been read have returned the same lines. -/
theorem readline_frames {as : List Act} (hrun : exec (step cfg) init as = some c) :
    (∃ taken lines rest, Framed (Ends cfg) taken lines rest ∧ taken ++ c.device = arrived as ∧
      c.results = lines.map (delivered cfg) ∧ c.recvBuffer = rest.take cfg.recvBufsz) ∧
    ∀ as' c', exec (step cfg) init as' = some c' → arrived as' = arrived as → c.device = [] → c'.device = [] →
      c'.results = c.results ∧ c'.recvBuffer = c.recvBuffer := by
  obtain ⟨taken, lines, rest, h, hsplit⟩ := run_holds (init_holds cfg) hrun
  refine ⟨⟨taken, lines, rest, h.framed, by simpa [init] using hsplit, h.results, h.buffer⟩, ?_⟩
  intro as' c' hrun' hsame hdrained hdrained'
  obtain ⟨taken', lines', rest', h', hsplit'⟩ := run_holds (init_holds cfg) hrun'
  have htaken : taken' = taken := by
    simp only [init, hdrained, hdrained', List.append_nil, List.nil_append] at hsplit hsplit'
    rw [hsplit, hsplit', hsame]
  subst htaken
  obtain ⟨rfl, rfl⟩ := h.framed.unique h'.framed
  exact ⟨by rw [h.results, h'.results], by rw [h.buffer, h'.buffer]⟩

/-! ### When the parser sleeps -/

/-- The count of the semaphore does not wrap before the parser takes it. -/
def Fits (c : Client) : Act → Prop
  | .arrive _ => c.parser = .taking → c.rxNotice + 1 < 2 ^ 16
  | _ => True

instance (c : Client) : (a : Act) → Decidable (Fits c a)
  | .arrive _ => inferInstanceAs (Decidable (_ → _))
  | .read => isTrue trivial
  | .reset => isTrue trivial
  | .take => isTrue trivial

/-- The actions after the last read of the parser, which found nothing: what has arrived before the reset, and after. -/
structure Pass (cfg : Config) (as : List Act) (more later : List (List Char)) (tail : List Act) (c : Client) :
    Prop where
  before : ∃ pre m, as = pre ++ .read :: (more.map .arrive ++ tail) ∧ exec (step cfg) init pre = some m ∧ m.device = []
  device : c.device = more.flatten ++ later.flatten

/-- What the actions of a run say of the place of the parser. -/
def History (cfg : Config) (as : List Act) (c : Client) : Prop :=
  match c.parser with
  | .reading => True
  | .empty => ∃ more, Pass cfg as more [] [] c
  | .taking => ∃ more later, Pass cfg as more later (.reset :: later.map .arrive) c ∧ c.rxNotice = later.length
  | .waiting => ∃ more, Pass cfg as more [] [.reset, .take] c

theorem recvChar_place (cfg : Config) (c : Client) (ch : Char) : (recvChar cfg c ch).parser = c.parser := by
  rw [recvChar, storeChar]
  split_ifs <;> rfl

theorem history_arrive {as : List Act} {chars : List Char} (h : History cfg as c) (hfits : Fits c (.arrive chars))
    (hstep : step cfg c (.arrive chars) = some c') : History cfg (as ++ [.arrive chars]) c' := by
  simp only [step, Option.ite_none_left_eq_some, Option.some.injEq] at hstep
  obtain ⟨-, rfl⟩ := hstep
  rw [Client.release]
  cases hp : c.parser with
  | waiting =>
    rw [if_pos rfl]
    trivial
  | reading =>
    rw [if_neg (by simp), History]
    trivial
  | empty =>
    rw [History, hp] at h
    obtain ⟨more, ⟨pre, m, rfl, hpre, hm⟩, hdevice⟩ := h
    rw [if_neg (by simp), History]
    simp only
    exact ⟨more ++ [chars], ⟨pre, m, by simp, hpre, hm⟩, by simp [hdevice]⟩
  | taking =>
    rw [History, hp] at h
    obtain ⟨more, later, ⟨⟨pre, m, rfl, hpre, hm⟩, hdevice⟩, hcount⟩ := h
    rw [if_neg (by simp), History]
    simp only
    refine ⟨more, later ++ [chars], ⟨⟨pre, m, by simp, hpre, hm⟩, by simp [hdevice]⟩, ?_⟩
    have hlt := hfits hp
    rw [inc, Nat.mod_eq_of_lt hlt, hcount, List.length_append, List.length_singleton]

theorem history_step {as : List Act} {a : Act} (hrun : exec (step cfg) init as = some c) (h : History cfg as c)
    (hfits : Fits c a) (hstep : step cfg c a = some c') : History cfg (as ++ [a]) c' := by
  cases a with
  | arrive chars => exact history_arrive h hfits hstep
  | read =>
    simp only [step, Option.ite_none_right_eq_some] at hstep
    obtain ⟨hp, hstep⟩ := hstep
    cases hdev : c.device with
    | nil =>
      rw [hdev] at hstep
      cases hstep
      exact ⟨[], ⟨as, c, by simp, hrun, hdev⟩, by simp⟩
    | cons ch chars =>
      rw [hdev] at hstep
      simp only [Option.some.injEq] at hstep
      rw [← hstep, History, recvChar_place]
      simp only [hp]
  | reset =>
    simp only [step, Option.ite_none_right_eq_some, Option.some.injEq] at hstep
    obtain ⟨hp, rfl⟩ := hstep
    rw [History, hp] at h
    obtain ⟨more, ⟨pre, m, rfl, hpre, hm⟩, hdevice⟩ := h
    exact ⟨more, [], ⟨⟨pre, m, by simp, hpre, hm⟩, hdevice⟩, rfl⟩
  | take =>
    simp only [step, Option.ite_none_right_eq_some] at hstep
    obtain ⟨hp, hstep⟩ := hstep
    rw [History, hp] at h
    obtain ⟨more, later, ⟨⟨pre, m, rfl, hpre, hm⟩, hdevice⟩, hcount⟩ := h
    split at hstep
    · cases hstep
      trivial
    · rename_i hzero
      cases hstep
      have hlater : later = [] := List.length_eq_zero_iff.mp (by omega)
      subst hlater
      exact ⟨more, ⟨pre, m, by simp, hpre, hm⟩, hdevice⟩

theorem step_arrive {chars : List Char} (hp : c.parser ≠ .waiting) (hstep : step cfg c (.arrive chars) = some c') :
    chars ≠ [] ∧ c'.parser = c.parser ∧ c'.device = c.device ++ chars := by
  simp only [step, Option.ite_none_left_eq_some, Option.some.injEq] at hstep
  obtain ⟨hne, rfl⟩ := hstep
  rw [Client.release, if_neg hp]
  exact ⟨hne, rfl, rfl⟩

theorem exec_arrive {more : List (List Char)} (hp : c.parser = .empty)
    (hrun : exec (step cfg) c (more.map .arrive) = some c') :
    c'.parser = .empty ∧ c'.device = c.device ++ more.flatten ∧ ∀ chars ∈ more, chars ≠ [] := by
  induction more generalizing c with
  | nil =>
    cases hrun
    exact ⟨hp, by simp, by simp⟩
  | cons chars more ih =>
    obtain ⟨m, hm, hrest⟩ := exec_cons_eq_some.mp hrun
    obtain ⟨hne, hp₁, hdevice₁⟩ := step_arrive (by simp [hp]) hm
    obtain ⟨hp', hdevice, hmore⟩ := ih (hp₁.trans hp) hrest
    exact ⟨hp', by simp [hdevice, hdevice₁], by simpa using ⟨hne, hmore⟩⟩

/-- In every run in which the count of the semaphore does not wrap, the parser is left asleep with characters in the
device exactly when its last read found none, the characters arrived before it reset the semaphore, and none after. -/
theorem parser_sleeps_iff {as : List Act} (hfits : AllSteps (step cfg) Fits init as)
    (hrun : exec (step cfg) init as = some c) :
    (c.parser = .waiting ∧ c.device ≠ []) ↔ ∃ pre more m, more ≠ [] ∧
      as = pre ++ .read :: (more.map .arrive ++ [.reset, .take]) ∧ exec (step cfg) init pre = some m ∧
        m.device = [] := by
  constructor
  · rintro ⟨hp, hne⟩
    have hstart : History cfg [] init := trivial
    have hhistory : History cfg as c := exec_inv_history (History cfg) Fits hstart
      (fun _ _ _ _ hdone h hC hstep => history_step hdone h hC hstep) hfits hrun
    rw [History, hp] at hhistory
    obtain ⟨more, ⟨pre, m, has, hpre, hm⟩, hdevice⟩ := hhistory
    refine ⟨pre, more, m, ?_, has, hpre, hm⟩
    rintro rfl
    exact hne hdevice
  · rintro ⟨pre, more, m, hmore, rfl, hpre, hm⟩
    rw [exec_append, hpre, Option.bind_some] at hrun
    obtain ⟨m₁, hread, hrun⟩ := exec_cons_eq_some.mp hrun
    simp only [step, hm, Option.ite_none_right_eq_some, Option.some.injEq] at hread
    obtain ⟨-, rfl⟩ := hread
    rw [exec_append] at hrun
    obtain ⟨m₂, hmid, hrun⟩ := Option.bind_eq_some_iff.mp hrun
    obtain ⟨hp₂, hdevice, hchars⟩ := exec_arrive rfl hmid
    obtain ⟨m₃, hreset, hrun⟩ := exec_cons_eq_some.mp hrun
    simp only [step, hp₂, if_true, Option.some.injEq] at hreset
    subst hreset
    obtain ⟨m₄, htake, hrun⟩ := exec_cons_eq_some.mp hrun
    simp only [step, if_true, Nat.lt_irrefl, if_false, Option.some.injEq] at htake
    subst htake
    cases hrun
    refine ⟨rfl, ?_⟩
    obtain ⟨chars, more, rfl⟩ := List.exists_cons_of_ne_nil hmore
    have hfirst := hchars chars List.mem_cons_self
    rw [hdevice]
    simp [hfirst]

/-! ### Runs -/

/-- The URC `+NNMI`, of the lines of the NB-IoT module. -/
def sampleConfig : Config := ⟨8, '>', some [⟨['+', 'N'], ['\r', '\n'], by decide⟩]⟩

def sampleRun : List Act :=
  [.read, .arrive ['O', 'K'], .reset, .arrive ['\r', '\n', '>'], .take, .read, .read, .read, .read, .read]

theorem readline_frames_sample : ∃ c, exec (step sampleConfig) init sampleRun = some c ∧
    c.results = [some ['O', 'K', '\r', '\n'], some ['>']] ∧
      ∃ taken lines rest, Framed (Ends sampleConfig) taken lines rest ∧ taken ++ c.device = arrived sampleRun ∧
        c.results = lines.map (delivered sampleConfig) ∧ c.recvBuffer = rest.take sampleConfig.recvBufsz := by
  have hrun : ((exec (step sampleConfig) init sampleRun).map Client.results) =
      some [some ['O', 'K', '\r', '\n'], some ['>']] := by decide +kernel
  obtain ⟨c, hc, hresults⟩ := Option.map_eq_some_iff.mp hrun
  exact ⟨c, hc, hresults, (readline_frames hc).1⟩

/-- `OK` arrives between a read that finds nothing and the reset. -/
def sleepyRun : List Act := [.read] ++ [.arrive ['O'], .arrive ['K']] ++ [.reset, .take]

theorem parser_sleeps_iff_sample : ∃ c, exec (step sampleConfig) init sleepyRun = some c ∧
    c.parser = .waiting ∧ c.device ≠ [] := by
  have hfits : AllSteps (step sampleConfig) Fits init sleepyRun := by decide +kernel
  have hrun : (exec (step sampleConfig) init sleepyRun).isSome = true := by decide +kernel
  obtain ⟨c, hc⟩ := Option.isSome_iff_exists.mp hrun
  exact ⟨c, hc, (parser_sleeps_iff hfits hc).mpr ⟨[], [['O'], ['K']], init, by simp, rfl, rfl, rfl⟩⟩

end RtThread.Net.AtReceive
