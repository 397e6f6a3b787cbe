import ChipEight.Proofs.Interruption
import ChipEight.Proofs.Session.Moves
import ChipEight.Proofs.Start

/-! Runs that are ended and begun again. What a run leaves behind when it is ended differs from what an
execution without an end would have at that point in the latest word and in whether the keypad is closed,
and in nothing else: an interrupted key wait has not happened, and all that the end of a run does stays
outside the machine. So the steps of all runs together are those of one execution. -/
namespace ChipEight.Session

/-- The step that the move takes, if it takes one. -/
def taken? (s : Session) : Move → Option Taken
  | .proceed => s.wait?.map s.chip.taken
  | _ => none

/-- All the steps that the moves take, those of every run. -/
def takenAll : Session → List Move → List Taken
  | _, [] => []
  | s, m :: rest => (s.taken? m).toList ++ (s.move m).takenAll rest

/-- What a move is to one execution without an end: a step that counts, or something from outside that
reaches the machine. Beginning, ending and all that belongs to ending are nothing. -/
def turn? (s : Session) : Move → Option Turn
  | .begin => none
  | .proceed => (s.wait?.filter fun wait => (s.chip.taken wait).counts).map .step
  | .outside .requestQuit => none
  | .outside (.stimulus (.key .close)) | .outside (.stimulus (.key .reopen)) => none
  | .outside (.stimulus .tick) => if s.clockGoing then some (.outside .tick) else none
  | .outside (.stimulus stimulus) => some (.outside stimulus)

/-- The turns of one execution that the moves amount to. -/
def turns : Session → List Move → List Turn
  | _, [] => []
  | s, m :: rest => (s.turn? m).toList ++ (s.move m).turns rest

theorem takenAll_append (s : Session) (ms more : List Move) :
    s.takenAll (ms ++ more) = s.takenAll ms ++ (s.moves ms).takenAll more := by
  induction ms generalizing s with
  | nil => rfl
  | cons m rest ih =>
    rw [List.cons_append, takenAll, takenAll, ih, List.append_assoc]
    rfl

theorem takenAll_begin {s : Session} {last : Option Ending} (idle : s.phase = .idle last)
    (ms : List Move) : s.takenAll (.begin :: ms) = s.begin.takenAll ms := by
  rw [takenAll, move, idle]
  rfl

variable {s t : Session} {d : Chip} {m : Move}

theorem Proceeds.chip_of_no_wait (rule : Proceeds s t) (none : s.wait? = none) :
    t.chip = s.chip ∨ t.chip = s.chip.after (.key .reopen) := by
  cases rule with
  | step found steps => simp [none] at found
  | reopen phase => exact .inr rfl
  | _ => exact .inl rfl

/-- The session `t` has come so far by steps `taken`, and the machine `d` of one execution gets there by
the turns: its steps are those of the session that count. -/
structure Follows (t : Session) (d : Chip) (turns : List Turn) (taken : List Taken) : Prop where
  resumes : Chip.Resumes t.chip (d.turnAll turns)
  taken : d.takenAll turns = taken.filter Taken.counts
  inside : t.chip.registers.pc.toNat < 0x1000

theorem Follows.trans {first more : List Turn} {taken later : List Taken}
    (before : Follows s d first taken) (after : Follows t (d.turnAll first) more later) :
    Follows t d (first ++ more) (taken ++ later) where
  resumes := by
    rw [Chip.turnAll_append]
    exact after.resumes
  taken := by rw [Chip.takenAll_append, before.taken, after.taken, List.filter_append]
  inside := after.inside

theorem follows_proceed (h : Chip.Resumes s.chip d) (inside : s.chip.registers.pc.toNat < 0x1000) :
    Follows s.proceed d (s.turn? .proceed).toList (s.taken? .proceed).toList := by
  have rule := s.proceeds
  cases next : s.wait? with
  | none =>
    have turn : s.turn? .proceed = none := by simp [turn?, next]
    have taken : s.taken? .proceed = none := by simp [taken?, next]
    rw [turn, taken]
    -- Not a step: the keypad is opened at most, and that is no part of the execution.
    obtain same | opened := rule.chip_of_no_wait next
    · exact ⟨same ▸ h, rfl, same ▸ inside⟩
    · exact ⟨opened ▸ h.latch (.inr rfl), rfl, opened ▸ inside⟩
  | some wait =>
    have onward := Chip.pc_step_lt inside wait
    have taken : s.taken? .proceed = some (s.chip.taken wait) := by simp [taken?, next]
    rw [← rule.chip_of_wait next] at onward
    rw [taken]
    by_cases counts : (s.chip.taken wait).counts = true
    · have turn : s.turn? .proceed = some (.step wait) := by simp [turn?, next, counts]
      obtain ⟨resumes, same⟩ := h.step counts
      rw [turn]
      refine ⟨?_, by simp [Chip.takenAll, same, counts], onward⟩
      rw [rule.chip_of_wait next]
      exact resumes
    · have turn : s.turn? .proceed = none := by simp [turn?, next, counts]
      rw [turn]
      refine ⟨?_, by simp [Chip.takenAll, counts], onward⟩
      rw [rule.chip_of_wait next]
      exact h.of_not_counts inside (by simpa using counts)

theorem follows_outside (h : Chip.Resumes s.chip d) (inside : s.chip.registers.pc.toNat < 0x1000)
    (event : Event) :
    Follows (s.after event) d (s.turn? (.outside event)).toList [] := by
  cases event with
  | requestQuit => exact ⟨h, rfl, inside⟩
  | stimulus stimulus =>
    cases stimulus with
    | tick =>
      by_cases going : s.clockGoing = true
      · have ticked : s.after (.stimulus .tick) = s.tick := if_pos going
        rw [ticked, turn?, if_pos going, tick_eq]
        exact ⟨h.after .tick nofun nofun, rfl, inside⟩
      · have stopped : s.after (.stimulus .tick) = s := if_neg going
        rw [stopped, turn?, if_neg going]
        exact ⟨h, rfl, inside⟩
    | setDelay b => exact ⟨h.after (.setDelay b) nofun nofun, rfl, inside⟩
    | setSound b => exact ⟨h.after (.setSound b) nofun nofun, rfl, inside⟩
    | key event =>
      cases event with
      | close => exact ⟨h.latch (.inl rfl), rfl, inside⟩
      | reopen => exact ⟨h.latch (.inr rfl), rfl, inside⟩
      | press k => exact ⟨h.after (.key (.press k)) nofun nofun, rfl, inside⟩
      | release k => exact ⟨h.after (.key (.release k)) nofun nofun, rfl, inside⟩
      | releaseAll => exact ⟨h.after (.key .releaseAll) nofun nofun, rfl, inside⟩

/-- One move. -/
theorem follows_move (h : Chip.Resumes s.chip d) (inside : s.chip.registers.pc.toNat < 0x1000)
    (m : Move) : Follows (s.move m) d (s.turn? m).toList (s.taken? m).toList := by
  cases m with
  | begin =>
    obtain ⟨_, _, run⟩ | run := s.move_begin_cases <;> rw [run]
    · exact ⟨h, rfl, inside⟩
    · exact ⟨h, rfl, inside⟩
  | proceed => exact follows_proceed h inside
  | outside event => exact follows_outside h inside event

/-- Any moves: an execution that is in step at the start stays so over all the runs. -/
theorem follows_moves (h : Chip.Resumes s.chip d) (inside : s.chip.registers.pc.toNat < 0x1000)
    (ms : List Move) : Follows (s.moves ms) d (s.turns ms) (s.takenAll ms) := by
  induction ms generalizing s d with
  | nil => exact ⟨h, rfl, inside⟩
  | cons m rest ih =>
    have first := follows_move h inside m
    exact first.trans (ih first.resumes first.inside)

/-- A run that takes no further step: it checks for a quit that stands, is being ended, or is over. -/
def Leaving (s : Session) : Prop :=
  match s.phase with
  | .checking => s.quitRequested = true
  | .stepping | .awaiting _ | .showing => False
  | _ => True

/-- A quit that stands until the run that it ends takes it back. -/
def Asked (s : Session) : Prop :=
  s.quitRequested = true ∨ (∃ e, s.phase = .reopening e) ∨ ∃ last, s.phase = .idle last

theorem after_quitRequested (s : Session) (event : Event) :
    (s.after event).quitRequested = s.quitRequested ∨ (s.after event).quitRequested = true := by
  cases event with
  | stimulus stimulus => exact .inl (s.after_stimulus stimulus).1
  | requestQuit => exact .inr rfl

theorem Leaving.move (h : s.Leaving) (other : m ≠ .begin) : (s.move m).Leaving := by
  cases m with
  | begin => contradiction
  | proceed =>
    have rule := s.proceeds
    change s.proceed.Leaving
    generalize s.proceed = t at rule
    cases rule with
    | rest phase => exact h
    | goOn phase asked => simp [Leaving, phase, asked] at h
    | wait phase | present phase => simp [Leaving, phase] at h
    | step next steps =>
      unfold wait? at next
      unfold Leaving at h
      split at next <;> simp_all
    | _ => exact trivial
  | outside event =>
    change (s.after event).Leaving
    unfold Leaving at h ⊢
    rw [after_phase]
    obtain flag | flag := s.after_quitRequested event
    · rwa [flag]
    · rw [flag]
      split at h <;> simp_all

theorem Leaving.wait? (h : s.Leaving) : s.wait? = none := by
  unfold Leaving at h
  unfold Session.wait?
  split at h <;> simp_all

theorem Leaving.takenAll (h : s.Leaving) {ms : List Move} (one : .begin ∉ ms) : s.takenAll ms = [] := by
  induction ms generalizing s with
  | nil => rfl
  | cons m rest ih =>
    obtain ⟨other, more⟩ := List.ne_and_not_mem_of_not_mem_cons one
    have nothing : s.taken? m = none := by
      cases m <;> simp [taken?, h.wait?]
    rw [Session.takenAll, nothing, ih (h.move (Ne.symm other)) more]
    rfl

theorem Asked.move (h : s.Asked) (other : m ≠ .begin) : (s.move m).Asked := by
  cases m with
  | begin => contradiction
  | proceed =>
    have rule := s.proceeds
    change s.proceed.Asked
    generalize s.proceed = t at rule
    cases rule with
    | clear phase => exact .inr (.inl ⟨_, rfl⟩)
    | reopen phase => exact .inr (.inr ⟨_, rfl⟩)
    | rest phase => exact h
    | step next steps =>
      have running : s.quitRequested = true := by
        unfold Asked at h
        unfold Session.wait? at next
        split at next <;> simp_all
      exact .inl running
    | _ phase =>
      have running : s.quitRequested = true := by
        simpa [Asked, phase] using h
      exact .inl running
  | outside event =>
    change (s.after event).Asked
    unfold Asked at h ⊢
    rw [after_phase]
    obtain flag | flag := s.after_quitRequested event
    · rwa [flag]
    · exact .inl flag

theorem Asked.moves (h : s.Asked) {ms : List Move} (one : .begin ∉ ms) : (s.moves ms).Asked := by
  induction ms generalizing s with
  | nil => exact h
  | cons m rest ih =>
    obtain ⟨other, more⟩ := List.ne_and_not_mem_of_not_mem_cons one
    exact ih (h.move (Ne.symm other)) more

/-- A run that is begun under a quit takes no step. -/
theorem begin_of_quit {last : Option Ending} (idle : s.phase = .idle last)
    (asked : s.quitRequested = true) {ms : List Move} (one : .begin ∉ ms) :
    (s.move .begin).takenAll ms = [] := by
  have begun : s.move .begin = s.begin := by simp [move, idle]
  have leaving : s.begin.Leaving := asked
  rw [begun]
  exact leaving.takenAll one

/-- A check that comes after a quit is the last one of its run. -/
theorem check_of_quit {before ms : List Move} (run : .begin ∉ before) (one : .begin ∉ ms)
    (checks : ((s.after .requestQuit).moves before).phase = .checking) :
    ((s.after .requestQuit).moves before).takenAll ms = [] := by
  have asked : ((s.after .requestQuit).moves before).Asked := Asked.moves (.inl rfl) run
  have leaving : ((s.after .requestQuit).moves before).Leaving := by
    simpa [Leaving, Asked, checks] using asked
  exact leaving.takenAll one

/-- The resume law. Over any runs one after the other, however each of them is ended, the machine is that
of one execution on an open keypad of the steps that count, with everything from outside at its place. An
instruction that waits for a key on a closed keypad may be tried as often as one likes. A quit that stands
when a run begins leaves it without a step, and one that comes later is heeded by the next check. -/
theorem resume_transparent {c : Chip} (inside : c.registers.pc.toNat < 0x1000) :
    (∀ ms : List Move,
      let start := c.after (.key .reopen)
      let cut := ((around c).moves ms).chip
      let whole := start.turnAll ((around c).turns ms)
      (cut.registers = whole.registers ∧ cut.memory = whole.memory ∧ cut.stack = whole.stack ∧
        cut.screen = whole.screen ∧ cut.timers = whole.timers ∧
        cut.keypad.held = whole.keypad.held ∧ cut.random.drawn = whole.random.drawn) ∧
      start.takenAll ((around c).turns ms) = ((around c).takenAll ms).filter Taken.counts) ∧
    (c.awaitsKey = true → c.keypad.closed = true → ∀ waits : List KeyWait,
      (∀ t ∈ c.takenAll (waits.map .step), t.result = .ok .interrupted) ∧
      c.turnAll (waits.map .step) =
        { c with opcode := if waits = [] then c.opcode else c.nextOpcode }) ∧
    (∀ (s : Session) (last : Option Ending) (ms : List Move), s.phase = .idle last →
      s.quitRequested = true → .begin ∉ ms → (s.move .begin).takenAll ms = []) ∧
    ∀ (s : Session) (before ms : List Move), .begin ∉ before → .begin ∉ ms →
      ((s.after .requestQuit).moves before).phase = .checking →
        ((s.after .requestQuit).moves before).takenAll ms = [] := by
  refine ⟨fun ms => ?_, fun awaits closed waits => ?_, ?_, ?_⟩
  · have follows := follows_moves (s := around c) (Chip.Resumes.opened c) inside ms
    have resumes := follows.resumes
    obtain ⟨registers, memory, stack, screen, -⟩ := Inside.mk.inj resumes.inside
    have held := congrArg Keypad.held resumes.keypad
    have drawn := congrArg RandomStream.drawn resumes.random
    exact ⟨⟨registers, memory, stack, screen, resumes.timers, held, drawn⟩, follows.taken⟩
  · exact Chip.waits_closed inside awaits closed waits
  · intro s last ms idle asked one
    exact begin_of_quit idle asked one
  · intro s before ms run one checks
    exact check_of_quit run one checks

/-- A program that waits for a key and adds its number to 5. -/
def patient : Chip :=
  .boot ⟨"PATIENT", [0x60, 0x05, 0xF1, 0x0A, 0x80, 0x14]⟩ .standard (.cycle [])

/-- Three runs of it. The first is ended while it waits for its key, the second before it begins; the
third gets a key and goes on. -/
def patientMoves : List Move :=
  List.flatten [[.outside (.stimulus (.setDelay 5)), .begin], .replicate 4 .proceed,
    Event.quit.map .outside, .replicate 5 .proceed,
    [.outside (.stimulus .tick), .outside (.stimulus (.key (.press 3)))],
    Event.quit.map .outside, [.begin], .replicate 5 .proceed,
    [.begin, .proceed, .proceed, .outside (.stimulus .tick), .outside (.stimulus (.key (.press 7)))],
    .replicate 3 .proceed]

theorem patient_resumes :
    let cut := (around patient).moves patientMoves
    let whole := (patient.after (.key .reopen)).turnAll ((around patient).turns patientMoves)
    let stuck := ((around patient).moves (patientMoves.take 8)).chip
    let asked := (around patient).after .requestQuit
    let checked := (((around patient).moves [.begin, .proceed]).after .requestQuit).moves [.proceed]
    patient.registers.pc.toNat < 0x1000 ∧
    (cut.chip.v 0 = 12 ∧ cut.chip.timers.delay = 4) ∧
    (cut.chip.registers = whole.registers ∧ cut.chip.timers = whole.timers) ∧
    (((around patient).takenAll patientMoves).length = 4 ∧
      ((patient.after (.key .reopen)).takenAll ((around patient).turns patientMoves)).length = 3) ∧
    (stuck.registers.pc.toNat = 0x202 ∧ ∀ waits : List KeyWait,
      (stuck.turnAll (waits.map .step)).registers = stuck.registers) ∧
    (asked.move .begin).takenAll (List.replicate 9 .proceed) = [] ∧
    checked.phase = .checking ∧ checked.takenAll (List.replicate 9 .proceed) = [] := by
  intro cut whole stuck asked checked
  have inside : patient.registers.pc.toNat < 0x1000 := by decide
  obtain ⟨final, counts, before_wait, awaits, closed, checks⟩ :
      (cut.chip.v 0 = 12 ∧ cut.chip.timers.delay = 4) ∧
      (((around patient).takenAll patientMoves).length = 4 ∧
        (((around patient).takenAll patientMoves).filter Taken.counts).length = 3) ∧
      stuck.registers.pc.toNat = 0x202 ∧ stuck.awaitsKey = true ∧ stuck.keypad.closed = true ∧
      checked.phase = .checking := by
    decide +kernel
  obtain ⟨resumes, -, quit, check⟩ := resume_transparent inside
  obtain ⟨⟨registers, -, -, -, timers, -⟩, taken⟩ := resumes patientMoves
  have inside_stuck : stuck.registers.pc.toNat < 0x1000 := by omega
  obtain ⟨-, tries, -⟩ := resume_transparent inside_stuck
  refine ⟨inside, final, ?_, ⟨counts.1, ?_⟩, ⟨before_wait, fun waits => ?_⟩, ?_, checks, ?_⟩
  · simpa only [cut, whole] using ⟨registers, timers⟩
  · rw [taken]
    exact counts.2
  · rw [(tries awaits closed waits).2]
  · have idle : asked.phase = .idle none := rfl
    exact quit asked none _ idle rfl (by decide)
  · exact check _ _ _ (by decide) (by decide) checks

end ChipEight.Session
