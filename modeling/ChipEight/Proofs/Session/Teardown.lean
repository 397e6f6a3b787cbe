import ChipEight.Proofs.Session.Ending

/-! The teardown. Whatever ended a run, it goes through the same four actions: the clock is stopped, a tone
silenced, the request cleared and the keypad opened. The moves of a run that has returned are cut at these
actions. What is said of one run holds of any number of them in a row, because nothing is asked of the
session that it begins on. -/
namespace ChipEight

/-- The phases of the teardown, in order, and the rest after it. -/
def Phase.teardown (e : Ending) : Nat → Phase
  | 0 => .stopping e
  | 1 => .silencing e
  | 2 => .clearing e
  | 3 => .reopening e
  | _ + 4 => .idle (some e)

theorem Phase.idle_eq_teardown {last : Option Ending} {e : Ending} {n : Nat}
    (rests : Phase.idle last = teardown e n) : 4 ≤ n ∧ last = some e := by
  rcases n with _ | _ | _ | _ | n
  · cases rests
  · cases rests
  · cases rests
  · cases rests
  · exact ⟨Nat.le_add_left 4 n, Phase.idle.inj rests⟩

namespace Session

variable {s : Session} {m : Move} {ms : List Move} {e : Ending} {n : Nat}

theorem proceed_stopping (phase : s.phase = .stopping e) :
    s.proceed = { s with clockGoing := false, phase := .silencing e }.emit .clockStopped := by
  simp only [proceed, phase]

theorem proceed_silencing (phase : s.phase = .silencing e) :
    s.proceed = { s with
      toneOn := false
      phase := .clearing e
      trace := (if s.toneOn = true then [.toneStopped] else []) ++ s.trace } := by
  simp only [proceed, phase]
  by_cases on : s.toneOn = true
  · rw [if_pos on, if_pos on]
    rfl
  · rw [if_neg on, if_neg on, ← Bool.eq_false_iff.mpr on]
    rfl

theorem proceed_clearing (phase : s.phase = .clearing e) :
    s.proceed = { s with quitRequested := false, phase := .reopening e } := by
  simp only [proceed, phase]

theorem proceed_reopening (phase : s.phase = .reopening e) :
    s.proceed = { s with chip := s.chip.after (.key .reopen), phase := .idle (some e) } := by
  simp only [proceed, phase]

theorem proceed_idle {last : Option Ending} (phase : s.phase = .idle last) : s.proceed = s := by
  simp only [proceed, phase]

/-- An action of the run brings the teardown on by one phase. -/
theorem proceed_teardown (phase : s.phase = .teardown e n) :
    s.proceed.phase = .teardown e (n + 1) := by
  rcases n with _ | _ | _ | _ | n
  · rw [proceed_stopping phase]
    rfl
  · rw [proceed_silencing phase]
    rfl
  · rw [proceed_clearing phase]
    rfl
  · rw [proceed_reopening phase]
    rfl
  · rw [proceed_idle phase]
    exact phase

/-- Only the actions of the run bring the teardown on. -/
theorem moves_teardown (phase : s.phase = .teardown e n) (one : .begin ∉ ms) :
    (s.moves ms).phase = .teardown e (n + ms.count .proceed) := by
  induction s, ms, one using run_induction generalizing n with
  | nil s => exact phase
  | outside s event rest more ih =>
    have later := ih ((s.after_phase event).trans phase)
    rwa [count_outside]
  | proceed s rest more ih =>
    have later := ih (proceed_teardown phase)
    rw [List.count_cons_self, ← Nat.add_assoc, Nat.add_right_comm]
    exact later

/-- The clock was stopped, and what is left of the teardown begins with its phase `n + 1`. -/
structure Stopped (s : Session) (e : Ending) (n : Nat) : Prop where
  clock : s.clockGoing = false
  phase : s.phase = .teardown e (n + 1)

theorem Stopped.after (h : s.Stopped e n) (event : Event) :
    (s.after event).Stopped e n ∧ (s.after event).log = s.log := by
  have phase := (s.after_phase event).trans h.phase
  rcases s.after_cases event with ⟨_, going, _⟩ | ⟨stimulus, run⟩ | run | run
  · simp [h.clock] at going
  all_goals
    rw [run] at phase ⊢
    exact ⟨⟨h.clock, phase⟩, rfl⟩

theorem Stopped.proceed (h : s.Stopped e n) :
    s.proceed.Stopped e (n + 1) ∧
      (s.proceed.log = s.log ∨ n = 0 ∧ s.proceed.log = s.log ++ [.toneStopped]) := by
  have next := proceed_teardown h.phase
  have phase := h.phase
  rcases n with _ | _ | _ | n
  · rw [proceed_silencing phase] at next ⊢
    refine ⟨⟨h.clock, next⟩, ?_⟩
    by_cases on : s.toneOn = true
    · simp [log, on]
    · simp [log, on]
  · rw [proceed_clearing phase] at next ⊢
    exact ⟨⟨h.clock, next⟩, .inl rfl⟩
  · rw [proceed_reopening phase] at next ⊢
    exact ⟨⟨h.clock, next⟩, .inl rfl⟩
  · rw [proceed_idle phase] at next ⊢
    exact ⟨⟨h.clock, next⟩, .inl rfl⟩

/-- All that is left to go out after the clock was stopped is the end of a tone, once. -/
theorem Stopped.moves (h : s.Stopped e n) (one : .begin ∉ ms) :
    (∃ k, (s.moves ms).Stopped e (n + k)) ∧
    ∃ silence, (s.moves ms).log = s.log ++ silence ∧
      (silence = [] ∨ n = 0 ∧ silence = [.toneStopped]) := by
  induction s, ms, one using run_induction generalizing n with
  | nil s => exact ⟨⟨0, h⟩, [], (List.append_nil _).symm, .inl rfl⟩
  | outside s event rest more ih =>
    obtain ⟨still, same⟩ := h.after event
    obtain ⟨later, silence, log, quiet⟩ := ih still
    exact ⟨later, silence, by rw [← same]; exact log, quiet⟩
  | proceed s rest more ih =>
    obtain ⟨next, gained⟩ := h.proceed
    obtain ⟨⟨k, later⟩, silence, log, quiet⟩ := ih next
    -- The tone is silenced by the first action if at all.
    have nothing : silence = [] := by
      rcases quiet with none | ⟨zero, _⟩
      · exact none
      · omega
    rw [nothing, List.append_nil] at log
    refine ⟨⟨k + 1, by rwa [show n + (k + 1) = n + 1 + k by omega]⟩, ?_⟩
    rcases gained with same | ⟨zero, stopped⟩
    · exact ⟨[], by rw [List.append_nil, ← same]; exact log, .inl rfl⟩
    · exact ⟨[.toneStopped], by rw [← stopped]; exact log, .inr ⟨zero, rfl⟩⟩

/-- While the clock is stopped the timers are only set. -/
theorem Stopped.timers (h : s.Stopped e n) (other : m ≠ .begin) :
    (s.move m).chip.timers = s.chip.timers ∨
      ∃ b, m = .outside (.stimulus (.setDelay b)) ∨ m = .outside (.stimulus (.setSound b)) := by
  cases m with
  | begin => contradiction
  | proceed =>
    have phase := h.phase
    left
    change s.proceed.chip.timers = _
    rcases n with _ | _ | _ | n
    · rw [proceed_silencing phase]
    · rw [proceed_clearing phase]
    · rw [proceed_reopening phase]
      rfl
    · rw [proceed_idle phase]
  | outside event =>
    cases event with
    | requestQuit => exact .inl rfl
    | stimulus stimulus =>
      cases stimulus with
      | tick =>
        left
        have still : s.after (.stimulus .tick) = s := if_neg (by simp [h.clock])
        exact congrArg (·.chip.timers) still
      | setDelay b => exact .inr ⟨b, .inl rfl⟩
      | setSound b => exact .inr ⟨b, .inr rfl⟩
      | key event => exact .inl rfl

/-- What the outside does with the request while the run does nothing. -/
theorem quitRequested_afterAll (s : Session) (events : List Event) :
    (s.afterAll events).quitRequested = true ↔ s.quitRequested = true ∨ .requestQuit ∈ events := by
  induction events generalizing s with
  | nil => simp [afterAll]
  | cons event rest ih =>
    rw [afterAll_cons, ih, List.mem_cons]
    cases event with
    | requestQuit => simp [after]
    | stimulus stimulus => simp [(s.after_stimulus stimulus).1]

/-- The moves of a run that has returned: those up to the first action of its teardown, what comes from
outside between two of the four actions, and the moves after it has returned. -/
structure Cut where
  loop : List Move
  stopped : List Event
  silenced : List Event
  cleared : List Event
  later : List Move

def Cut.teardown (cut : Cut) : List Move :=
  .proceed :: (cut.stopped.map .outside ++ .proceed :: (cut.silenced.map .outside ++
    .proceed :: (cut.cleared.map .outside ++ [.proceed])))

def Cut.moves (cut : Cut) : List Move := cut.loop ++ (cut.teardown ++ cut.later)

theorem cut_at_proceed (one : .begin ∉ ms) (enough : n + 1 ≤ ms.count .proceed) :
    ∃ (events : List Event) (after : List Move),
      ms = events.map .outside ++ .proceed :: after ∧ .begin ∉ after ∧
        n ≤ after.count .proceed := by
  induction ms with
  | nil => simp at enough
  | cons m rest ih =>
    obtain ⟨other, more⟩ := List.ne_and_not_mem_of_not_mem_cons one
    cases m with
    | begin => contradiction
    | proceed =>
      rw [List.count_cons_self] at enough
      exact ⟨[], rest, rfl, more, Nat.le_of_succ_le_succ enough⟩
    | outside event =>
      rw [count_outside] at enough
      obtain ⟨events, after, rfl, one, enough⟩ := ih more enough
      exact ⟨event :: events, after, rfl, one, enough⟩

/-- What the four actions of the teardown leave of the session. -/
theorem moves_of_teardown {cut : Cut} (phase : s.phase = .stopping e) :
    (s.moves cut.teardown).phase = .idle (some e) ∧
    (s.moves cut.teardown).chip.keypad.closed = false ∧
    ((s.moves cut.teardown).quitRequested = true ↔ .requestQuit ∈ cut.cleared) := by
  let silencing := s.proceed.afterAll cut.stopped
  let clearing := silencing.proceed.afterAll cut.silenced
  let reopening := clearing.proceed.afterAll cut.cleared
  have last : s.moves cut.teardown = reopening.proceed := by
    simp only [Cut.teardown, moves_cons, moves_append, moves_outside]
    rfl
  have silences : silencing.phase = .silencing e :=
    (afterAll_phase _ _).trans (proceed_teardown (n := 0) phase)
  have clears : clearing.phase = .clearing e :=
    (afterAll_phase _ _).trans (proceed_teardown (n := 1) silences)
  have reopens : reopening.phase = .reopening e :=
    (afterAll_phase _ _).trans (proceed_teardown (n := 2) clears)
  have forgotten : clearing.proceed.quitRequested = false := by
    rw [proceed_clearing clears]
  have asked := quitRequested_afterAll clearing.proceed cut.cleared
  simp only [forgotten, Bool.false_eq_true, false_or] at asked
  rw [last, proceed_reopening reopens]
  exact ⟨rfl, rfl, asked⟩

/-- The moves of a run that has returned are cut at the actions of its teardown. -/
theorem exists_cut {last : Option Ending} (checking : s.phase = .checking) (one : .begin ∉ ms)
    (returned : (s.moves ms).phase = .idle last) :
    ∃ cut : Cut, ∃ e, cut.moves = ms ∧ last = some e ∧ Ended s cut.loop e := by
  have looping : s.phase.loops = true := by rw [checking]; rfl
  obtain ⟨loop, rest, e, rfl, ended⟩ := loop_ends looping one returned
  rw [List.mem_append, not_or] at one
  have rests := moves_teardown (n := 0) ended.phase one.2
  rw [moves_append] at returned
  rw [returned, Nat.zero_add] at rests
  obtain ⟨four, last_eq⟩ := Phase.idle_eq_teardown rests
  obtain ⟨before, rest, rfl, one, three⟩ := cut_at_proceed one.2 four
  obtain ⟨stopped, rest, rfl, one, two⟩ := cut_at_proceed one three
  obtain ⟨silenced, rest, rfl, one, last⟩ := cut_at_proceed one two
  obtain ⟨cleared, later, rfl, -, -⟩ := cut_at_proceed one last
  refine ⟨⟨loop ++ before.map .outside, stopped, silenced, cleared, later⟩, e, ?_, last_eq,
    ended.outside before⟩
  simp [Cut.moves, Cut.teardown]

/-- A run that has returned, with the teardown that it has gone through. -/
structure TornDown (s : Session) (cut : Cut) (e : Ending) : Prop where
  /-- The clock is started first, and only once, and is not stopped in the loop. -/
  loop : ∃ inner, (s.moves (.begin :: cut.loop)).log = s.log ++ .clockStarted :: inner ∧
    ∀ x ∈ inner, x.isClock = false
  /-- All steps are taken in the loop. -/
  steps : s.takenAll (.begin :: cut.moves) = s.takenAll (.begin :: cut.loop)
  /-- The clock is stopped after the loop and only once, and then a tone at most. -/
  silence : ∃ silence, (s.moves (.begin :: cut.moves)).log =
    (s.moves (.begin :: cut.loop)).log ++ .clockStopped :: silence ∧
      (silence = [] ∨ silence = [.toneStopped])
  /-- From the stop of the clock on it does not tick, so the timers change only if they are set. -/
  still : ∀ past future, cut.teardown ++ cut.later = .proceed :: past ++ future →
    let t := s.moves (.begin :: (cut.loop ++ .proceed :: past))
    t.clockGoing = false ∧ ∀ m, m ≠ .begin → (t.move m).chip.timers = t.chip.timers ∨
      ∃ b, m = .outside (.stimulus (.setDelay b)) ∨ m = .outside (.stimulus (.setSound b))
  /-- When the run returns the keypad is open, and there is no request but one that came after the last
  one was cleared. -/
  returned :
    let t := s.moves (.begin :: (cut.loop ++ cut.teardown))
    t.phase = .idle (some e) ∧ t.chip.keypad.closed = false ∧
      (t.quitRequested = true ↔ .requestQuit ∈ cut.cleared)
  /-- The run fails exactly if one of its steps did, and with what that step failed with. -/
  failed : ∀ fault, e = .failed (.stack fault) ↔
    ∃ t ∈ s.takenAll (.begin :: cut.moves), t.result = .error (.stack fault)
  /-- Otherwise a check saw a quit or a key wait was interrupted. -/
  cause : (∃ fault, e = .failed (.stack fault)) ∨
    (e = .interrupted ∧ ∃ t ∈ s.takenAll (.begin :: cut.moves), t.result = .ok .interrupted) ∨
    (e = .quit ∧ ∃ before after, cut.loop = before ++ .proceed :: after ∧
      (s.moves (.begin :: before)).phase = .checking ∧
      (s.moves (.begin :: before)).quitRequested = true)

/-- One run. -/
theorem run_torn_down {last returned : Option Ending} (idle : s.phase = .idle last)
    (one : .begin ∉ ms) (rests : (s.moves (.begin :: ms)).phase = .idle returned) :
    ∃ cut : Cut, ∃ e, cut.moves = ms ∧ returned = some e ∧ TornDown s cut e := by
  have begun := moves_begin idle
  have stepped := takenAll_begin idle
  rw [begun] at rests
  obtain ⟨cut, e, rfl, ends, ended⟩ := exists_cut rfl one rests
  have after_loop : .begin ∉ cut.teardown ++ cut.later :=
    fun member => one (List.mem_append_right _ member)
  have steps : s.begin.takenAll cut.moves = s.begin.takenAll cut.loop := by
    rw [Cut.moves, takenAll_append, (leaving_of_stopping ended.phase).takenAll after_loop,
      List.append_nil]
  have stops := proceed_stopping ended.phase
  have halted : (s.begin.moves cut.loop).proceed.Stopped e 0 :=
    ⟨by rw [stops]; rfl, proceed_teardown ended.phase⟩
  refine ⟨cut, e, rfl, ends, ?_, ?_, ?_, ?_, ?_, ?_, ?_⟩
  · obtain ⟨inner, log, quiet⟩ := ended.clock
    have started : s.begin.log = s.log ++ [.clockStarted] := log_emit _ _
    exact ⟨inner, by rw [begun, log, started, List.append_assoc]; rfl, quiet⟩
  · rw [stepped, stepped, steps]
  · have rest : .begin ∉ cut.teardown.tail ++ cut.later :=
      fun member => after_loop (List.mem_cons_of_mem _ member)
    obtain ⟨-, silence, log, quiet⟩ := halted.moves rest
    have whole : s.begin.moves cut.moves =
        (s.begin.moves cut.loop).proceed.moves (cut.teardown.tail ++ cut.later) :=
      moves_append _ _ _
    have stop : (s.begin.moves cut.loop).proceed.log =
        (s.begin.moves cut.loop).log ++ [.clockStopped] := by
      rw [stops, log_emit]
      rfl
    refine ⟨silence, ?_, quiet.imp_right And.right⟩
    rw [begun, begun, whole, log, stop, List.append_assoc]
    rfl
  · intro past future split t
    have rest : .begin ∉ past := by
      intro member
      rw [split] at after_loop
      exact after_loop (List.mem_append_left _ (List.mem_cons_of_mem _ member))
    obtain ⟨⟨k, stopped⟩, -⟩ := halted.moves rest
    have here : t = (s.begin.moves cut.loop).proceed.moves past := by
      rw [show t = s.begin.moves _ from begun _, moves_append]
      rfl
    rw [here]
    exact ⟨stopped.clock, fun m other => stopped.timers other⟩
  · rw [begun, moves_append]
    exact moves_of_teardown ended.phase
  · intro fault
    have other : Ending.failed (.stack fault) ≠ .quit := nofun
    rw [stepped, steps, ended.eq_iff other]
    simp only [Taken.ending_stack]
  · rw [stepped, steps]
    simp only [begun]
    exact ended.cases

/-- Each of the runs has returned when the next one is begun. -/
def AllReturned : Session → List (List Move) → Prop
  | _, [] => True
  | s, run :: rest => (∃ last, (s.moves (.begin :: run)).phase = .idle last) ∧
    (s.moves (.begin :: run)).AllReturned rest

/-- Each of the runs, cut as given, went through its teardown. -/
def AllTornDown : Session → List (Cut × Ending) → Prop
  | _, [] => True
  | s, (cut, e) :: rest => TornDown s cut e ∧ (s.moves (.begin :: cut.moves)).AllTornDown rest

/-- The teardown law. However many runs of a session return one after the other, and whatever comes from
outside before, in and between them, each of them starts the clock once and before its steps, and once it
takes no more steps stops the clock, once, silences a tone that plays, and returns with the keypad open and
no request but one that came after it had cleared the last. It fails exactly if a step failed. -/
theorem runs_torn_down {last : Option Ending} (idle : s.phase = .idle last)
    {runs : List (List Move)} (one : ∀ run ∈ runs, .begin ∉ run) (returned : s.AllReturned runs) :
    ∃ cuts : List (Cut × Ending), cuts.map (·.1.moves) = runs ∧ s.AllTornDown cuts := by
  induction runs generalizing s last with
  | nil => exact ⟨[], rfl, trivial⟩
  | cons run rest ih =>
    obtain ⟨⟨later, rests⟩, others⟩ := returned
    obtain ⟨cut, e, rfl, -, torn⟩ := run_torn_down idle (one run List.mem_cons_self) rests
    obtain ⟨cuts, rfl, torn_rest⟩ :=
      ih rests (fun run member => one run (List.mem_cons_of_mem _ member)) others
    exact ⟨(cut, e) :: cuts, rfl, torn, torn_rest⟩

/-- A program that plays a tone, waits for a key and returns from nowhere. -/
def brief : Chip :=
  .boot ⟨"BRIEF", [0x61, 0x03, 0xF1, 0x18, 0xF0, 0x0A, 0x00, 0xEE]⟩ .standard (.cycle [])

/-- It is quit in its key wait while the tone plays. A tick comes too late, and the keypad is closed
again. -/
def quitRun : List Move :=
  .replicate 6 .proceed ++ .outside (.stimulus .tick) :: Event.quit.map .outside ++
    .replicate 5 .proceed ++ [.outside (.stimulus .tick), .outside (.stimulus (.key .close))]

/-- It gets its key and goes on until it fails. -/
def failedRun : List Move :=
  .replicate 2 .proceed ++ .outside (.stimulus (.key (.press 5))) :: .replicate 7 .proceed

theorem brief_torn_down :
    let s := around brief
    let runs := [quitRun, .replicate 7 .proceed, failedRun]
    let last := ((s.moves (.begin :: quitRun)).moves (.begin :: .replicate 7 .proceed)).moves
      (.begin :: failedRun)
    (s.phase = .idle none ∧ (∀ run ∈ runs, .begin ∉ run) ∧ s.AllReturned runs) ∧
    (∃ cuts : List (Cut × Ending), cuts.map (·.1.moves) = runs ∧ s.AllTornDown cuts) ∧
    last.phase = .idle (some (.failed (.stack .underflow))) ∧
    last.log = [.clockStarted, .toneStarted, .clockStopped, .toneStopped,
      .clockStarted, .clockStopped, .clockStarted, .clockStopped] ∧
    last.chip.timers = ⟨0, 2⟩ := by
  intro s runs last
  have idle : s.phase = .idle none := rfl
  have one : ∀ run ∈ runs, .begin ∉ run := by decide
  obtain ⟨quit, closed, failed, log, timers⟩ :
      (s.moves (.begin :: quitRun)).phase = .idle (some .interrupted) ∧
      ((s.moves (.begin :: quitRun)).moves (.begin :: .replicate 7 .proceed)).phase =
        .idle (some .interrupted) ∧
      last.phase = .idle (some (.failed (.stack .underflow))) ∧
      last.log = [.clockStarted, .toneStarted, .clockStopped, .toneStopped,
        .clockStarted, .clockStopped, .clockStarted, .clockStopped] ∧
      last.chip.timers = ⟨0, 2⟩ := by
    decide +kernel
  have returned : s.AllReturned runs := ⟨⟨_, quit⟩, ⟨_, closed⟩, ⟨_, failed⟩, trivial⟩
  exact ⟨⟨idle, one, returned⟩, runs_torn_down idle one returned, failed, log, timers⟩

end Session
end ChipEight
