import ChipEight.Proofs.Turn
import ChipEight.Session

/-! What the moves of a session do. The actions of a run are given as one rule per case, so that a
statement about all of them is a case analysis on a rule; an event from outside reaches the machine,
the tone or the quit request and leaves the rest of a session alone. -/
namespace ChipEight

/-- The entry of a tone that begins or ends. -/
def Entry.tone (on : Bool) : Entry := if on then .toneStarted else .toneStopped

/-- Where a run goes on after a step. -/
def Phase.afterStep (wait : KeyWait) : Except Halt Signal → Phase
  | .ok .quiet => .checking
  | .ok .drawn => .showing
  | .ok .interrupted => .stopping .interrupted
  | .error .waiting => .awaiting wait
  | .error h => .stopping (.failed h)

namespace Session

theorem log_emit (s : Session) (e : Entry) : (s.emit e).log = s.log ++ [e] := by
  simp [log, emit]

theorem moves_cons (s : Session) (m : Move) (ms : List Move) :
    s.moves (m :: ms) = (s.move m).moves ms := rfl

theorem moves_append (s : Session) (ms more : List Move) :
    s.moves (ms ++ more) = (s.moves ms).moves more := List.foldl_append

theorem moves_outside (s : Session) (events : List Event) :
    s.moves (events.map .outside) = s.afterAll events := List.foldl_map

theorem afterAll_cons (s : Session) (event : Event) (events : List Event) :
    s.afterAll (event :: events) = (s.after event).afterAll events := rfl

theorem count_outside (event : Event) (ms : List Move) :
    (Move.outside event :: ms).count .proceed = ms.count .proceed := by
  have other : Move.outside event ≠ .proceed := nofun
  exact List.count_cons_of_ne other

/-- Within one run there are the actions of the run and events from outside. -/
@[elab_as_elim]
theorem run_induction {motive : (s : Session) → (ms : List Move) → .begin ∉ ms → Prop}
    (nil : ∀ s, motive s [] List.not_mem_nil)
    (outside : ∀ s event rest more, motive (s.after event) rest more →
      motive s (.outside event :: rest) (List.not_mem_cons_of_ne_of_not_mem nofun more))
    (proceed : ∀ s rest more, motive s.proceed rest more →
      motive s (.proceed :: rest) (List.not_mem_cons_of_ne_of_not_mem nofun more))
    (s : Session) (ms : List Move) (one : .begin ∉ ms) : motive s ms one := by
  induction ms generalizing s with
  | nil => exact nil s
  | cons m rest ih =>
    have more : .begin ∉ rest := List.not_mem_of_not_mem_cons one
    cases m with
    | begin => exact absurd List.mem_cons_self one
    | outside event => exact outside s event rest more (ih (s.after event) more)
    | proceed => exact proceed s rest more (ih s.proceed more)

theorem move_begin_cases (s : Session) :
    (∃ last, s.phase = .idle last ∧ s.move .begin = s.begin) ∨ s.move .begin = s := by
  cases phase : s.phase with
  | idle last => exact .inl ⟨last, rfl, by simp [move, phase]⟩
  | _ => exact .inr (by simp [move, phase])

theorem moves_begin {s : Session} {last : Option Ending} (idle : s.phase = .idle last)
    (ms : List Move) : s.moves (.begin :: ms) = s.begin.moves ms := by
  rw [moves_cons, move, idle]

/-- What holds and is kept by every move holds after any moves. -/
theorem moves_preserve {P : Session → Prop} (kept : ∀ s m, P s → P (s.move m)) {s : Session}
    (h : P s) (ms : List Move) : P (s.moves ms) := by
  induction ms generalizing s with
  | nil => exact h
  | cons m rest ih => exact ih (kept s m h)

/-- The wait of the step that the run takes next, if its next action is a step. -/
def wait? (s : Session) : Option KeyWait :=
  match s.phase with
  | .stepping => if s.chip.awaitsKey then none else some s.chip.keypad.beginWait
  | .awaiting wait => some wait
  | _ => none

theorem takeStep_eq (s : Session) (wait : KeyWait) : ∃ steps, s.takeStep wait =
    { s with
      chip := (s.chip.step wait).chip
      phase := .afterStep wait (s.chip.step wait).result
      steps } := by
  unfold takeStep
  obtain ⟨chip, result⟩ := s.chip.step wait
  cases result with
  | ok signal => cases signal <;> exact ⟨_, rfl⟩
  | error h => cases h <;> exact ⟨_, rfl⟩

/-- The actions of a run, each with the session after it. -/
inductive Proceeds (s : Session) : Session → Prop where
  | rest {last : Option Ending} (phase : s.phase = .idle last) : Proceeds s s
  | quit (phase : s.phase = .checking) (asked : s.quitRequested = true) :
      Proceeds s { s with phase := .stopping .quit }
  | goOn (phase : s.phase = .checking) (asked : s.quitRequested = false) :
      Proceeds s { s with phase := .stepping }
  | wait (phase : s.phase = .stepping) (waits : s.chip.awaitsKey = true) :
      Proceeds s { s with phase := .awaiting s.chip.keypad.beginWait }
  | step {wait : KeyWait} (next : s.wait? = some wait) (steps : Nat) :
      Proceeds s { s with
        chip := (s.chip.step wait).chip
        phase := .afterStep wait (s.chip.step wait).result
        steps }
  | present (phase : s.phase = .showing) :
      Proceeds s ({ s with phase := .checking, frames := s.frames + 1 }.emit
        (.frame s.chip.screen s.chip.timers))
  | stop {e : Ending} (phase : s.phase = .stopping e) :
      Proceeds s ({ s with clockGoing := false, phase := .silencing e }.emit .clockStopped)
  | silence {e : Ending} (phase : s.phase = .silencing e) (on : s.toneOn = true) :
      Proceeds s ({ s with toneOn := false, phase := .clearing e }.emit .toneStopped)
  | silent {e : Ending} (phase : s.phase = .silencing e) (off : s.toneOn = false) :
      Proceeds s { s with phase := .clearing e }
  | clear {e : Ending} (phase : s.phase = .clearing e) :
      Proceeds s { s with quitRequested := false, phase := .reopening e }
  | reopen {e : Ending} (phase : s.phase = .reopening e) :
      Proceeds s { s with chip := s.chip.after (.key .reopen), phase := .idle (some e) }

theorem proceeds_takeStep {s : Session} {wait : KeyWait} (next : s.wait? = some wait) :
    Proceeds s (s.takeStep wait) := by
  obtain ⟨steps, run⟩ := s.takeStep_eq wait
  rw [run]
  exact .step next steps

theorem proceeds (s : Session) : Proceeds s s.proceed := by
  unfold proceed
  cases phase : s.phase with
  | idle last => exact .rest phase
  | checking =>
    dsimp only
    split
    · next asked => exact .quit phase asked
    · next free => exact .goOn phase (Bool.eq_false_iff.mpr free)
  | stepping =>
    dsimp only
    split
    · next waits => exact .wait phase waits
    · next free => exact proceeds_takeStep (by simp [wait?, phase, free])
  | awaiting wait => exact proceeds_takeStep (by simp [wait?, phase])
  | showing => exact .present phase
  | stopping e => exact .stop phase
  | silencing e =>
    dsimp only
    split
    · next on => exact .silence phase on
    · next off => exact .silent phase (Bool.eq_false_iff.mpr off)
  | clearing e => exact .clear phase
  | reopening e => exact .reopen phase

theorem Proceeds.eq_of_wait {s t : Session} {wait : KeyWait} (rule : Proceeds s t)
    (next : s.wait? = some wait) : ∃ steps, t = { s with
      chip := (s.chip.step wait).chip
      phase := .afterStep wait (s.chip.step wait).result
      steps } := by
  cases rule with
  | step found steps =>
    rw [next] at found
    cases found
    exact ⟨steps, rfl⟩
  | wait phase waits => simp [wait?, phase, waits] at next
  | rest phase | goOn phase | quit phase | silent phase | clear phase | reopen phase | stop phase
  | silence phase | present phase => simp [wait?, phase] at next

theorem Proceeds.chip_of_wait {s t : Session} {wait : KeyWait} (rule : Proceeds s t)
    (next : s.wait? = some wait) : t.chip = (s.chip.step wait).chip := by
  obtain ⟨steps, rfl⟩ := rule.eq_of_wait next
  rfl

theorem afterStep_showing {wait : KeyWait} {result : Except Halt Signal} :
    Phase.afterStep wait result = .showing ↔ result = .ok .drawn := by
  cases result with
  | ok signal => cases signal <;> simp [Phase.afterStep]
  | error h => cases h <;> simp [Phase.afterStep]

theorem followTone_eq (s : Session) : s.followTone =
    { s with
      toneOn := s.chip.timers.isSounding
      trace := (if s.chip.timers.isSounding = s.toneOn then []
        else [.tone s.chip.timers.isSounding]) ++ s.trace } := by
  unfold followTone
  dsimp only
  split
  · next same => simp [same]
  · rfl

/-- An event from outside ticks the clock that is going or reaches nothing but the machine and the
quit request. -/
theorem after_cases (s : Session) (event : Event) :
    (event = .stimulus .tick ∧ s.clockGoing = true ∧ s.after event = s.tick) ∨
    (∃ stimulus, s.after event = { s with chip := s.chip.after stimulus }) ∨
    s.after event = { s with quitRequested := true } ∨ s.after event = s := by
  cases event with
  | requestQuit => exact .inr (.inr (.inl rfl))
  | stimulus stimulus =>
    cases stimulus with
    | tick =>
      by_cases going : s.clockGoing = true
      · exact .inl ⟨rfl, going, if_pos going⟩
      · exact .inr (.inr (.inr (if_neg going)))
    | setDelay b | setSound b | key event => exact .inr (.inl ⟨_, rfl⟩)

theorem tick_eq (s : Session) : s.tick = { s.followTone with chip := s.chip.after .tick } := by
  rw [tick, followTone_eq]

/-- Something from outside reaches the machine as it is, but for a tick of a clock that is stopped. -/
theorem after_stimulus (s : Session) (stimulus : Stimulus) :
    (s.after (.stimulus stimulus)).quitRequested = s.quitRequested ∧
      ((s.after (.stimulus stimulus)).chip = s.chip.after stimulus ∨
        s.after (.stimulus stimulus) = s) := by
  cases stimulus with
  | tick =>
    by_cases going : s.clockGoing = true
    · have ticked : s.after (.stimulus .tick) = s.tick := if_pos going
      rw [ticked, tick_eq, followTone_eq]
      exact ⟨rfl, .inl rfl⟩
    · have still : s.after (.stimulus .tick) = s := if_neg going
      rw [still]
      exact ⟨rfl, .inr rfl⟩
  | setDelay b | setSound b | key event => exact ⟨rfl, .inl rfl⟩

theorem after_phase (s : Session) (event : Event) : (s.after event).phase = s.phase := by
  rcases s.after_cases event with ⟨_, _, run⟩ | ⟨stimulus, run⟩ | run | run
  · rw [run, tick_eq, followTone_eq]
  all_goals rw [run]

theorem afterAll_phase (s : Session) (events : List Event) : (s.afterAll events).phase = s.phase := by
  induction events generalizing s with
  | nil => rfl
  | cons event rest ih => exact (ih (s.after event)).trans (s.after_phase event)

theorem after_screen (s : Session) (event : Event) :
    (s.after event).chip.screen = s.chip.screen := by
  rcases s.after_cases event with ⟨_, _, run⟩ | ⟨stimulus, run⟩ | run | run
  · rw [run, tick_eq]
    exact s.chip.after_screen .tick
  · rw [run]
    exact s.chip.after_screen stimulus
  all_goals rw [run]

theorem after_dialect (s : Session) (event : Event) :
    (s.after event).chip.dialect = s.chip.dialect := by
  rcases s.after_cases event with ⟨_, _, run⟩ | ⟨stimulus, run⟩ | run | run
  · rw [run, tick_eq]
    exact s.chip.after_dialect .tick
  · rw [run]
    exact s.chip.after_dialect stimulus
  all_goals rw [run]

theorem Proceeds.dialect {s t : Session} (rule : Proceeds s t) : t.chip.dialect = s.chip.dialect := by
  cases rule with
  | @step wait next steps => exact s.chip.step_dialect wait
  | _ => rfl

theorem move_dialect (s : Session) (m : Move) : (s.move m).chip.dialect = s.chip.dialect := by
  cases m with
  | begin =>
    obtain ⟨_, _, run⟩ | run := s.move_begin_cases <;> rw [run]
    rfl
  | proceed => exact s.proceeds.dialect
  | outside event => exact s.after_dialect event

theorem moves_dialect (s : Session) (ms : List Move) :
    (s.moves ms).chip.dialect = s.chip.dialect :=
  moves_preserve (P := fun t => t.chip.dialect = s.chip.dialect)
    (fun t m same => (t.move_dialect m).trans same) rfl ms

end Session
end ChipEight
