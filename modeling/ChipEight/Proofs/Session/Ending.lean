import ChipEight.Proofs.Failure
import ChipEight.Proofs.Session.Resume

/-! How a run comes to its end. A run is in its loop until a check sees a quit or a step ends it, and there
are two kinds of step that do: those that the stack does not allow and those whose key wait is called
off. The clock is neither started nor stopped in the loop. -/
namespace ChipEight

def Entry.isClock : Entry → Bool
  | .clockStarted | .clockStopped => true
  | _ => false

/-- The phases in which a run is still to go on. -/
def Phase.loops : Phase → Bool
  | .checking | .stepping | .awaiting _ | .showing => true
  | _ => false

/-- How the step ends the run that takes it, if it does. -/
def Taken.ending? (t : Taken) : Option Ending :=
  match t.result with
  | .ok .interrupted => some .interrupted
  | .ok _ | .error .waiting => none
  | .error h => some (.failed h)

theorem Taken.ending_interrupted {t : Taken} :
    t.ending? = some .interrupted ↔ t.result = .ok .interrupted := by
  obtain ⟨word, result⟩ := t
  cases result with
  | ok signal => cases signal <;> simp [ending?]
  | error h => cases h <;> simp [ending?]

theorem Taken.ending_stack {t : Taken} {fault : StackFault} :
    t.ending? = some (.failed (.stack fault)) ↔ t.result = .error (.stack fault) := by
  obtain ⟨word, result⟩ := t
  cases result with
  | ok signal => cases signal <;> simp [ending?]
  | error h => cases h <;> simp [ending?]

/-- A step goes on with the loop unless it ends the run. -/
theorem Phase.afterStep_cases (wait : KeyWait) (t : Taken) :
    (t.ending? = none ∧ (afterStep wait t.result).loops = true) ∨
    ∃ e, t.ending? = some e ∧ afterStep wait t.result = .stopping e := by
  obtain ⟨word, result⟩ := t
  cases result with
  | ok signal => cases signal <;> simp [Taken.ending?, afterStep, loops]
  | error h => cases h <;> simp [Taken.ending?, afterStep, loops]

theorem Chip.ending_taken {c : Chip} {wait : KeyWait} {e : Ending}
    (ends : (c.taken wait).ending? = some e) :
    e = .interrupted ∨ ∃ fault, e = .failed (.stack fault) := by
  cases result : (c.step wait).result with
  | ok signal =>
    left
    cases signal <;> simp [Taken.ending?, taken, result] at ends
    exact ends.symm
  | error h =>
    rcases step_error_cases result with ⟨rfl, -⟩ | ⟨rfl, -⟩ | ⟨rfl, -⟩
    · right
      exact ⟨.overflow, by simpa [Taken.ending?, taken, result] using ends.symm⟩
    · right
      exact ⟨.underflow, by simpa [Taken.ending?, taken, result] using ends.symm⟩
    · simp [Taken.ending?, taken, result] at ends

namespace Session

variable {s t u : Session} {m : Move} {ms : List Move} {e : Ending}

theorem mem_takenAll {taken : Taken} (member : taken ∈ s.takenAll ms) :
    ∃ c wait, taken = Chip.taken c wait := by
  induction ms generalizing s with
  | nil => contradiction
  | cons m rest ih =>
    rcases List.mem_append.mp member with first | later
    · cases m with
      | proceed =>
        obtain ⟨wait, _, rfl⟩ := Option.map_eq_some_iff.mp (Option.mem_toList.mp first)
        exact ⟨s.chip, wait, rfl⟩
      | _ => contradiction
    · exact ih later

/-- What the log gains from one session to the other has nothing to do with the clock. -/
def SameClock (s t : Session) : Prop :=
  ∃ gained, t.log = s.log ++ gained ∧ ∀ x ∈ gained, x.isClock = false

theorem SameClock.refl (s : Session) : SameClock s s := ⟨[], by simp, nofun⟩

theorem SameClock.trans (first : SameClock s t) (second : SameClock t u) : SameClock s u := by
  obtain ⟨some, log, quiet⟩ := first
  obtain ⟨more, log', quiet'⟩ := second
  refine ⟨some ++ more, by rw [log', log, List.append_assoc], ?_⟩
  intro x member
  rcases List.mem_append.mp member with before | after
  · exact quiet x before
  · exact quiet' x after

theorem SameClock.of_log (same : t.log = s.log) : SameClock s t := ⟨[], by simp [same], nofun⟩

theorem sameClock_after (s : Session) (event : Event) : SameClock s (s.after event) := by
  rcases s.after_cases event with ⟨_, _, run⟩ | ⟨stimulus, run⟩ | run | run
  · rw [run, tick_eq, followTone_eq]
    refine ⟨if s.chip.timers.isSounding = s.toneOn then [] else [.tone s.chip.timers.isSounding],
      ?_, ?_⟩
    · simp only [log]
      split <;> simp
    · intro x member
      split at member
      · contradiction
      · obtain rfl := List.mem_singleton.mp member
        cases s.chip.timers.isSounding <;> rfl
  · rw [run]
    exact .of_log rfl
  · rw [run]
    exact .of_log rfl
  · rw [run]
    exact .refl s

theorem sameClock_afterAll (s : Session) (events : List Event) : SameClock s (s.afterAll events) := by
  induction events generalizing s with
  | nil => exact .refl s
  | cons event rest ih => exact (s.sameClock_after event).trans (ih (s.after event))

/-- An action of the loop goes on with it, or sees a quit or takes a step that ends it. -/
theorem Proceeds.loops (rule : Proceeds s t) (looping : s.phase.loops = true) :
    SameClock s t ∧
    ((t.phase.loops = true ∧ (s.taken? .proceed).toList.filterMap Taken.ending? = []) ∨
    (t.phase = .stopping .quit ∧ s.taken? .proceed = none ∧ s.phase = .checking ∧
      s.quitRequested = true) ∨
    ∃ e, t.phase = .stopping e ∧ (s.taken? .proceed).toList.filterMap Taken.ending? = [e]) := by
  cases rule with
  | quit phase asked =>
    exact ⟨.of_log rfl, .inr (.inl ⟨rfl, by simp [taken?, wait?, phase], phase, asked⟩)⟩
  | goOn phase asked => exact ⟨.of_log rfl, .inl ⟨rfl, by simp [taken?, wait?, phase]⟩⟩
  | wait phase waits => exact ⟨.of_log rfl, .inl ⟨rfl, by simp [taken?, wait?, phase, waits]⟩⟩
  | present phase =>
    refine ⟨⟨[.frame s.chip.screen s.chip.timers], log_emit _ _, ?_⟩, .inl ⟨rfl, ?_⟩⟩
    · intro x member
      obtain rfl := List.mem_singleton.mp member
      rfl
    · simp [taken?, wait?, phase]
  | @step wait next steps =>
    refine ⟨.of_log rfl, ?_⟩
    rw [taken?, next]
    rcases Phase.afterStep_cases wait (s.chip.taken wait) with ⟨none, goes⟩ | ⟨e, ends, stops⟩
    · exact .inl ⟨goes, by simp [none]⟩
    · exact .inr (.inr ⟨e, stops, by simp [ends]⟩)
  | rest phase | stop phase | silence phase | silent phase | clear phase | reopen phase =>
    simp [phase, Phase.loops] at looping

/-- The moves of a loop up to the point where it has ended. -/
structure Ended (s : Session) (loop : List Move) (e : Ending) : Prop where
  phase : (s.moves loop).phase = .stopping e
  clock : SameClock s (s.moves loop)
  cause : (s.takenAll loop).filterMap Taken.ending? = [e] ∨
    (e = .quit ∧ (s.takenAll loop).filterMap Taken.ending? = [] ∧
      ∃ before after, loop = before ++ .proceed :: after ∧ (s.moves before).phase = .checking ∧
        (s.moves before).quitRequested = true)

/-- A move that does not end the loop comes before the rest of it. -/
theorem Ended.cons {loop : List Move} (ended : Ended (s.move m) loop e) (clock : SameClock s (s.move m))
    (goes : (s.taken? m).toList.filterMap Taken.ending? = []) : Ended s (m :: loop) e := by
  have steps : (s.takenAll (m :: loop)).filterMap Taken.ending? =
      ((s.move m).takenAll loop).filterMap Taken.ending? := by
    rw [takenAll, List.filterMap_append, goes, List.nil_append]
  refine ⟨ended.phase, clock.trans ended.clock, ?_⟩
  rw [steps]
  rcases ended.cause with stepped | ⟨quit, none, before, after, rfl, checks, asked⟩
  · exact .inl stepped
  · exact .inr ⟨quit, none, m :: before, after, rfl, checks, asked⟩

theorem leaving_of_stopping (phase : s.phase = .stopping e) : s.Leaving := by
  simp [Leaving, phase]

/-- What comes from outside before the first action of the teardown belongs to the loop. -/
theorem Ended.outside {loop : List Move} (ended : Ended s loop e) (events : List Event) :
    Ended s (loop ++ events.map .outside) e := by
  have one : .begin ∉ events.map Move.outside := by simp
  have steps : s.takenAll (loop ++ events.map .outside) = s.takenAll loop := by
    rw [takenAll_append, (leaving_of_stopping ended.phase).takenAll one, List.append_nil]
  constructor
  · rw [moves_append, moves_outside, afterAll_phase]
    exact ended.phase
  · rw [moves_append, moves_outside]
    exact ended.clock.trans (sameClock_afterAll _ events)
  · rw [steps]
    rcases ended.cause with stepped | ⟨quit, none, before, after, rfl, checks, asked⟩
    · exact .inl stepped
    · exact .inr ⟨quit, none, before, after ++ events.map .outside, by simp, checks, asked⟩

/-- A run ends other than by a quit exactly if one of its steps ends it so. -/
theorem Ended.eq_iff {loop : List Move} (ended : Ended s loop e) {ending : Ending}
    (other : ending ≠ .quit) :
    e = ending ↔ ∃ t ∈ s.takenAll loop, t.ending? = some ending := by
  rw [← List.mem_filterMap]
  rcases ended.cause with stepped | ⟨quit, none, _⟩
  · rw [stepped, List.mem_singleton, eq_comm]
  · rw [quit, none]
    constructor
    · intro same
      exact absurd same.symm other
    · intro member
      contradiction

/-- A loop is ended by a step that the stack does not allow, by a key wait that is called off, or by a
check that sees a quit. -/
theorem Ended.cases {loop : List Move} (ended : Ended s loop e) :
    (∃ fault, e = .failed (.stack fault)) ∨
    (e = .interrupted ∧ ∃ t ∈ s.takenAll loop, t.result = .ok .interrupted) ∨
    (e = .quit ∧ ∃ before after, loop = before ++ .proceed :: after ∧
      (s.moves before).phase = .checking ∧ (s.moves before).quitRequested = true) := by
  rcases ended.cause with stepped | ⟨quit, -, checked⟩
  · have member : e ∈ (s.takenAll loop).filterMap Taken.ending? := by
      rw [stepped]
      exact List.mem_singleton_self e
    obtain ⟨t, taken, ends⟩ := List.mem_filterMap.mp member
    obtain ⟨c, wait, rfl⟩ := mem_takenAll taken
    rcases Chip.ending_taken ends with rfl | failed
    · exact .inr (.inl ⟨rfl, _, taken, Taken.ending_interrupted.mp ends⟩)
    · exact .inl failed
  · exact .inr (.inr ⟨quit, checked⟩)

/-- The loop of a run that has returned has ended. -/
theorem loop_ends {last : Option Ending} (looping : s.phase.loops = true) (one : .begin ∉ ms)
    (returned : (s.moves ms).phase = .idle last) :
    ∃ loop rest e, ms = loop ++ rest ∧ Ended s loop e := by
  induction s, ms, one using run_induction with
  | nil s =>
    change s.phase = _ at returned
    simp [returned, Phase.loops] at looping
  | outside s event rest more ih =>
    obtain ⟨loop, tail, e, rfl, ended⟩ := ih (by rwa [after_phase]) returned
    have whole : Ended s (.outside event :: loop) e :=
      Ended.cons (m := .outside event) ended (s.sameClock_after event) rfl
    exact ⟨.outside event :: loop, tail, e, rfl, whole⟩
  | proceed s rest more ih =>
    obtain ⟨clock, ⟨still, goes⟩ | ⟨phase, none, checks, asked⟩ | ⟨e, phase, ends⟩⟩ :=
      s.proceeds.loops looping
    · obtain ⟨loop, tail, e, rfl, ended⟩ := ih still returned
      have whole : Ended s (.proceed :: loop) e := Ended.cons (m := .proceed) ended clock goes
      exact ⟨.proceed :: loop, tail, e, rfl, whole⟩
    · refine ⟨[.proceed], rest, .quit, rfl, phase, clock, .inr ⟨rfl, ?_, [], [], rfl, checks, asked⟩⟩
      simp [takenAll, none]
    · refine ⟨[.proceed], rest, e, rfl, phase, clock, .inl ?_⟩
      simpa [takenAll] using ends

end Session
end ChipEight
