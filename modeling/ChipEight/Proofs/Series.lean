import ChipEight.Proofs.Failure
import Mathlib.Logic.Function.Iterate

/-! Steps in a row. A step that has to wait for its key lets the events of the wait happen and is taken then:
it waits as the keypad does, and is a few turns of the machine. A series takes steps as long as they go on, so
it is a run of the machine, and how it ends is how its last step does. -/
namespace ChipEight

namespace Chip

variable {c : Chip}

theorem awaitsKey_iff_isMisc : c.awaitsKey = true ↔ c.nextOpcode.IsMisc 0x0A := by
  constructor
  · intro awaits
    obtain ⟨x, word⟩ := awaitsKey_iff.mp awaits
    have fits := Instruction.fits_decode c.nextOpcode
    rw [word] at fits
    exact fits.1
  · intro misc
    exact awaitsKey_iff.mpr ⟨_, Instruction.decode_of_misc misc⟩

/-- A wait that begins on an open keypad does not end at once. -/
theorem poll_beginWait_eq_pending_iff {p : Keypad} : p.beginWait.poll p = .pending ↔ p.closed = false := by
  simp [KeyWait.poll, Keypad.beginWait]

/-- The steps that let the events of a wait happen. -/
theorem begins_to_wait_iff : (c.step c.keypad.beginWait).result = .error .waiting ↔
    c.awaitsKey = true ∧ c.keypad.closed = false := by
  rw [step_waiting_iff, poll_beginWait_eq_pending_iff, awaitsKey_iff_isMisc]

/-- The turns of one step, with the events of its wait. -/
def stepTurns (events : List KeyEvent) (c : Chip) : List Turn :=
  (if c.awaitsKey && !c.keypad.closed then events.map fun event => .outside (.key event) else []) ++
    [.step c.keypad.beginWait]

theorem turnAll_keys (c : Chip) (events : List KeyEvent) :
    c.turnAll (events.map fun event => .outside (.key event)) =
      { c with keypad := c.keypad.afterAll events } := by
  induction events generalizing c with
  | nil => rfl
  | cons event rest ih => exact ih (c.after (.key event))

theorem takenAll_keys (c : Chip) (events : List KeyEvent) :
    c.takenAll (events.map fun event => .outside (.key event)) = [] := by
  induction events generalizing c with
  | nil => rfl
  | cons event rest ih => exact ih (c.after (.key event))

theorem during_of_waiting (waits : (c.step c.keypad.beginWait).result = .error .waiting)
    (events : List KeyEvent) :
    c.during events step = { c with keypad := c.keypad.afterAll events }.step c.keypad.beginWait := by
  simp only [during]
  split
  · rfl
  · next other => exact absurd (congrArg (Outcome.mk _) waits) (other _)

theorem during_of_not_waiting (done : (c.step c.keypad.beginWait).result ≠ .error .waiting)
    (events : List KeyEvent) : c.during events step = c.step c.keypad.beginWait := by
  simp only [during]
  split
  · next run => exact absurd (congrArg Outcome.result run) done
  · rfl

/-- A step is its turns. -/
theorem during_turns (events : List KeyEvent) (c : Chip) :
    (c.during events step).chip = c.turnAll (c.stepTurns events) ∧
      c.takenAll (c.stepTurns events) = [⟨c.nextOpcode, (c.during events step).result⟩] := by
  by_cases waits : c.awaitsKey = true ∧ c.keypad.closed = false
  · have run := during_of_waiting (begins_to_wait_iff.mpr waits) events
    rw [stepTurns, turnAll_append, takenAll_append, run]
    simp only [waits, Bool.not_false, Bool.and_true, if_true, turnAll_keys, takenAll_keys, List.nil_append]
    exact ⟨rfl, rfl⟩
  · have run := during_of_not_waiting (mt begins_to_wait_iff.mp waits) events
    have quiet : ¬(c.awaitsKey && !c.keypad.closed) = true := by simpa using waits
    rw [stepTurns, if_neg quiet, run]
    exact ⟨rfl, rfl⟩

/-- A step waits as the keypad does: it is told the reply of a wait through the events, and it is still
waiting exactly if that wait is. -/
theorem during_awaits (awaits : c.awaitsKey = true) (events : List KeyEvent) :
    let awaited := c.keypad.await events
    c.during events step = { c with keypad := awaited.1 }.step c.keypad.beginWait ∧
      c.keypad.beginWait.poll awaited.1 = awaited.2 ∧
      ((c.during events step).result = .error .waiting ↔ awaited.2 = .pending) := by
  intro awaited
  obtain ⟨run, told⟩ : c.during events step = { c with keypad := awaited.1 }.step c.keypad.beginWait ∧
      c.keypad.beginWait.poll awaited.1 = awaited.2 := by
    cases closed : c.keypad.closed with
    | true =>
      have ended : c.keypad.beginWait.poll c.keypad = .cancelled := by rw [KeyWait.poll, if_pos closed]
      have same : awaited = (c.keypad, .cancelled) := by simp only [awaited, Keypad.await, ended]
      have none : ¬(c.awaitsKey = true ∧ c.keypad.closed = false) := by simp [closed]
      rw [same, during_of_not_waiting (mt begins_to_wait_iff.mp none)]
      exact ⟨rfl, ended⟩
    | false =>
      have goes : c.keypad.beginWait.poll c.keypad = .pending := poll_beginWait_eq_pending_iff.mpr closed
      have later : awaited = (c.keypad.afterAll events,
          c.keypad.beginWait.poll (c.keypad.afterAll events)) := by
        simp only [awaited, Keypad.await, goes]
      rw [later, during_of_waiting (begins_to_wait_iff.mpr ⟨awaits, closed⟩)]
      exact ⟨rfl, rfl⟩
  refine ⟨run, told, ?_⟩
  rw [run, step_waiting_iff, told]
  exact and_iff_right (awaitsKey_iff_isMisc.mp awaits)

/-- The machine after so many steps, whatever came of them. -/
def afterSteps (events : List KeyEvent) (k : Nat) (c : Chip) : Chip :=
  (fun d : Chip => (d.during events step).chip)^[k] c

/-- Step `k` of so many, counted from zero. -/
def takenAt (events : List KeyEvent) (c : Chip) (k : Nat) : Taken :=
  ⟨(c.afterSteps events k).nextOpcode, ((c.afterSteps events k).during events step).result⟩

/-- Steps in a row are a run. -/
theorem afterSteps_turns (events : List KeyEvent) (m : Nat) (c : Chip) :
    let turns := (List.range m).flatMap fun k => (c.afterSteps events k).stepTurns events
    c.afterSteps events m = c.turnAll turns ∧ c.takenAll turns = (List.range m).map (c.takenAt events) := by
  induction m with
  | zero => exact ⟨rfl, rfl⟩
  | succ m ih =>
    obtain ⟨chip, taken⟩ := ih
    obtain ⟨next, result⟩ := (c.afterSteps events m).during_turns events
    simp only [List.range_succ, List.flatMap_append, List.flatMap_singleton, List.map_append, turnAll_append,
      takenAll_append, ← chip, taken, result]
    refine ⟨?_, rfl⟩
    rw [← next]
    exact Function.iterate_succ_apply' _ m c

theorem series_of_stops {events : List KeyEvent} (stops : (c.takenAt events 0).goesOn = false) (n : Nat)
    (last : Except Halt Signal) : c.series events (n + 1) last =
      ⟨(c.during events step).chip, 0, (c.during events step).result⟩ := by
  have first : c.takenAt events 0 = ⟨c.nextOpcode, (c.during events step).result⟩ := rfl
  rw [series]
  split
  · next run => rw [run]
  · next run => rw [run]
  · next signal on run => cases signal <;> simp [first, run, Taken.goesOn] at on stops

theorem series_of_goesOn {events : List KeyEvent} (goes : (c.takenAt events 0).goesOn = true) (n : Nat)
    (last : Except Halt Signal) : c.series events (n + 1) last =
      let rest := (c.during events step).chip.series events n (c.during events step).result
      { rest with completed := rest.completed + 1 } := by
  have first : c.takenAt events 0 = ⟨c.nextOpcode, (c.during events step).result⟩ := rfl
  rw [series]
  split
  · next run => simp [first, run, Taken.goesOn] at goes
  · next run => simp [first, run, Taken.goesOn] at goes
  · next run => rw [run]

/-- A series takes steps as long as they go on, and at most as many as it was asked for. -/
theorem series_spec (events : List KeyEvent) (n : Nat) (last : Except Halt Signal) (c : Chip) :
    let s := c.series events n last
    (∀ k < s.completed, (c.takenAt events k).goesOn = true) ∧
    (s.completed = n ∧ s.chip = c.afterSteps events n ∧
        s.last = (match n with | 0 => last | k + 1 => (c.takenAt events k).result) ∨
      s.completed < n ∧ (c.takenAt events s.completed).goesOn = false ∧
        s.chip = c.afterSteps events (s.completed + 1) ∧
        s.last = (c.takenAt events s.completed).result) := by
  induction n generalizing c last with
  | zero => exact ⟨nofun, .inl ⟨rfl, rfl, rfl⟩⟩
  | succ n ih =>
    cases first : (c.takenAt events 0).goesOn with
    | false =>
      rw [series_of_stops first]
      exact ⟨nofun, .inr ⟨Nat.succ_pos n, first, rfl, rfl⟩⟩
    | true =>
      -- What comes after the first step is a series from there.
      let d := (c.during events step).chip
      have later (k : Nat) : c.afterSteps events (k + 1) = d.afterSteps events k := rfl
      have taken (k : Nat) : c.takenAt events (k + 1) = d.takenAt events k := rfl
      obtain ⟨all, way⟩ := ih (c.during events step).result d
      rw [series_of_goesOn first]
      refine ⟨fun k less => ?_, ?_⟩
      · cases k with
        | zero => exact first
        | succ k =>
          rw [taken]
          exact all k (Nat.lt_of_succ_lt_succ less)
      · simp only [taken, later]
        rcases way with ⟨whole, there, final⟩ | ⟨less, stops, there, final⟩
        · refine .inl ⟨congrArg (· + 1) whole, there, final.trans ?_⟩
          cases n with
          | zero => rfl
          | succ n => exact congrArg Taken.result (taken n).symm
        · exact .inr ⟨Nat.succ_lt_succ less, stops, there, final⟩

end Chip
end ChipEight
