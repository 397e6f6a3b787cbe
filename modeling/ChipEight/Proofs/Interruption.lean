import ChipEight.Proofs.Lockstep

/-! Steps that leave nothing behind. A key wait that is called off, or goes on, has not happened: its step
changes no more than the latest word. What is left over when such steps are dropped is what one execution on
an open keypad does. -/
namespace ChipEight

/-- A step counts unless its key wait was interrupted or goes on. -/
def Taken.counts (t : Taken) : Bool :=
  match t.result with
  | .ok .interrupted | .error .waiting => false
  | _ => true

theorem Keypad.reopen_after (p : Keypad) {event : KeyEvent} (close : event ≠ .close)
    (reopen : event ≠ .reopen) : (p.after event).reopen = p.reopen.after event := by
  cases event with
  | press k =>
    simp only [after, press, Keypad.reopen]
    split <;> rfl
  | release k =>
    simp only [after, release, Keypad.reopen]
    split <;> rfl
  | releaseAll => rfl
  | close => contradiction
  | reopen => contradiction

namespace Chip

variable {c d : Chip} {wait : KeyWait}

/-- The way back over a word ends where the fetch began, at the end of memory too. -/
theorem fetched_back (inside : c.registers.pc.toNat < 0x1000) :
    c.fetched.move (.jump (c.fetched.registers.pc - Opcode.bytes)) =
      { c with opcode := c.nextOpcode } := by
  -- Where the fetch has gone round the way back does too: words wrap at a multiple of 0x1000.
  have back : ((c.registers.pc + Opcode.bytes) % 0x1000 - Opcode.bytes) % 0x1000 =
      c.registers.pc := by
    apply UInt16.toNat_inj.mp
    simp only [Opcode.bytes, UInt16.toNat_mod, UInt16.toNat_sub, UInt16.toNat_add,
      UInt16.reduceToNat]
    omega
  simp [fetched, move, setPc, Registers.setPc, PcMove.apply, back]

theorem step_interrupted (inside : c.registers.pc.toNat < 0x1000)
    (interrupted : (c.step wait).result = .ok .interrupted) :
    (c.step wait).chip = { c with opcode := c.nextOpcode } := by
  rcases step_cases wait c with ⟨e, rule, run⟩ | ⟨h, _, run⟩ | run
  · rw [run] at interrupted ⊢
    have signal := Except.ok.inj interrupted
    rw [← fetched_back inside]
    generalize Instruction.decode c.nextOpcode = i at rule
    cases rule with
    | cancelled x closed => rfl
    | _ => contradiction
  · simp [run] at interrupted
  · simp [run] at interrupted

/-- A key wait that is called off ends its step as if it had not begun. -/
theorem step_of_cancelled (awaits : c.awaitsKey = true) (closed : wait.poll c.keypad = .cancelled) :
    (c.step wait).result = .ok .interrupted := by
  obtain ⟨x, word⟩ := awaitsKey_iff.mp awaits
  have named : x < 16 := by
    have all := Instruction.namesRegisters_decode c.nextOpcode
    rw [word] at all
    exact all x (by simp [Instruction.registers])
  have rule : Completes wait c.fetched (.awaitKey x) _ := .cancelled ⟨x, named⟩ closed
  have found := effect_of_completes rule
  simp only [step, execute, perform, word, found]

theorem poll_of_closed {p : Keypad} (closed : p.closed = true) : wait.poll p = .cancelled := by
  rw [KeyWait.poll, if_pos closed]

theorem step_closed (awaits : c.awaitsKey = true) (closed : c.keypad.closed = true) :
    (c.step wait).result = .ok .interrupted :=
  step_of_cancelled awaits (poll_of_closed closed)

/-- On a closed keypad a key wait is tried again and again, and leaves nothing behind but its word. -/
theorem waits_closed (inside : c.registers.pc.toNat < 0x1000) (awaits : c.awaitsKey = true)
    (closed : c.keypad.closed = true) (waits : List KeyWait) :
    (∀ t ∈ c.takenAll (waits.map .step), t.result = .ok .interrupted) ∧
      c.turnAll (waits.map .step) =
        { c with opcode := if waits = [] then c.opcode else c.nextOpcode } := by
  induction waits generalizing c with
  | nil => exact ⟨by simp [takenAll], rfl⟩
  | cons wait rest ih =>
    have first : (c.step wait).result = .ok .interrupted := step_closed awaits closed
    have still := step_interrupted inside first
    obtain ⟨later, final⟩ := @ih { c with opcode := c.nextOpcode } inside awaits closed
    rw [← still] at later final
    refine ⟨?_, ?_⟩
    · simp only [List.map_cons, takenAll, List.forall_mem_cons]
      exact ⟨first, later⟩
    · change (c.step wait).chip.turnAll (rest.map .step) = _
      rw [final, still]
      have word : nextOpcode { c with opcode := c.nextOpcode } = c.nextOpcode := rfl
      simp [word]

/-- The machine `c` of a session that was cut, and the machine `d` of one execution on an open
keypad. -/
structure Resumes (c d : Chip) : Prop where
  inside : c.inside = d.inside
  timers : c.timers = d.timers
  random : c.random = d.random
  keypad : c.keypad.reopen = d.keypad

theorem Resumes.opened (c : Chip) : Resumes c (c.after (.key .reopen)) := ⟨rfl, rfl, rfl, rfl⟩

/-- A step that is not to count leaves the machine as it was. -/
theorem Resumes.of_not_counts (h : Resumes c d) (inside : c.registers.pc.toNat < 0x1000)
    (idle : (c.taken wait).counts = false) : Resumes (c.step wait).chip d := by
  unfold taken Taken.counts at idle
  dsimp only at idle
  split at idle
  · next interrupted =>
    rw [step_interrupted inside interrupted]
    exact ⟨h.inside, h.timers, h.random, h.keypad⟩
  · next waiting =>
    rw [step_waiting waiting]
    exact h
  · contradiction

/-- A step that counts is told the same on both machines. -/
theorem Resumes.notice (h : Resumes c d) (counts : (c.taken wait).counts = true) :
    c.notice wait = d.notice wait := by
  have word := nextOpcode_same h.inside
  unfold Chip.notice
  rw [← word]
  cases found : Instruction.decode c.nextOpcode with
  | readDelay x => exact congrArg (fun t : Timers => Notice.delay t.delay) h.timers
  | random x nn => exact congrArg (fun r : RandomStream => Notice.byte r.byte) h.random
  | skip condition =>
    have key (x : Nat) : c.keypad.held.get (c.keyOf x) = d.keypad.held.get (d.keyOf x) := by
      have named : c.keyOf x = d.keyOf x := by
        obtain ⟨o, rfl⟩ := eq_beside h.inside
        rfl
      rw [named, ← h.keypad]
      rfl
    cases condition with
    | keyHeld x | keyUp x => exact congrArg Notice.held (key x)
    | _ => rfl
  | awaitKey x =>
    have awaits : c.awaitsKey = true := awaitsKey_iff.mpr ⟨x, found⟩
    have opened : c.keypad.closed = false := by
      rw [Bool.eq_false_iff]
      intro closed
      simp [taken, Taken.counts, step_closed awaits closed] at counts
    have same : d.keypad = c.keypad := by
      rw [← h.keypad, Keypad.reopen, ← opened]
    simp only [told, same]
  | _ => rfl

/-- A step that counts is the same step on both machines. -/
theorem Resumes.step (h : Resumes c d) (counts : (c.taken wait).counts = true) :
    Resumes (c.step wait).chip (d.step wait).chip ∧ d.taken wait = c.taken wait := by
  obtain ⟨result, echo⟩ := step_lockstep h.inside (h.notice counts)
  refine ⟨⟨echo.inside, echo.timers h.timers, echo.random h.random, ?_⟩, ?_⟩
  · rw [echo.keypad, echo.keypad', h.keypad]
  · rw [taken, taken, nextOpcode_same h.inside, result]

/-- Closing and opening the keypad is no part of the execution. -/
theorem Resumes.latch (h : Resumes c d) {event : KeyEvent} (latch : event = .close ∨ event = .reopen) :
    Resumes (c.after (.key event)) d := by
  refine ⟨h.inside, h.timers, h.random, ?_⟩
  rw [← h.keypad]
  obtain rfl | rfl := latch <;> rfl

theorem Resumes.after (h : Resumes c d) (stimulus : Stimulus) (close : stimulus ≠ .key .close)
    (reopen : stimulus ≠ .key .reopen) : Resumes (c.after stimulus) (d.after stimulus) := by
  cases stimulus with
  | tick => exact ⟨h.inside, congrArg Timers.tick h.timers, h.random, h.keypad⟩
  | setDelay b => exact ⟨h.inside, congrArg (Timers.setDelay · b) h.timers, h.random, h.keypad⟩
  | setSound b => exact ⟨h.inside, congrArg (Timers.setSound · b) h.timers, h.random, h.keypad⟩
  | key event =>
    refine ⟨h.inside, h.timers, h.random, ?_⟩
    change (c.keypad.after event).reopen = d.keypad.after event
    rw [← h.keypad]
    exact c.keypad.reopen_after (by simpa using close) (by simpa using reopen)

end Chip
end ChipEight
