import ChipEight.Proofs.Start
import ChipEight.Proofs.Turn

/-! Subroutines over whole runs. While a subroutine runs, whatever it does and whatever happens
beside it, the stack below it and its own way back stay as the call left them. It ends by a return
only, and goes on behind its call with the stack that the call found. -/
namespace ChipEight.Chip

/-- A subroutine that was called on the addresses `base` and returns to `back` is still running. -/
def Running (base : List UInt16) (back : UInt16) (c : Chip) : Prop :=
  back :: base <:+ c.stack.frames

variable {base : List UInt16} {back : UInt16} {c : Chip}

/-- The addresses below a running subroutine and its way back, oldest first. -/
theorem Running.toList (running : Running base back c) :
    c.stack.toList.take base.length = base.reverse ∧ c.stack.toList[base.length]? = some back := by
  obtain ⟨inner, frames⟩ := running
  simp [CallStack.toList, ← frames]

/-- A single step leaves a running subroutine running, unless it is the return that ends it. -/
theorem Running.step (running : Running base back c) (wait : KeyWait) :
    Running base back (c.step wait).chip ∨
    (c.nextOpcode = 0x00EE ∧ (∃ s, (c.step wait).result = .ok s) ∧
      (c.step wait).chip.stack.frames = base ∧
      (c.step wait).chip.registers.pc.toNat = back.toNat % 0x1000) := by
  rcases c.step_stack wait with same | ⟨a, _, _, pushed⟩ | ⟨a, s, word, done, popped, pc⟩
  · exact .inl (by unfold Running; rwa [same])
  · exact .inl (by unfold Running; exact pushed ▸ running.trans (List.suffix_cons _ _))
  · unfold Running at running ⊢
    rw [popped, List.suffix_cons_iff] at running
    rcases running with top | deeper
    · obtain ⟨rfl, rest⟩ := List.cons.inj top
      exact .inr ⟨word, ⟨s, done⟩, rest.symm, pc⟩
    · exact .inl deeper

theorem Running.turn (running : Running base back c) (t : Turn)
    (inside : base.length < (c.turn t).stack.depth) : Running base back (c.turn t) := by
  cases t with
  | step wait =>
    rcases running.step wait with going | ⟨_, _, ended, _⟩
    · exact going
    · simp only [Chip.turn, CallStack.depth, ended] at inside
      omega
  | outside stimulus =>
    unfold Running Chip.turn
    rwa [after_stack]

/-- A subroutine runs on as long as the stack stays higher than it was at the call. -/
theorem Running.turnAll (running : Running base back c) (turns : List Turn)
    (inside : ∀ k ≤ turns.length, base.length < (c.turnAll (turns.take k)).stack.depth) :
    Running base back (c.turnAll turns) := by
  induction turns generalizing c with
  | nil => exact running
  | cons t rest ih =>
    have next := inside 1 (by simp)
    apply ih (running.turn t next)
    intro k bound
    exact inside (k + 1) (by simpa using bound)

/-- A step that completes a call leaves the subroutine running, with the way back behind the call. -/
theorem running_of_call {wait : KeyWait} {called : Signal} (call : c.nextOpcode.family = 2)
    (done : (c.step wait).result = .ok called) :
    ∃ back : UInt16, back.toNat = (c.registers.pc.toNat + 2) % 0x1000 ∧
      Running c.stack.frames back (c.step wait).chip := by
  have decoded : Instruction.decode c.nextOpcode = .call c.nextOpcode.nnn := by
    simp [Instruction.decode, Instruction.decode?, call]
  rcases step_cases wait c with ⟨e, rule, run⟩ | ⟨h, _, run⟩ | run
  · rw [decoded] at rule
    rw [run]
    cases rule with
    | call nnn room => exact ⟨_, c.toNat_pc_fetched, List.suffix_refl _⟩
  · simp [run] at done
  · simp [run] at done

/-- Subroutine integrity: from a completed call on, as long as the stack stays higher than before
it, the addresses below are those from before the call and the next one leads behind it. The step
after which the stack is as high as before is a return; it leaves the stack of before the call and
goes on behind it. -/
theorem subroutine_returns {c : Chip} {wait : KeyWait} {called : Signal}
    (call : c.nextOpcode.family = 2) (done : (c.step wait).result = .ok called)
    (turns : List Turn)
    (inside : ∀ k ≤ turns.length,
      c.stack.depth < ((c.step wait).chip.turnAll (turns.take k)).stack.depth) :
    let now := (c.step wait).chip.turnAll turns
    let behind := (c.registers.pc.toNat + 2) % 0x1000
    now.stack.toList.take c.stack.depth = c.stack.toList ∧
    now.stack.toList[c.stack.depth]?.map UInt16.toNat = some behind ∧
    ∀ last, (now.step last).chip.stack.depth = c.stack.depth →
      now.nextOpcode = 0x00EE ∧ (∃ s, (now.step last).result = .ok s) ∧
      (now.step last).chip.stack = c.stack ∧
      (now.step last).chip.registers.pc.toNat = behind := by
  intro now behind
  obtain ⟨back, backEq, entered⟩ := running_of_call call done
  have running : Running c.stack.frames back now := entered.turnAll turns inside
  obtain ⟨below, own⟩ := running.toList
  refine ⟨below, by rw [CallStack.depth, own]; exact congrArg some backEq, ?_⟩
  intro last level
  rcases running.step last with going | ⟨word, ok, ended, pc⟩
  · have higher := going.length_le
    simp only [List.length_cons, CallStack.depth] at higher level
    omega
  · refine ⟨word, ok, CallStack.ext ended, ?_⟩
    have bound : behind < 0x1000 := Nat.mod_lt _ (by decide)
    rw [pc, backEq, Nat.mod_eq_of_lt bound]

/-- A machine at `0x204` inside a subroutine, about to call a second one that calls a third. -/
def nested : Chip :=
  ((boot ⟨"NESTED", [0x22, 0x04, 0x00, 0x00, 0x22, 0x08, 0x00, 0xEE, 0x22, 0x0C, 0x00, 0xEE,
    0x00, 0xEE]⟩ .standard (.cycle [])).step ⟨0⟩).chip

theorem nested_returns :
    let wait : KeyWait := ⟨0⟩
    let turns : List Turn := [.step wait, .outside .tick, .step wait]
    let now := (nested.step wait).chip.turnAll turns
    (nested.nextOpcode.family = 2 ∧ (nested.step wait).result = .ok .quiet ∧
      (∀ k ≤ turns.length,
        nested.stack.depth < ((nested.step wait).chip.turnAll (turns.take k)).stack.depth) ∧
      (now.step wait).chip.stack.depth = nested.stack.depth) ∧
    now.stack.toList.take 1 = [0x202] ∧ now.nextOpcode = 0x00EE ∧
    (now.step wait).chip.stack = nested.stack ∧
    (now.step wait).chip.registers.pc.toNat = 0x206 := by
  intro wait turns now
  obtain ⟨call, answer, inside, level, height, stack, pc⟩ :
      nested.nextOpcode.family = 2 ∧ (nested.step wait).result.toOption = some .quiet ∧
      (∀ k ≤ turns.length,
        nested.stack.depth < ((nested.step wait).chip.turnAll (turns.take k)).stack.depth) ∧
      (now.step wait).chip.stack.depth = nested.stack.depth ∧
      nested.stack.depth = 1 ∧ nested.stack.toList = [0x202] ∧ nested.registers.pc = 0x204 := by
    decide +kernel
  have done : (nested.step wait).result = .ok .quiet := by
    cases result : (nested.step wait).result with
    | ok s => simpa [result, Except.toOption] using answer
    | error h => simp [result, Except.toOption] at answer
  obtain ⟨below, _, ended⟩ := subroutine_returns call done turns inside
  obtain ⟨word, _, restored, behind⟩ := ended wait level
  rw [height, stack] at below
  rw [pc] at behind
  exact ⟨⟨call, done, inside, level⟩, below, word, restored, behind⟩

end ChipEight.Chip
