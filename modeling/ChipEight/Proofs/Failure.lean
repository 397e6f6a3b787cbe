import ChipEight.Proofs.Turn

/-! Why an instruction does not complete. An instruction whose registers exist completes by a rule or
fails by one, and there are three rules for failing: a call on a full stack, a return on an empty one,
and a key wait that is not over. A step that fails has fetched its word and done nothing else. -/
namespace ChipEight.Chip

theorem register_of_lt {x : Nat} (h : x < 16) : register x = .ok ⟨x, h⟩ :=
  register_eq_ok.mpr rfl

theorem register_of_le {x : Nat} (h : 16 ≤ x) :
    register x = .error (.violation (.noRegister x)) := by
  rw [register, Register.ofNat_of_le h]
  rfl

theorem keyHeld_eq_ok (c : Chip) (x : Register) : ∃ held, c.keyHeld x = .ok held := by
  have nibble : (c.v x).toNat % 16 < 16 := Nat.mod_lt _ (by decide)
  rw [keyHeld, Keypad.isPressed, dif_pos nibble]
  exact ⟨_, rfl⟩

theorem holds_eq_ok (c : Chip) {condition : Condition}
    (named : (Instruction.skip condition).NamesRegisters) : ∃ told, c.holds condition = .ok told := by
  cases condition with
  | equal x nn | notEqual x nn =>
    have hx : x < 16 := named x (by simp [Instruction.registers, Condition.registers])
    rw [holds, register_of_lt hx]
    exact ⟨_, rfl⟩
  | sameRegister x y | otherRegister x y =>
    have hx : x < 16 := named x (by simp [Instruction.registers, Condition.registers])
    have hy : y < 16 := named y (by simp [Instruction.registers, Condition.registers])
    rw [holds, register_of_lt hx, register_of_lt hy]
    exact ⟨_, rfl⟩
  | keyHeld x | keyUp x =>
    have hx : x < 16 := named x (by simp [Instruction.registers, Condition.registers])
    obtain ⟨held, pressed⟩ := c.keyHeld_eq_ok ⟨x, hx⟩
    rw [holds, register_of_lt hx, ok_bind, pressed]
    exact ⟨_, rfl⟩

/-- The instructions that do not complete, each with the reason. -/
inductive Fails (wait : KeyWait) (c : Chip) : Instruction → Halt → Prop where
  | overflow (nnn : UInt16) (full : CallStack.capacity ≤ c.stack.depth) :
      Fails wait c (.call nnn) (.stack .overflow)
  | underflow (empty : c.stack.frames = []) : Fails wait c .ret (.stack .underflow)
  | waiting (x : Register) (pending : wait.poll c.keypad = .pending) :
      Fails wait c (.awaitKey x) .waiting

variable {wait : KeyWait} {c : Chip} {i : Instruction} {h : Halt}

theorem effect_of_fails (rule : Fails wait c i h) : c.effect wait i = .error h := by
  cases rule with
  | overflow nnn full =>
    rw [effect, CallStack.push_of_full full]
    rfl
  | underflow empty =>
    rw [effect, CallStack.pop_of_empty empty]
    rfl
  | waiting x pending =>
    rw [effect, register_of_lt x.isLt, ok_bind, pending]
    rfl

/-- An instruction whose registers exist has a rule. -/
theorem completes_or_fails (wait : KeyWait) (c : Chip) (named : i.NamesRegisters) :
    (∃ e, Completes wait c i e) ∨ ∃ h, Fails wait c i h := by
  have exists_register : ∀ x ∈ i.registers, ∃ r : Register, r.val = x :=
    fun x member => ⟨⟨x, named x member⟩, rfl⟩
  cases i with
  | clear => exact .inl ⟨_, .clear⟩
  | jump nnn => exact .inl ⟨_, .jump nnn⟩
  | setIndex nnn => exact .inl ⟨_, .setIndex nnn⟩
  | unknown w => exact .inl ⟨_, .unknown w⟩
  | ret =>
    cases frames : c.stack.frames with
    | nil => exact .inr ⟨_, .underflow frames⟩
    | cons a rest =>
      have bounded : (a :: rest).length ≤ CallStack.capacity := frames ▸ c.stack.bounded
      have top : c.stack.frames = a :: (CallStack.mk rest (Nat.le_of_succ_le bounded)).frames := frames
      exact .inl ⟨_, .ret top⟩
  | call nnn =>
    by_cases room : c.stack.depth < CallStack.capacity
    · exact .inl ⟨_, .call nnn room⟩
    · exact .inr ⟨_, .overflow nnn (Nat.le_of_not_lt room)⟩
  | skip condition =>
    obtain ⟨told, holds⟩ := c.holds_eq_ok named
    exact .inl ⟨_, .skip holds⟩
  | jumpOffset nnn x =>
    obtain ⟨r, chosen⟩ : ∃ r : Register, r.val = if c.dialect.jumpAddsVx then x else 0 := by
      split
      · exact exists_register x (by simp [Instruction.registers])
      · exact ⟨0, rfl⟩
    exact .inl ⟨_, .jumpOffset nnn chosen⟩
  | awaitKey x =>
    obtain ⟨x, rfl⟩ := exists_register x (by simp [Instruction.registers])
    cases reply : wait.poll c.keypad with
    | key k => exact .inl ⟨_, .key x reply⟩
    | cancelled => exact .inl ⟨_, .cancelled x reply⟩
    | pending => exact .inr ⟨_, .waiting x reply⟩
  | alu op x y =>
    obtain ⟨x, rfl⟩ := exists_register x (by simp [Instruction.registers])
    obtain ⟨y, rfl⟩ := exists_register y (by simp [Instruction.registers])
    exact .inl ⟨_, .alu op x y⟩
  | draw x y n =>
    obtain ⟨x, rfl⟩ := exists_register x (by simp [Instruction.registers])
    obtain ⟨y, rfl⟩ := exists_register y (by simp [Instruction.registers])
    exact .inl ⟨_, .draw x y n⟩
  | _ x =>
    obtain ⟨x, rfl⟩ := exists_register x (by simp [Instruction.registers])
    exact .inl ⟨_, by constructor⟩

theorem effect_eq_error_iff (named : i.NamesRegisters) :
    c.effect wait i = .error h ↔ Fails wait c i h := by
  constructor
  · intro fails
    obtain ⟨e, rule⟩ | ⟨reason, rule⟩ := completes_or_fails wait c named
    · rw [effect_of_completes rule] at fails
      contradiction
    · rw [effect_of_fails rule] at fails
      cases fails
      exact rule
  · exact effect_of_fails

/-- An instruction that names registers that exist may find the stack full or empty or have to wait,
and fails in no other way. -/
theorem effect_ne_violation (wait : KeyWait) (c : Chip) (named : i.NamesRegisters) (v : Violation) :
    c.effect wait i ≠ .error (.violation v) := by
  intro fails
  cases (effect_eq_error_iff named).mp fails

/-- A step fails exactly if its instruction does, once the word is fetched. -/
theorem step_eq_error_iff :
    (c.step wait).result = .error h ↔ Fails wait c.fetched (.decode c.nextOpcode) h := by
  have named := Instruction.namesRegisters_decode c.nextOpcode
  rw [← effect_eq_error_iff named]
  rcases execute_cases wait (.decode c.nextOpcode) c.fetched with ⟨e, rule, run⟩ | ⟨r, found, run⟩
  · rw [step, run, effect_of_completes rule]
    constructor <;> intro fails <;> contradiction
  · rw [step, run, found]
    cases r <;> simp

/-- The three ways in which a step fails to complete. -/
theorem step_error_cases (fails : (c.step wait).result = .error h) :
    (h = .stack .overflow ∧ CallStack.capacity ≤ c.stack.depth ∧
      ∃ nnn, Instruction.decode c.nextOpcode = .call nnn) ∨
    (h = .stack .underflow ∧ c.stack.frames = [] ∧ Instruction.decode c.nextOpcode = .ret) ∨
    (h = .waiting ∧ ∃ x, Instruction.decode c.nextOpcode = .awaitKey x) := by
  have rule := step_eq_error_iff.mp fails
  generalize Instruction.decode c.nextOpcode = i at rule
  cases rule with
  | overflow nnn full => exact .inl ⟨rfl, full, nnn, rfl⟩
  | underflow empty => exact .inr (.inl ⟨rfl, empty, rfl⟩)
  | waiting x => exact .inr (.inr ⟨rfl, x, rfl⟩)

theorem step_overflow_iff : (c.step wait).result = .error (.stack .overflow) ↔
    c.nextOpcode.family = 2 ∧ CallStack.capacity ≤ c.stack.depth := by
  constructor
  · intro fails
    obtain ⟨-, full, nnn, call⟩ | ⟨fault, -⟩ | ⟨halt, -⟩ := step_error_cases fails
    · have fits := Instruction.fits_decode c.nextOpcode
      rw [call] at fits
      exact ⟨fits.1, full⟩
    · cases fault
    · cases halt
  · rintro ⟨family, full⟩
    rw [step_eq_error_iff, Instruction.decode_of_call family]
    exact .overflow _ full

theorem step_underflow_iff : (c.step wait).result = .error (.stack .underflow) ↔
    c.nextOpcode = 0x00EE ∧ c.stack.depth = 0 := by
  constructor
  · intro fails
    obtain ⟨fault, -⟩ | ⟨-, empty, ret⟩ | ⟨halt, -⟩ := step_error_cases fails
    · cases fault
    · have fits := Instruction.fits_decode c.nextOpcode
      rw [ret] at fits
      exact ⟨fits, List.length_eq_zero_iff.mpr empty⟩
    · cases halt
  · rintro ⟨word, empty⟩
    rw [step_eq_error_iff, word]
    exact .underflow (List.length_eq_zero_iff.mp empty)

theorem step_waiting_iff : (c.step wait).result = .error .waiting ↔
    c.nextOpcode.IsMisc 0x0A ∧ wait.poll c.keypad = .pending := by
  rw [step_eq_error_iff]
  constructor
  · intro rule
    have fits := Instruction.fits_decode c.nextOpcode
    generalize Instruction.decode c.nextOpcode = i at rule fits
    cases rule with
    | waiting x pending => exact ⟨fits.1, pending⟩
  · rintro ⟨misc, pending⟩
    rw [Instruction.decode_of_misc misc]
    exact .waiting ⟨_, c.nextOpcode.x_lt⟩ pending

/-- A step that the stack does not allow has fetched its word, and no more. -/
theorem step_of_stack {fault : StackFault} (failed : (c.step wait).result = .error (.stack fault)) :
    (c.step wait).chip = c.fetched := by
  rcases step_cases wait c with ⟨e, done, run⟩ | ⟨r, _, run⟩ | run
  · simp [run] at failed
  · rw [run]
    obtain ⟨-, -, nnn, call⟩ | ⟨-, -, ret⟩ | ⟨halt, -⟩ := step_error_cases failed
    · rw [call]
      rfl
    · rw [ret]
      rfl
    · cases halt
  · simp [run] at failed

end ChipEight.Chip
