import ChipEight.Proofs.Procedure
import ChipEight.Proofs.Start

/-! Registers that do not exist. An instruction may name one and still be fine, if it does not use it; one
that uses it is a violation, which names the first such register. Nothing has been written by then, access by
access, but for the random byte that is drawn before its register is looked at. -/
namespace ChipEight

/-- The registers that an instruction uses under the rules of a dialect, in the order in which it looks
at them. -/
def Instruction.uses (dialect : Dialect) : Instruction → List Nat
  | .jumpOffset _ x => if dialect.jumpAddsVx then [x] else []
  | i => i.registers

/-- The first register that the instruction uses and the machine does not have. -/
def Instruction.missing? (dialect : Dialect) (i : Instruction) : Option Nat :=
  (i.uses dialect).find? (16 ≤ ·)

namespace Instruction

variable {dialect : Dialect} {i : Instruction} {x y z : Nat}

theorem uses_subset (dialect : Dialect) (i : Instruction) : i.uses dialect ⊆ i.registers := by
  cases i with
  | jumpOffset nnn x =>
    change (if dialect.jumpAddsVx then [x] else []) ⊆ [x]
    split <;> simp
  | _ => exact List.Subset.refl _

theorem missing?_eq_none_iff : i.missing? dialect = none ↔ ∀ x ∈ i.uses dialect, x < 16 := by
  simp [missing?, List.find?_eq_none]

theorem find?_one (found : [x].find? (16 ≤ ·) = some z) : 16 ≤ x ∧ z = x := by
  rw [List.find?_singleton] at found
  split at found
  · next beyond => exact ⟨of_decide_eq_true beyond, (Option.some.inj found).symm⟩
  · contradiction

theorem find?_two (found : [x, y].find? (16 ≤ ·) = some z) :
    16 ≤ x ∧ z = x ∨ x < 16 ∧ 16 ≤ y ∧ z = y := by
  by_cases beyond : 16 ≤ x
  · rw [List.find?_cons_of_pos (by simpa using beyond)] at found
    exact .inl ⟨beyond, (Option.some.inj found).symm⟩
  · rw [List.find?_cons_of_neg (by simpa using beyond)] at found
    exact .inr ⟨Nat.lt_of_not_le beyond, find?_one found⟩

theorem missing?_jumpOffset {nnn : UInt16} (found : (jumpOffset nnn x).missing? dialect = some z) :
    dialect.jumpAddsVx = true ∧ 16 ≤ x ∧ z = x := by
  change (if dialect.jumpAddsVx then [x] else []).find? (16 ≤ ·) = some z at found
  split at found
  · next used => exact ⟨used, find?_one found⟩
  · contradiction

end Instruction

namespace Chip

variable {wait : KeyWait} {c : Chip} {i : Instruction} {x y z : Nat}

theorem holds_missing (c : Chip) {condition : Condition}
    (found : condition.registers.find? (16 ≤ ·) = some z) :
    c.holds condition = .error (.violation (.noRegister z)) := by
  cases condition with
  | equal x nn | notEqual x nn | keyHeld x | keyUp x =>
    obtain ⟨beyond, rfl⟩ := Instruction.find?_one found
    rw [holds, register_of_le beyond]
    rfl
  | sameRegister x y | otherRegister x y =>
    obtain ⟨beyond, rfl⟩ | ⟨hx, beyond, rfl⟩ := Instruction.find?_two found
    · rw [holds, register_of_le beyond]
      rfl
    · rw [holds, register_of_lt hx, register_of_le beyond]
      rfl

/-- An instruction that uses a register that does not exist is a violation, by the first such register. -/
theorem effect_of_missing (found : i.missing? c.dialect = some z) :
    c.effect wait i = .error (.violation (.noRegister z)) := by
  cases i with
  | clear | ret | jump | call | setIndex | unknown => contradiction
  | skip condition =>
    rw [effect, holds_missing c found]
    rfl
  | jumpOffset nnn x =>
    obtain ⟨used, beyond, rfl⟩ := Instruction.missing?_jumpOffset found
    rw [effect, if_pos used, register_of_le beyond]
    rfl
  | alu op x y | draw x y n =>
    obtain ⟨beyond, rfl⟩ | ⟨hx, beyond, rfl⟩ := Instruction.find?_two found
    · rw [effect, register_of_le beyond]
      rfl
    · rw [effect, register_of_lt hx, register_of_le beyond]
      rfl
  | _ x =>
    obtain ⟨beyond, rfl⟩ := Instruction.find?_one found
    rw [effect, register_of_le beyond]
    rfl

/-- An instruction all of whose registers exist has a rule, also if it names one that it does not use. -/
theorem completes_or_fails_of_uses (wait : KeyWait) (c : Chip)
    (exist : ∀ x ∈ i.uses c.dialect, x < 16) :
    (∃ e, Completes wait c i e) ∨ ∃ h, Fails wait c i h := by
  cases i with
  | jumpOffset nnn x =>
    by_cases rule : c.dialect.jumpAddsVx
    · have named : (Instruction.jumpOffset nnn x).NamesRegisters := by
        simpa [Instruction.uses, rule, Instruction.NamesRegisters, Instruction.registers] using exist
      exact completes_or_fails wait c named
    · have chosen : (0 : Register).val = if c.dialect.jumpAddsVx then x else 0 := (if_neg rule).symm
      exact .inl ⟨_, .jumpOffset nnn chosen⟩
  | _ => exact completes_or_fails wait c exist

end Chip

namespace Procedure

variable {wait : KeyWait} {c : Chip} {i : Instruction} {x y z : Nat}

/-- What a procedure stops with at register `x`. -/
def missing (x : Nat) : Stop := .breach (.violation (.noRegister x))

theorem value_missing (c : Chip) (beyond : 16 ≤ x) : (value x).run c = .error (missing x) c :=
  run_access_error (by rw [Guard.register_of_le beyond]; rfl)

theorem setValue_missing (c : Chip) (b : UInt8) (beyond : 16 ≤ x) :
    (setValue x b).run c = .error (missing x) c := by
  rw [setValue]
  exact run_bind_error (run_access_error (Guard.register_of_le beyond)) _

theorem holds_missing (c : Chip) {condition : Condition}
    (found : condition.registers.find? (16 ≤ ·) = some z) :
    (holds condition).run c = .error (missing z) c := by
  cases condition with
  | equal x nn | notEqual x nn | keyHeld x | keyUp x =>
    obtain ⟨beyond, rfl⟩ := Instruction.find?_one found
    exact run_bind_error (value_missing c beyond) _
  | sameRegister x y | otherRegister x y =>
    obtain ⟨beyond, rfl⟩ | ⟨hx, beyond, rfl⟩ := Instruction.find?_two found
    · exact run_bind_error (value_missing c beyond) _
    · rw [holds, run_bind (run_value ⟨x, hx⟩ c)]
      exact run_bind_error (value_missing c beyond) _

/-- Access by access too, a violation leaves the machine as it was, but for the random byte. -/
theorem perform_of_missing (found : i.missing? c.dialect = some z) :
    (perform wait i).run c = .error (missing z) (c.afterHalt i) := by
  cases i with
  | clear | ret | jump | call | setIndex | unknown => contradiction
  | skip condition => exact run_bind_error (holds_missing c found) _
  | load x nn =>
    obtain ⟨beyond, rfl⟩ := Instruction.find?_one found
    exact run_bind_error (setValue_missing c nn beyond) _
  | random x nn =>
    obtain ⟨beyond, rfl⟩ := Instruction.find?_one found
    exact run_bind_error (setValue_missing { c with random := c.random.next } _ beyond) _
  | jumpOffset nnn x =>
    obtain ⟨used, beyond, rfl⟩ := Instruction.missing?_jumpOffset found
    rw [perform, run_bind (EStateM.run_get c), if_pos used]
    exact run_bind_error (value_missing c beyond) _
  | alu op x y =>
    obtain ⟨beyond, rfl⟩ | ⟨hx, beyond, rfl⟩ := Instruction.find?_two found
    · exact run_bind_error (value_missing c beyond) _
    · rw [perform, run_bind (run_value ⟨x, hx⟩ c)]
      exact run_bind_error (value_missing c beyond) _
  | draw x y n =>
    -- The sprite is read before the registers are looked at.
    rw [perform, run_bind (run_index c), run_bind (run_readRange c _ _)]
    obtain ⟨beyond, rfl⟩ | ⟨hx, beyond, rfl⟩ := Instruction.find?_two found
    · exact run_bind_error (value_missing c beyond) _
    · rw [run_bind (run_value ⟨x, hx⟩ c)]
      exact run_bind_error (value_missing c beyond) _
  | _ x =>
    obtain ⟨beyond, rfl⟩ := Instruction.find?_one found
    exact run_bind_error (value_missing c beyond) _

theorem perform_of_fails {h : Halt} (rule : Chip.Fails wait c i h) :
    (perform wait i).run c = .error (.ofHalt h) c := by
  cases rule with
  | overflow nnn full =>
    have stopped : (push c.registers.pc).run c = .error (.stack .overflow) c := by
      rw [push, run_bind (EStateM.run_get c), CallStack.push_of_full full]
      rfl
    exact run_bind_error stopped _
  | underflow empty =>
    have stopped : pop.run c = .error (.stack .underflow) c := by
      rw [pop, run_bind (EStateM.run_get c), CallStack.pop_of_empty empty]
      rfl
    exact run_bind_error stopped _
  | waiting x pending =>
    rw [perform, run_bind (run_value x c), run_bind (EStateM.run_get c), pending]
    rfl

/-- Every instruction comes to the same as a whole and access by access, whatever it names. -/
theorem execute_eq (wait : KeyWait) (c : Chip) (i : Instruction) :
    (execute wait i).run c = (c.execute wait i).asResult := by
  cases found : i.missing? c.dialect with
  | some z =>
    rw [execute, run_bind_error (perform_of_missing found),
      Chip.execute_of_error (Chip.effect_of_missing found)]
    rfl
  | none =>
    obtain ⟨e, rule⟩ | ⟨h, rule⟩ :=
      Chip.completes_or_fails_of_uses wait c (Instruction.missing?_eq_none_iff.mp found)
    · rw [execute, run_bind (perform_of_completes rule), Chip.execute_of_completes rule]
      rfl
    · rw [execute, run_bind_error (perform_of_fails rule),
        Chip.execute_of_error (Chip.effect_of_fails rule)]
      cases rule <;> rfl

end Procedure

namespace Chip

variable {c : Chip} {i : Instruction}

/-- What an instruction is refused for, if it is: the first register that it uses and that is missing. -/
theorem execute_violation_iff (wait : KeyWait) {v : Violation} :
    (c.execute wait i).result = .error (.violation v) ↔
      ∃ x, i.missing? c.dialect = some x ∧ v = .noRegister x := by
  rw [execute_error_iff]
  constructor
  · intro refused
    cases found : i.missing? c.dialect with
    | some x =>
      rw [effect_of_missing found] at refused
      cases refused
      exact ⟨x, rfl, rfl⟩
    | none =>
      obtain ⟨e, rule⟩ | ⟨h, rule⟩ :=
        completes_or_fails_of_uses wait c (Instruction.missing?_eq_none_iff.mp found)
      · rw [effect_of_completes rule] at refused
        contradiction
      · rw [effect_of_fails rule] at refused
        cases refused
        cases rule
  · rintro ⟨x, found, rfl⟩
    exact effect_of_missing found

/-- An instruction is a violation exactly if it uses a register that does not exist, and it names the first
one that is used. Then the machine is as it was, except that a random byte has been drawn if one was asked for,
although what the instruction looks at and writes is looked at and written one after the other. A word is never
a violation. -/
theorem violation_exact_and_atomic (wait : KeyWait) (c : Chip) (i : Instruction) :
    ((∃ v, (c.execute wait i).result = .error (.violation v)) ↔ ∃ x ∈ i.uses c.dialect, 16 ≤ x) ∧
    (∀ v, (c.execute wait i).result = .error (.violation v) →
      (∃ x, (i.uses c.dialect).find? (16 ≤ ·) = some x ∧ v = .noRegister x) ∧
      (c.execute wait i).chip = match i with
        | .random .. => { c with random := { c.random with drawn := c.random.drawn + 1 } }
        | _ => c) ∧
    (Procedure.execute wait i).run c = (c.execute wait i).asResult ∧
    ∀ w v, (c.execute wait (.decode w)).result ≠ .error (.violation v) := by
  refine ⟨?_, ?_, Procedure.execute_eq wait c i, ?_⟩
  · simp only [execute_violation_iff]
    constructor
    · rintro ⟨v, x, found, -⟩
      exact ⟨x, List.mem_of_find?_eq_some found, by simpa using List.find?_some found⟩
    · rintro ⟨x, used, beyond⟩
      have refused : (i.missing? c.dialect).isSome :=
        List.find?_isSome.mpr ⟨x, used, decide_eq_true beyond⟩
      obtain ⟨y, found⟩ := Option.isSome_iff_exists.mp refused
      exact ⟨_, y, found, rfl⟩
  · intro v refused
    obtain ⟨x, found, rfl⟩ := (execute_violation_iff wait).mp refused
    refine ⟨⟨x, found, rfl⟩, ?_⟩
    rw [execute_of_error (effect_of_missing found)]
    cases i <;> rfl
  · intro w v refused
    obtain ⟨x, found, -⟩ := (execute_violation_iff wait).mp refused
    have named : x ∈ (Instruction.decode w).registers :=
      Instruction.uses_subset _ _ (List.mem_of_find?_eq_some found)
    have exists_register : x < 16 := Instruction.namesRegisters_decode w x named
    have beyond : 16 ≤ x := by simpa using List.find?_some found
    omega

/-- The first of two missing registers is named, and the byte for a missing register is drawn. -/
theorem missing_registers_are_named :
    let c := boot ⟨"MISSING", [0x12, 0x00]⟩ .standard (.cycle [7])
    let draw : Instruction := .draw 99 16 5
    let random : Instruction := .random 20 0xFF
    ((c.execute ⟨0⟩ draw).result = .error (.violation (.noRegister 99)) ∧
      (c.execute ⟨0⟩ random).result = .error (.violation (.noRegister 20))) ∧
    (c.execute ⟨0⟩ draw).chip = c ∧
    (c.execute ⟨0⟩ random).chip =
      { c with random := { c.random with drawn := c.random.drawn + 1 } } := by
  intro c draw random
  have drawn : (c.execute ⟨0⟩ draw).result = .error (.violation (.noRegister 99)) := rfl
  have asked : (c.execute ⟨0⟩ random).result = .error (.violation (.noRegister 20)) := rfl
  exact ⟨⟨drawn, asked⟩, ((violation_exact_and_atomic ⟨0⟩ c draw).2.1 _ drawn).2,
    ((violation_exact_and_atomic ⟨0⟩ c random).2.1 _ asked).2⟩

end Chip
end ChipEight
