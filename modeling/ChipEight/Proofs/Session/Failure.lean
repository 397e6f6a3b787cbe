import ChipEight.Proofs.Safety
import ChipEight.Proofs.Session.Teardown

/-! Steps that fail. On a machine that can be reached, and whatever word its program counter is at, a
step fails for the stack or not at all, and then it has fetched its word and done nothing else. A run
that takes such a step takes no further one and returns the fault. -/
namespace ChipEight

open Session

theorem Session.run_of_failed {s : Session} {wait : KeyWait} {fault : StackFault} {ms : List Move}
    (next : s.wait? = some wait) (failed : (s.chip.step wait).result = .error (.stack fault))
    (one : .begin ∉ ms) :
    (s.move .proceed).takenAll ms = [] ∧
    (∀ last, ((s.move .proceed).moves ms).phase = .idle last →
      last = some (.failed (.stack fault))) ∧
    (4 ≤ ms.count .proceed →
      ((s.move .proceed).moves ms).phase = .idle (some (.failed (.stack fault)))) := by
  have stopping : (s.move .proceed).phase = .stopping (.failed (.stack fault)) := by
    obtain ⟨steps, run⟩ := s.proceeds.eq_of_wait next
    rw [move, run, failed]
    rfl
  have later := moves_teardown (n := 0) stopping one
  rw [Nat.zero_add] at later
  refine ⟨(leaving_of_stopping stopping).takenAll one, ?_, ?_⟩
  · intro last rests
    rw [later] at rests
    exact (Phase.idle_eq_teardown rests.symm).2
  · intro enough
    obtain ⟨k, actions⟩ := Nat.exists_eq_add_of_le' enough
    rw [later, actions]
    rfl

namespace Chip

/-- The failure law. A step fails exactly for a call on sixteen return addresses and for a return on none;
an error that is neither is that of a key wait that is not over, and then nothing has happened yet. A step
that fails changes the latest word and the program counter and nothing else, and a run that takes it takes
no more steps and returns the fault once its teardown is done. -/
theorem step_failure {rom : Rom} {config : Config} {random : RandomStream} {start : Chip}
    (started : Chip.start rom config random = .ok start) (ops : List Operation) (memory : Memory)
    (wait : KeyWait) :
    let c : Chip := { start.actAll ops with memory }
    ((c.step wait).result = .error (.stack .overflow) ↔
      c.nextOpcode.family = 2 ∧ c.stack.depth = 16) ∧
    ((c.step wait).result = .error (.stack .underflow) ↔
      c.nextOpcode = 0x00EE ∧ c.stack.depth = 0) ∧
    (∀ h, (c.step wait).result = .error h → (∃ fault, h = .stack fault) ∨
      h = .waiting ∧ c.awaitsKey = true ∧ (c.step wait).chip = c) ∧
    ∀ fault, (c.step wait).result = .error (.stack fault) →
      (∃ behind : UInt16, behind.toNat = (c.registers.pc.toNat + 2) % 0x1000 ∧
        (c.step wait).chip = { c with
          opcode := c.nextOpcode
          registers := { c.registers with pc := behind } }) ∧
      ∀ (s : Session) (ms : List Move), s.chip = c → s.wait? = some wait → .begin ∉ ms →
        (s.move .proceed).takenAll ms = [] ∧
        (∀ last, ((s.move .proceed).moves ms).phase = .idle last →
          last = some (.failed (.stack fault))) ∧
        (4 ≤ ms.count .proceed →
          ((s.move .proceed).moves ms).phase = .idle (some (.failed (.stack fault)))) := by
  intro c
  have depth : c.stack.depth ≤ 16 := by
    obtain ⟨-, -, rfl⟩ := start_eq_ok_iff.mp started
    exact ((inOrder_boot rom config random).actAll ops).depth
  refine ⟨?_, step_underflow_iff, ?_, ?_⟩
  · have full : CallStack.capacity ≤ c.stack.depth ↔ c.stack.depth = 16 := by
      rw [show CallStack.capacity = 16 from rfl]
      omega
    rw [step_overflow_iff, full]
  · intro h fails
    rcases step_error_cases fails with ⟨rfl, -⟩ | ⟨rfl, -⟩ | ⟨rfl, x, awaits⟩
    · exact .inl ⟨_, rfl⟩
    · exact .inl ⟨_, rfl⟩
    · exact .inr ⟨rfl, awaitsKey_iff.mpr ⟨x, awaits⟩, step_waiting fails⟩
  · intro fault fails
    constructor
    · rw [step_of_stack fails]
      exact c.fetched_eq
    · intro s ms here next one
      rw [← here] at fails
      exact run_of_failed next fails one

/-- A program that calls itself, and the machine after sixteen calls. -/
theorem seventeenth_call_fails :
    let rom : Rom := ⟨"DEEP", [0x22, 0x00]⟩
    let start := boot rom .standard (.cycle [])
    let c := start.actAll (.replicate 16 (.turn (.step ⟨0⟩)))
    let s := (around c).moves [.begin, .proceed]
    Chip.start rom .standard (.cycle []) = .ok start ∧
    (c.step ⟨0⟩).result = .error (.stack .overflow) ∧ c.stack.depth = 16 ∧
    (∃ behind : UInt16, behind.toNat = 0x202 ∧ (c.step ⟨0⟩).chip = { c with
      opcode := 0x2200
      registers := { c.registers with pc := behind } }) ∧
    (s.moves (.replicate 5 .proceed)).phase = .idle (some (.failed (.stack .overflow))) := by
  intro rom start c s
  have started : Chip.start rom .standard (.cycle []) = .ok start :=
    start_eq_ok_iff.mpr ⟨by decide, by decide, rfl⟩
  obtain ⟨word, pc, depth, next⟩ :
      c.nextOpcode = 0x2200 ∧ c.registers.pc.toNat = 0x200 ∧ c.stack.depth = 16 ∧
      s.wait? = some ⟨0⟩ := by
    decide +kernel
  obtain ⟨overflow, -, -, atomic⟩ := step_failure started
    (.replicate 16 (.turn (.step ⟨0⟩))) c.memory ⟨0⟩
  have failed : (c.step ⟨0⟩).result = .error (.stack .overflow) :=
    overflow.mpr ⟨(congrArg Opcode.family word).trans (by decide), depth⟩
  obtain ⟨⟨behind, at_behind, only⟩, run⟩ := atomic _ failed
  obtain ⟨-, -, returned⟩ := run s (.replicate 4 .proceed) rfl next (by decide)
  refine ⟨started, failed, depth, ⟨behind, ?_, ?_⟩, returned (by decide)⟩
  · exact at_behind.trans (by rw [show _ = c.registers.pc from rfl, pc])
  · rw [← word]
    exact only

end Chip
end ChipEight
