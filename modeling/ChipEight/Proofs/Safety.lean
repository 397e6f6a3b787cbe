import ChipEight.Proofs.Guard.Machine
import ChipEight.Proofs.Start

/-! Machines stay in order. The program counter and all return addresses lie inside memory and the
stack is within its room, whatever is done to a machine and in whatever order.
Together with the guarded machine this leaves a run nothing that it could trip over. -/
namespace ChipEight.Chip

/-- The program counter and the return addresses lie inside memory, and the stack inside its room. -/
structure InOrder (c : Chip) : Prop where
  pc : c.registers.pc.toNat < 0x1000
  depth : c.stack.depth ≤ CallStack.capacity
  frames : ∀ a ∈ c.stack.frames, a.toNat < 0x1000

variable {c d : Chip}

theorem inOrder_boot (rom : Rom) (config : Config) (random : RandomStream) :
    (boot rom config random).InOrder where
  pc := by
    change Layout.programStart.toNat < 0x1000
    decide
  depth := CallStack.depth_le _
  frames := nofun

theorem InOrder.congr (h : c.InOrder) (pc : d.registers.pc = c.registers.pc)
    (stack : d.stack = c.stack) : d.InOrder where
  pc := pc ▸ h.pc
  depth := CallStack.depth_le _
  frames := stack ▸ h.frames

theorem InOrder.setPc (h : c.InOrder) (a : UInt16) : (c.setPc a).InOrder where
  pc := c.pc_setPc_lt a
  depth := CallStack.depth_le _
  frames := h.frames

theorem InOrder.after (h : c.InOrder) (stimulus : Stimulus) : (c.after stimulus).InOrder :=
  h.congr (by rw [after_registers]) (c.after_stack stimulus)

theorem InOrder.completes {wait : KeyWait} {i : Instruction} {e : Effect} (h : c.InOrder)
    (rule : Completes wait c i e) : (e.chip.move e.move).InOrder := by
  refine InOrder.setPc (c := e.chip) ⟨rule.pc ▸ h.pc, e.chip.stack.depth_le, ?_⟩ _
  intro b stored
  rcases rule.stack with same | ⟨_, pushed⟩ | ⟨a, _, popped, _⟩
  · exact h.frames b (same ▸ stored)
  · rw [pushed] at stored
    rcases List.mem_cons.mp stored with rfl | older
    · exact h.pc
    · exact h.frames b older
  · exact h.frames b (popped ▸ List.mem_cons_of_mem a stored)

theorem InOrder.execute (h : c.InOrder) (wait : KeyWait) (i : Instruction) :
    (c.execute wait i).chip.InOrder := by
  rcases execute_cases wait i c with ⟨e, rule, run⟩ | ⟨halt, _, run⟩
  · rw [run]
    exact h.completes rule
  · rw [run]
    exact h.congr (by rw [afterHalt_registers]) (c.afterHalt_stack i)

theorem InOrder.step (h : c.InOrder) (wait : KeyWait) : (c.step wait).chip.InOrder := by
  have fetched : c.fetched.InOrder :=
    InOrder.setPc (c := { c with opcode := c.nextOpcode }) ⟨h.pc, h.depth, h.frames⟩ _
  rcases step_cases wait c with ⟨e, rule, run⟩ | ⟨halt, _, run⟩ | run
  · rw [run]
    exact fetched.completes rule
  · rw [run]
    exact fetched.congr (by rw [afterHalt_registers]) (c.fetched.afterHalt_stack _)
  · rw [run]
    exact h

theorem InOrder.act (h : c.InOrder) (op : Operation) : (c.act op).chip.InOrder := by
  cases op with
  | turn t =>
    cases t with
    | step wait => exact h.step wait
    | outside stimulus => exact h.after stimulus
  | execute wait i => exact h.execute wait i

theorem InOrder.actAll (h : c.InOrder) (ops : List Operation) : (c.actAll ops).InOrder := by
  induction ops generalizing c with
  | nil => exact h
  | cons op rest ih => exact ih (h.act op)

/-- However a machine was started and whatever is done to it, it is in order then, and no operation on
the way there was refused. -/
theorem run_safe {rom : Rom} {config : Config} {random : RandomStream}
    (started : start rom config random = .ok c) {ops : List Operation}
    (admissible : ∀ op ∈ ops, op.Admissible) :
    (c.actAll ops).InOrder ∧ Guard.actAll c ops = .ok (c.actAll ops) := by
  obtain ⟨_, _, rfl⟩ := start_eq_ok_iff.mp started
  exact ⟨(inOrder_boot rom config random).actAll ops, Guard.actAll_eq _ admissible⟩

theorem small_run_safe :
    let rom : Rom := ⟨"SMALL", [0x22, 0x00]⟩
    let ops : List Operation := [.turn (.step ⟨0⟩), .turn (.outside (.key (.press 99))),
      .execute ⟨0⟩ (.loadBlock 15), .turn (.outside .tick), .execute ⟨0⟩ (.call 0xFFFF)]
    let c := boot rom .standard (.cycle [])
    (start rom .standard (.cycle []) = .ok c ∧ ∀ op ∈ ops, op.Admissible) ∧
    (c.actAll ops).InOrder ∧ Guard.actAll c ops = .ok (c.actAll ops) := by
  intro rom ops c
  have started : start rom .standard (.cycle []) = .ok c :=
    start_eq_ok_iff.mpr ⟨by decide, by decide, rfl⟩
  have admissible : ∀ op ∈ ops, op.Admissible := by
    simp [ops, Operation.Admissible, Instruction.NamesRegisters, Instruction.registers]
  exact ⟨⟨started, admissible⟩, run_safe started admissible⟩

end ChipEight.Chip
