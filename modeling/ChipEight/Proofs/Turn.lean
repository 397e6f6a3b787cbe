import ChipEight.Proofs.Completion

/-! A machine that runs: steps one after the other, and anything from outside between them. A step
completes by a rule, fails with nothing done but the fetch, or still waits for its key and has not
happened. What a single turn does to the stack and to the picture is read off these three ways. -/
namespace ChipEight

/-- What happens to a running machine next. -/
inductive Turn where
  /-- A step, with the wait that it looks at if it needs a key. -/
  | step (wait : KeyWait)
  | outside (stimulus : Stimulus)
  deriving DecidableEq, Repr

/-- A step that was taken: its word, and how it ended. -/
structure Taken where
  word : Opcode
  result : Except Halt Signal

/-- The step was completed and did not ask to stop. -/
def Taken.goesOn (t : Taken) : Bool :=
  match t.result with
  | .ok .quiet | .ok .drawn => true
  | .ok .interrupted | .error _ => false

namespace Chip

def turn (c : Chip) : Turn → Chip
  | .step wait => (c.step wait).chip
  | .outside stimulus => c.after stimulus

def turnAll (c : Chip) (turns : List Turn) : Chip := turns.foldl turn c

def taken (c : Chip) (wait : KeyWait) : Taken := ⟨c.nextOpcode, (c.step wait).result⟩

/-- The steps among the turns. -/
def takenAll : Chip → List Turn → List Taken
  | _, [] => []
  | c, .step wait :: rest => c.taken wait :: takenAll (c.step wait).chip rest
  | c, .outside stimulus :: rest => takenAll (c.after stimulus) rest

theorem turnAll_append (c : Chip) (turns more : List Turn) :
    c.turnAll (turns ++ more) = (c.turnAll turns).turnAll more := List.foldl_append

theorem takenAll_append (c : Chip) (turns more : List Turn) :
    c.takenAll (turns ++ more) = c.takenAll turns ++ (c.turnAll turns).takenAll more := by
  induction turns generalizing c with
  | nil => rfl
  | cons turn rest ih =>
    cases turn with
    | step wait => exact congrArg (c.taken wait :: ·) (ih _)
    | outside stimulus => exact ih _

theorem execute_of_completes {wait : KeyWait} {i : Instruction} {c : Chip} {e : Effect}
    (rule : Completes wait c i e) : c.execute wait i = ⟨e.chip.move e.move, .ok e.signal⟩ := by
  simp only [execute, perform, effect_of_completes rule]

theorem execute_of_error {wait : KeyWait} {i : Instruction} {c : Chip} {h : Halt}
    (fails : c.effect wait i = .error h) : c.execute wait i = ⟨c.afterHalt i, .error h⟩ := by
  simp only [execute, perform, fails]

theorem execute_cases (wait : KeyWait) (i : Instruction) (c : Chip) :
    (∃ e, Completes wait c i e ∧ c.execute wait i = ⟨e.chip.move e.move, .ok e.signal⟩) ∨
    ∃ h, c.effect wait i = .error h ∧ c.execute wait i = ⟨c.afterHalt i, .error h⟩ := by
  cases found : c.effect wait i with
  | ok e =>
    have rule := completes_of_effect found
    exact .inl ⟨e, rule, execute_of_completes rule⟩
  | error h => exact .inr ⟨h, rfl, execute_of_error found⟩

theorem execute_error_iff {wait : KeyWait} {i : Instruction} {c : Chip} {h : Halt} :
    (c.execute wait i).result = .error h ↔ c.effect wait i = .error h := by
  rcases execute_cases wait i c with ⟨e, rule, run⟩ | ⟨r, found, run⟩
  · simp [run, effect_of_completes rule]
  · simp [run, found]

theorem step_of_completes {wait : KeyWait} {c : Chip} {e : Effect}
    (rule : Completes wait c.fetched (.decode c.nextOpcode) e) :
    c.step wait = ⟨e.chip.move e.move, .ok e.signal⟩ := by
  rw [step, execute_of_completes rule]

/-- The three ways in which a step ends. -/
theorem step_cases (wait : KeyWait) (c : Chip) :
    (∃ e, Completes wait c.fetched (.decode c.nextOpcode) e ∧
      c.step wait = ⟨e.chip.move e.move, .ok e.signal⟩) ∨
    (∃ h, h ≠ .waiting ∧
      c.step wait = ⟨c.fetched.afterHalt (.decode c.nextOpcode), .error h⟩) ∨
    c.step wait = ⟨c, .error .waiting⟩ := by
  unfold step
  rcases execute_cases wait (.decode c.nextOpcode) c.fetched with ⟨e, rule, run⟩ | ⟨h, _, run⟩
  · exact .inl ⟨e, rule, by rw [run]⟩
  · rw [run]
    by_cases waiting : h = .waiting
    · subst h
      exact .inr (.inr rfl)
    · refine .inr (.inl ⟨h, waiting, ?_⟩)
      cases h <;> first | rfl | contradiction

theorem completes_of_step {wait : KeyWait} {c : Chip} {s : Signal}
    (done : (c.step wait).result = .ok s) :
    ∃ e, Completes wait c.fetched (.decode c.nextOpcode) e ∧
      c.step wait = ⟨e.chip.move e.move, .ok e.signal⟩ := by
  rcases step_cases wait c with completes | ⟨h, _, run⟩ | run
  · exact completes
  · simp [run] at done
  · simp [run] at done

theorem step_waiting {wait : KeyWait} {c : Chip} (waiting : (c.step wait).result = .error .waiting) :
    (c.step wait).chip = c := by
  rcases step_cases wait c with ⟨e, rule, run⟩ | ⟨h, other, run⟩ | run
  · simp [run] at waiting
  · simp [run, other] at waiting
  · rw [run]

theorem awaitsKey_iff {c : Chip} :
    c.awaitsKey = true ↔ ∃ x, .decode c.nextOpcode = Instruction.awaitKey x := by
  unfold awaitsKey Instruction.awaitsKey
  split
  · next x word => simp [word]
  · next other =>
    simp only [Bool.false_eq_true, false_iff, not_exists]
    exact other

theorem toNat_pc_setPc (c : Chip) (a : UInt16) :
    (c.setPc a).registers.pc.toNat = a.toNat % 0x1000 := by
  simp [setPc, Registers.setPc]

theorem pc_setPc_lt (c : Chip) (a : UInt16) : (c.setPc a).registers.pc.toNat < 0x1000 := by
  rw [toNat_pc_setPc]
  exact Nat.mod_lt _ (by decide)

theorem toNat_pc_fetched (c : Chip) :
    c.fetched.registers.pc.toNat = (c.registers.pc.toNat + 2) % 0x1000 := by
  simp only [fetched, toNat_pc_setPc, Opcode.bytes, UInt16.toNat_add, UInt16.reduceToNat]
  omega

theorem fetched_eq (c : Chip) : ∃ behind : UInt16,
    behind.toNat = (c.registers.pc.toNat + 2) % 0x1000 ∧
    c.fetched = { c with
      opcode := c.nextOpcode
      registers := { c.registers with pc := behind } } :=
  ⟨_, c.toNat_pc_fetched, rfl⟩

theorem afterHalt_registers (c : Chip) (i : Instruction) :
    (c.afterHalt i).registers = c.registers := by
  cases i <;> rfl

theorem afterHalt_stack (c : Chip) (i : Instruction) : (c.afterHalt i).stack = c.stack := by
  cases i <;> rfl

theorem afterHalt_screen (c : Chip) (i : Instruction) : (c.afterHalt i).screen = c.screen := by
  cases i <;> rfl

theorem afterHalt_dialect (c : Chip) (i : Instruction) : (c.afterHalt i).dialect = c.dialect := by
  cases i <;> rfl

theorem after_registers (c : Chip) (stimulus : Stimulus) :
    (c.after stimulus).registers = c.registers := by
  cases stimulus <;> rfl

theorem after_stack (c : Chip) (stimulus : Stimulus) : (c.after stimulus).stack = c.stack := by
  cases stimulus <;> rfl

theorem after_screen (c : Chip) (stimulus : Stimulus) : (c.after stimulus).screen = c.screen := by
  cases stimulus <;> rfl

theorem after_dialect (c : Chip) (stimulus : Stimulus) : (c.after stimulus).dialect = c.dialect := by
  cases stimulus <;> rfl

theorem execute_dialect (wait : KeyWait) (i : Instruction) (c : Chip) :
    (c.execute wait i).chip.dialect = c.dialect := by
  rcases execute_cases wait i c with ⟨e, rule, run⟩ | ⟨h, _, run⟩
  · rw [run]
    exact rule.dialect
  · rw [run]
    exact c.afterHalt_dialect i

theorem step_dialect (wait : KeyWait) (c : Chip) : (c.step wait).chip.dialect = c.dialect := by
  rcases step_cases wait c with ⟨e, rule, run⟩ | ⟨h, _, run⟩ | run
  · rw [run]
    exact rule.dialect
  · rw [run]
    exact c.fetched.afterHalt_dialect _
  · rw [run]

/-- A machine whose program counter lies inside memory keeps it there. -/
theorem pc_step_lt {c : Chip} (inside : c.registers.pc.toNat < 0x1000) (wait : KeyWait) :
    (c.step wait).chip.registers.pc.toNat < 0x1000 := by
  rcases step_cases wait c with ⟨e, _, run⟩ | ⟨h, _, run⟩ | run
  · rw [run]
    exact pc_setPc_lt _ _
  · rw [run, afterHalt_registers]
    exact pc_setPc_lt _ _
  · rw [run]
    exact inside

/-- One step pushes the address behind its word, takes the newest address off the stack and goes
there, or leaves the stack alone. -/
theorem step_stack (wait : KeyWait) (c : Chip) :
    (c.step wait).chip.stack = c.stack ∨
    (∃ a : UInt16, a.toNat = (c.registers.pc.toNat + 2) % 0x1000 ∧
      c.stack.depth < CallStack.capacity ∧
      (c.step wait).chip.stack.frames = a :: c.stack.frames) ∨
    ∃ a s, c.nextOpcode = 0x00EE ∧ (c.step wait).result = .ok s ∧
      c.stack.frames = a :: (c.step wait).chip.stack.frames ∧
      (c.step wait).chip.registers.pc.toNat = a.toNat % 0x1000 := by
  rcases step_cases wait c with ⟨e, rule, run⟩ | ⟨h, _, run⟩ | run
  · rw [run]
    rcases rule.stack with same | ⟨room, pushed⟩ | ⟨a, ret, popped, jump⟩
    · exact .inl same
    · exact .inr (.inl ⟨_, c.toNat_pc_fetched, room, pushed⟩)
    · refine .inr (.inr ⟨a, _, Instruction.decode_eq_ret ret, rfl, popped, ?_⟩)
      rw [jump]
      exact toNat_pc_setPc _ _
  · rw [run]
    exact .inl (afterHalt_stack _ _)
  · rw [run]
    exact .inl rfl

/-- A step that does not draw leaves the picture alone. -/
theorem step_screen (wait : KeyWait) (c : Chip) (other : (c.step wait).result ≠ .ok .drawn) :
    (c.step wait).chip.screen = c.screen := by
  rcases step_cases wait c with ⟨e, rule, run⟩ | ⟨h, _, run⟩ | run
  · rw [run] at other ⊢
    apply rule.screen
    rw [Bool.eq_false_iff]
    intro drawn
    exact other (congrArg Except.ok (rule.drawn_iff.mpr drawn))
  · rw [run]
    exact afterHalt_screen _ _
  · rw [run]

/-- The steps that ask for the picture to be shown are the completed ones of the words that draw. -/
theorem step_drawn_iff (wait : KeyWait) (c : Chip) :
    (c.step wait).result = .ok .drawn ↔
      c.nextOpcode.draws = true ∧ ∃ s, (c.step wait).result = .ok s := by
  rw [← Instruction.draws_decode]
  rcases step_cases wait c with ⟨e, rule, run⟩ | ⟨h, _, run⟩ | run
  · simp [run, rule.drawn_iff]
  · simp [run]
  · simp [run]

end Chip
end ChipEight
