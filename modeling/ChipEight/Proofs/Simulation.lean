import ChipEight.Proofs.Turn

/-! Two machines side by side in the same program. A relation that survives all that a step does around
its instruction survives the step as soon as it survives the instruction, and a whole run if it survives
what happens outside. The machines then take the same steps and end them alike. -/
namespace ChipEight

/-- Two results that are both there and related, or both missing for the same reason. -/
inductive Agree {α : Type} (R : α → α → Prop) : Except Halt α → Except Halt α → Prop where
  | ok {a b : α} (related : R a b) : Agree R (.ok a) (.ok b)
  | error (h : Halt) : Agree R (.error h) (.error h)

theorem Agree.bind_of_ok {α β : Type} {R : β → β → Prop} (x : Except Halt α)
    {f g : α → Except Halt β} (agree : ∀ a, x = .ok a → Agree R (f a) (g a)) :
    Agree R (x >>= f) (x >>= g) := by
  cases x with
  | ok a => exact agree a rfl
  | error h => exact .error h

theorem Agree.bind {α β : Type} {R : β → β → Prop} (x : Except Halt α) {f g : α → Except Halt β}
    (agree : ∀ a, Agree R (f a) (g a)) : Agree R (x >>= f) (x >>= g) :=
  .bind_of_ok x fun a _ => agree a

theorem Agree.mono {α : Type} {R S : α → α → Prop} {x y : Except Halt α} (agree : Agree R x y)
    (weaker : ∀ {a b}, R a b → S a b) : Agree S x y := by
  cases agree with
  | ok related => exact .ok (weaker related)
  | error h => exact .error h

/-- The same move and signal, and machines that the relation ties together. -/
structure Effect.Tied (R : Chip → Chip → Prop) (e e' : Effect) : Prop where
  chip : R e.chip e'.chip
  move : e.move = e'.move
  signal : e.signal = e'.signal

namespace Chip

/-- A relation between machines at the same place of the same program, kept by all that belongs to a step
besides its instruction. -/
structure Tie (R : Chip → Chip → Prop) : Prop where
  word {c d : Chip} (tied : R c d) : c.nextOpcode = d.nextOpcode
  pc {c d : Chip} (tied : R c d) : c.registers.pc = d.registers.pc
  setPc {c d : Chip} (tied : R c d) (a : UInt16) : R (c.setPc a) (d.setPc a)
  latest {c d : Chip} (tied : R c d) (w : Opcode) : R { c with opcode := w } { d with opcode := w }
  drawn {c d : Chip} (tied : R c d) :
    R { c with random := c.random.next } { d with random := d.random.next }

namespace Tie

variable {R : Chip → Chip → Prop} {c d : Chip} {wait wait' : KeyWait} {i : Instruction}

theorem fetched (tie : Tie R) (tied : R c d) : R c.fetched d.fetched := by
  unfold Chip.fetched
  rw [← tie.word tied, ← tie.pc tied]
  exact tie.setPc (tie.latest tied _) _

theorem move (tie : Tie R) (tied : R c d) (m : PcMove) : R (c.move m) (d.move m) := by
  unfold Chip.move
  rw [← tie.pc tied]
  exact tie.setPc tied _

theorem afterHalt (tie : Tie R) (tied : R c d) (i : Instruction) :
    R (c.afterHalt i) (d.afterHalt i) := by
  cases i with
  | random x nn => exact tie.drawn tied
  | _ => exact tied

theorem execute (tie : Tie R) (tied : R c d)
    (agree : Agree (Effect.Tied R) (c.effect wait i) (d.effect wait' i)) :
    (c.execute wait i).result = (d.execute wait' i).result ∧
      R (c.execute wait i).chip (d.execute wait' i).chip := by
  unfold Chip.execute perform
  generalize c.effect wait i = x, d.effect wait' i = y at agree
  cases agree with
  | @ok e e' related =>
    refine ⟨congrArg Except.ok related.signal, ?_⟩
    change R (e.chip.move e.move) (e'.chip.move e'.move)
    rw [← related.move]
    exact tie.move related.chip _
  | error h => exact ⟨rfl, tie.afterHalt tied i⟩

theorem skip (tied : R c d) {condition : Condition} (told : d.holds condition = c.holds condition) :
    Agree (Effect.Tied R) (c.effect wait (.skip condition)) (d.effect wait' (.skip condition)) := by
  simp only [effect, told]
  exact .bind _ fun _ => .ok ⟨tied, rfl, rfl⟩

theorem awaitKey (tie : Tie R) (tied : R c d) (keypad : d.keypad = c.keypad)
    (setV : ∀ (x : Register) (b : UInt8), R (c.setV x b) (d.setV x b)) (x : Nat) :
    Agree (Effect.Tied R) (c.effect wait (.awaitKey x)) (d.effect wait (.awaitKey x)) := by
  have pc := tie.pc tied
  refine .bind _ fun x => ?_
  rw [keypad, pc]
  cases wait.poll c.keypad with
  | key k => exact .ok ⟨setV x k.toByte, rfl, rfl⟩
  | cancelled => exact .ok ⟨tied, rfl, rfl⟩
  | pending => exact .error .waiting

/-- A step ties two machines if its instruction does. -/
theorem step (tie : Tie R) (tied : R c d)
    (agree : Agree (Effect.Tied R) (c.fetched.effect wait (.decode c.nextOpcode))
      (d.fetched.effect wait' (.decode c.nextOpcode))) :
    (c.step wait).result = (d.step wait').result ∧ R (c.step wait).chip (d.step wait').chip := by
  obtain ⟨result, onward⟩ := tie.execute (tie.fetched tied) agree
  unfold Chip.step
  rw [← tie.word tied]
  generalize c.fetched.execute wait (.decode c.nextOpcode) = left,
    d.fetched.execute wait' (.decode c.nextOpcode) = right at result onward
  obtain ⟨c', left⟩ := left
  obtain ⟨d', right⟩ := right
  obtain rfl : left = right := result
  cases left with
  | ok signal => exact ⟨rfl, onward⟩
  | error h =>
    cases h with
    | waiting => exact ⟨rfl, tied⟩
    | stack fault => exact ⟨rfl, onward⟩
    | violation v => exact ⟨rfl, onward⟩

/-- Runs of two machines with the same turns, as long as every word on the way is a calm one: one whose
instruction keeps the machines tied. -/
theorem run (tie : Tie R) (Calm : Dialect → Opcode → Prop)
    (agree : ∀ {c d : Chip} {w : Opcode} (wait : KeyWait), R c d → Calm c.dialect w →
      Agree (Effect.Tied R) (c.effect wait (.decode w)) (d.effect wait (.decode w)))
    (after : ∀ {c d : Chip} (stimulus : Stimulus), R c d → R (c.after stimulus) (d.after stimulus))
    (tied : R c d) (turns : List Turn) (calm : ∀ t ∈ c.takenAll turns, Calm c.dialect t.word) :
    c.takenAll turns = d.takenAll turns ∧ R (c.turnAll turns) (d.turnAll turns) := by
  induction turns generalizing c d with
  | nil => exact ⟨rfl, tied⟩
  | cons turn rest ih =>
    cases turn with
    | step wait =>
      obtain ⟨first, later⟩ := List.forall_mem_cons.mp calm
      obtain ⟨result, onward⟩ := tie.step tied (agree wait (tie.fetched tied) first)
      rw [← step_dialect wait c] at later
      obtain ⟨same, final⟩ := ih onward later
      refine ⟨?_, final⟩
      rw [takenAll, takenAll, same, taken, taken, result, tie.word tied]
    | outside stimulus =>
      rw [← after_dialect c stimulus] at calm
      exact ih (after stimulus tied) calm

end Tie
end Chip
end ChipEight
