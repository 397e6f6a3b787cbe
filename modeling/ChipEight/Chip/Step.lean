import ChipEight.Chip.Perform
import ChipEight.Instruction.Decode

/-! One step of the machine: fetch the word at the program counter, move behind it, execute it. A
step whose key wait is not over has not happened yet. -/
namespace ChipEight.Chip

def nextOpcode (c : Chip) : Opcode := c.memory.fetch c.registers.pc

def awaitsKey (c : Chip) : Bool := (Instruction.decode c.nextOpcode).awaitsKey

/-- The machine with the next word fetched and the program counter behind it. -/
def fetched (c : Chip) : Chip :=
  { c with opcode := c.nextOpcode }.setPc (c.registers.pc + Opcode.bytes)

def step (wait : KeyWait) (c : Chip) : Outcome Signal :=
  match c.fetched.execute wait (.decode c.nextOpcode) with
  | ⟨_, .error .waiting⟩ => ⟨c, .error .waiting⟩
  | outcome => outcome

/-- Lets the events happen if `act` has to wait for a key, and has it look at the keypad once more. -/
def during {α : Type} (events : List KeyEvent) (act : KeyWait → Chip → Outcome α) (c : Chip) :
    Outcome α :=
  let wait := c.keypad.beginWait
  match act wait c with
  | ⟨_, .error .waiting⟩ => act wait { c with keypad := c.keypad.afterAll events }
  | outcome => outcome

/-- A series of steps: the machine after it, how many steps went on, and how the last one ended. -/
structure Series where
  chip : Chip
  completed : Nat
  last : Except Halt Signal

/-- Up to `n` steps, each with the same events during its key wait. The series ends early at the
first step that is interrupted or does not complete. -/
def series (events : List KeyEvent) : Nat → Except Halt Signal → Chip → Series
  | 0, last, c => ⟨c, 0, last⟩
  | n + 1, _, c =>
    match c.during events step with
    | ⟨c', .error h⟩ => ⟨c', 0, .error h⟩
    | ⟨c', .ok .interrupted⟩ => ⟨c', 0, .ok .interrupted⟩
    | ⟨c', .ok s⟩ =>
      let rest := series events n (.ok s) c'
      { rest with completed := rest.completed + 1 }

end ChipEight.Chip
