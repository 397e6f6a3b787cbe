import ChipEight.Hex
import ChipEight.Layout

/-! Everything that can go wrong, as causes. The wording of each cause is in one function beside its
type; a fault that passes through an outer layer is worded again by that layer. -/
namespace ChipEight

section
variable {ε δ α β : Type}

theorem ok_bind (a : α) (f : α → Except ε β) : ((.ok a : Except ε α) >>= f) = f a := rfl

theorem bind_eq_ok {x : Except ε α} {f : α → Except ε β} {b : β} :
    (x >>= f) = .ok b ↔ ∃ a, x = .ok a ∧ f a = .ok b := by
  cases x <;> simp [bind, Except.bind]

theorem pure_eq_ok {a b : α} : (pure a : Except ε α) = .ok b ↔ a = b := by
  simp [pure, Except.pure]

theorem mapError_eq_ok {x : Except ε α} {f : ε → δ} {a : α} :
    x.mapError f = .ok a ↔ x = .ok a := by
  cases x with
  | ok b =>
    change (.ok b : Except δ α) = .ok a ↔ _
    rw [Except.ok.injEq, Except.ok.injEq]
  | error e =>
    constructor
    · intro h
      cases h
    · intro h
      cases h

end

/-- The call stack cannot do what an instruction asks of it. -/
inductive StackFault where
  | overflow
  | underflow
  deriving DecidableEq, Repr

namespace StackFault

def message : StackFault → String
  | .overflow => "Stack overflow, the stack is full!"
  | .underflow => "Stack underflow, the stack is empty!"

def chipMessage (f : StackFault) : String := "Invalid stack state '" ++ f.message ++ "'."

end StackFault

/-- A caller names something that does not exist. -/
inductive Violation where
  | noRegister (x : Nat)
  | noKey (k : Nat)
  | noRow (y : Nat)
  | noColumn (x : Nat)
  deriving DecidableEq, Repr

namespace Violation

/-- A place beyond the end of a table of `length` entries. -/
def outOfBounds (length index : Nat) : String :=
  "index out of bounds: the len is " ++ toString length ++ " but the index is " ++ toString index

def message : Violation → String
  | .noRegister x => "There is no register V" ++ Hex.number x ++ "."
  | .noKey k => "There is no key 0x" ++ Hex.number k ++ "."
  | .noRow y => outOfBounds 32 y
  | .noColumn x => outOfBounds 64 x

end Violation

/-- Why an instruction does not complete. -/
inductive Halt where
  | stack (fault : StackFault)
  | violation (violation : Violation)
  /-- A key wait that nothing has ended yet. -/
  | waiting
  deriving DecidableEq, Repr

inductive ReadFault where
  | notFound
  | isDirectory
  | notText
  deriving DecidableEq, Repr

def ReadFault.message : ReadFault → String
  | .notFound => "No such file or directory (os error 2)"
  | .isDirectory => "Is a directory (os error 21)"
  | .notText => "stream did not contain valid UTF-8"

/-- What keeps a machine from being set up. -/
inductive ConfigFault where
  | emptyRom
  | romTooLarge (length : Nat)
  | unreadable (path : String) (cause : ReadFault)
  | fontLength (count : Nat)
  | zeroRate
  deriving DecidableEq, Repr

def ConfigFault.message : ConfigFault → String
  | .emptyRom => "The rom is empty, there is nothing to execute."
  | .romTooLarge length =>
    "The rom is " ++ toString length ++ " bytes long, but at most " ++
      toString Layout.programRoom ++ " bytes fit into memory."
  | .unreadable path cause => "Unable to read '" ++ path ++ "': " ++ cause.message
  | .fontLength count =>
    "A font needs exactly 80 glyph bytes, but " ++ toString count ++ " were found."
  | .zeroRate => "The instruction rate has to be at least one per second."

/-- What a session reports to whoever runs it. -/
inductive SessionFault where
  | config (fault : ConfigFault)
  | stack (fault : StackFault)
  deriving DecidableEq, Repr

def SessionFault.message : SessionFault → String
  | .config fault => "Invalid configuration: " ++ fault.message
  | .stack fault => "Execution stopped: " ++ fault.chipMessage

end ChipEight
