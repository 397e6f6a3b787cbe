import ChipEight.Opcode

/-! What an instruction does to the program counter on top of the two bytes that its own word took.
Wrapping into the address range belongs to the register file and is not done here. -/
namespace ChipEight

inductive PcMove where
  | stay
  | skip
  | jump (target : UInt16)
  deriving DecidableEq, Repr

namespace PcMove

/-- Skips exactly if the condition holds. -/
def skipIf (holds : Bool) : PcMove := if holds then .skip else .stay

/-- The program counter after the move; `pc` has already passed the instruction's own word. -/
def apply (pc : UInt16) : PcMove → UInt16
  | .stay => pc
  | .skip => pc + Opcode.bytes
  | .jump target => target

end PcMove
end ChipEight
