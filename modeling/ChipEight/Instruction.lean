import ChipEight.Opcode

/-! The instructions of the machine. Register fields are numbers of any size: a decoded instruction
names registers below 16 only, an instruction built by hand may name one that does not exist, and
execution reports it. -/
namespace ChipEight

/-- The register to register operations of `8XYT`. -/
inductive AluOp where
  | assign | or | and | xor | add | sub | shiftRight | subReverse | shiftLeft
  deriving DecidableEq, Repr

/-- The conditions under which the following instruction is left out. -/
inductive Condition where
  /-- Word `3XNN`: `VX` is `NN`. -/
  | equal (x : Nat) (nn : UInt8)
  /-- Word `4XNN`: `VX` is not `NN`. -/
  | notEqual (x : Nat) (nn : UInt8)
  /-- Word `5XY0`: `VX` is `VY`. -/
  | sameRegister (x y : Nat)
  /-- Word `9XY0`: `VX` is not `VY`. -/
  | otherRegister (x y : Nat)
  /-- Word `EX9E`: the key that `VX` names is held. -/
  | keyHeld (x : Nat)
  /-- Word `EXA1`: the key that `VX` names is not held. -/
  | keyUp (x : Nat)
  deriving DecidableEq, Repr

inductive Instruction where
  /-- Word `00E0`: the screen goes dark. -/
  | clear
  /-- Word `00EE`: back to the newest return address. -/
  | ret
  /-- Word `1NNN`: on to `NNN`. -/
  | jump (nnn : UInt16)
  /-- Word `2NNN`: the subroutine at `NNN`. -/
  | call (nnn : UInt16)
  | skip (condition : Condition)
  /-- Word `6XNN`: `VX` becomes `NN`. -/
  | load (x : Nat) (nn : UInt8)
  /-- Word `7XNN`: `NN` is added to `VX`, without a flag. -/
  | add (x : Nat) (nn : UInt8)
  /-- Word `8XYT`: `VX` and `VY` are combined into `VX`. -/
  | alu (op : AluOp) (x y : Nat)
  /-- Word `ANNN`: `I` becomes `NNN`. -/
  | setIndex (nnn : UInt16)
  /-- Word `BNNN`: on to `NNN` plus a register. Field `x` is the high nibble of `nnn` and counts in
  some dialects only. -/
  | jumpOffset (nnn : UInt16) (x : Nat)
  /-- Word `CXNN`: `VX` becomes a random byte combined with `NN` by exclusive or. -/
  | random (x : Nat) (nn : UInt8)
  /-- Word `DXYN`: the `N` sprite rows at `I` are drawn at column `VX` of row `VY`. -/
  | draw (x y : Nat) (n : UInt8)
  /-- Word `FX07`: `VX` becomes the delay timer. -/
  | readDelay (x : Nat)
  /-- Word `FX0A`: `VX` becomes the next key that is pressed. -/
  | awaitKey (x : Nat)
  /-- Word `FX15`: the delay timer becomes `VX`. -/
  | setDelay (x : Nat)
  /-- Word `FX18`: the sound timer becomes `VX`. -/
  | setSound (x : Nat)
  /-- Word `FX1E`: `VX` is added to `I`. -/
  | addIndex (x : Nat)
  /-- Word `FX29`: `I` becomes the address of the glyph that `VX` names. -/
  | pointAtGlyph (x : Nat)
  /-- Word `FX33`: the decimal digits of `VX` go to memory at `I`. -/
  | storeDecimal (x : Nat)
  /-- Word `FX55`: registers up to `VX` go to memory at `I`. -/
  | storeBlock (x : Nat)
  /-- Word `FX65`: registers up to `VX` come from memory at `I`. -/
  | loadBlock (x : Nat)
  /-- A word outside the table; it does nothing. -/
  | unknown (w : Opcode)
  deriving DecidableEq, Repr

def Instruction.awaitsKey : Instruction → Bool
  | .awaitKey _ => true
  | _ => false

end ChipEight
