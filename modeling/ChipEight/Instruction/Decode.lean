import ChipEight.Instruction

/-! Reading an instruction out of a word. Every word has a meaning: one that fits no pattern of the
table is kept as `unknown`. -/
namespace ChipEight

/-- The operation that the last nibble of `8XYT` selects. -/
def AluOp.decode? : UInt8 → Option AluOp
  | 0x0 => some .assign
  | 0x1 => some .or
  | 0x2 => some .and
  | 0x3 => some .xor
  | 0x4 => some .add
  | 0x5 => some .sub
  | 0x6 => some .shiftRight
  | 0x7 => some .subReverse
  | 0xE => some .shiftLeft
  | _ => none

/-- The key conditions `EXNN` on the key that register `x` names. -/
def Condition.decodeKey? (x : Nat) : UInt8 → Option Condition
  | 0x9E => some (.keyHeld x)
  | 0xA1 => some (.keyUp x)
  | _ => none

namespace Instruction

/-- The two words of the family `0NNN` that have a meaning. -/
def decodeSystem? (w : Opcode) : Option Instruction :=
  if w = 0x00E0 then some .clear else if w = 0x00EE then some .ret else none

/-- The timer, index and memory instructions `FXNN` on register `x`. -/
def decodeMisc? (x : Nat) : UInt8 → Option Instruction
  | 0x07 => some (.readDelay x)
  | 0x0A => some (.awaitKey x)
  | 0x15 => some (.setDelay x)
  | 0x18 => some (.setSound x)
  | 0x1E => some (.addIndex x)
  | 0x29 => some (.pointAtGlyph x)
  | 0x33 => some (.storeDecimal x)
  | 0x55 => some (.storeBlock x)
  | 0x65 => some (.loadBlock x)
  | _ => none

/-- The instruction of a word that fits the table. -/
def decode? (w : Opcode) : Option Instruction :=
  match w.family with
  | 0x0 => decodeSystem? w
  | 0x1 => some (.jump w.nnn)
  | 0x2 => some (.call w.nnn)
  | 0x3 => some (.skip (.equal w.x w.nn))
  | 0x4 => some (.skip (.notEqual w.x w.nn))
  | 0x5 => if w.n = 0 then some (.skip (.sameRegister w.x w.y)) else none
  | 0x6 => some (.load w.x w.nn)
  | 0x7 => some (.add w.x w.nn)
  | 0x8 => (AluOp.decode? w.n).map fun op => .alu op w.x w.y
  | 0x9 => if w.n = 0 then some (.skip (.otherRegister w.x w.y)) else none
  | 0xA => some (.setIndex w.nnn)
  | 0xB => some (.jumpOffset w.nnn w.x)
  | 0xC => some (.random w.x w.nn)
  | 0xD => some (.draw w.x w.y w.n)
  | 0xE => (Condition.decodeKey? w.x w.nn).map .skip
  | 0xF => decodeMisc? w.x w.nn
  | _ => none

def decode (w : Opcode) : Instruction := (decode? w).getD (.unknown w)

end Instruction
end ChipEight
