import ChipEight.Instruction

/-! Writing an instruction back as a word. Each pattern is stamped from its own selector and fields,
without looking at how a word is read; fields that are too large for their place spill over. -/
namespace ChipEight

def AluOp.selector : AluOp → UInt16
  | .assign => 0x0
  | .or => 0x1
  | .and => 0x2
  | .xor => 0x3
  | .add => 0x4
  | .sub => 0x5
  | .shiftRight => 0x6
  | .subReverse => 0x7
  | .shiftLeft => 0xE

namespace Opcode

def txnn (t : UInt16) (x : Nat) (nn : UInt16) : Opcode := t * 0x1000 + UInt16.ofNat x * 0x100 + nn

def txyn (t : UInt16) (x y : Nat) (n : UInt16) : Opcode :=
  t * 0x1000 + UInt16.ofNat x * 0x100 + UInt16.ofNat y * 0x10 + n

def tnnn (t nnn : UInt16) : Opcode := t * 0x1000 + nnn

end Opcode

open Opcode

def Condition.encode : Condition → Opcode
  | .equal x nn => txnn 0x3 x nn.toUInt16
  | .notEqual x nn => txnn 0x4 x nn.toUInt16
  | .sameRegister x y => txyn 0x5 x y 0
  | .otherRegister x y => txyn 0x9 x y 0
  | .keyHeld x => txnn 0xE x 0x9E
  | .keyUp x => txnn 0xE x 0xA1

def Instruction.encode : Instruction → Opcode
  | .clear => 0x00E0
  | .ret => 0x00EE
  | .jump nnn => tnnn 0x1 nnn
  | .call nnn => tnnn 0x2 nnn
  | .skip condition => condition.encode
  | .load x nn => txnn 0x6 x nn.toUInt16
  | .add x nn => txnn 0x7 x nn.toUInt16
  | .alu op x y => txyn 0x8 x y op.selector
  | .setIndex nnn => tnnn 0xA nnn
  | .jumpOffset nnn _ => tnnn 0xB nnn
  | .random x nn => txnn 0xC x nn.toUInt16
  | .draw x y n => txyn 0xD x y n.toUInt16
  | .readDelay x => txnn 0xF x 0x07
  | .awaitKey x => txnn 0xF x 0x0A
  | .setDelay x => txnn 0xF x 0x15
  | .setSound x => txnn 0xF x 0x18
  | .addIndex x => txnn 0xF x 0x1E
  | .pointAtGlyph x => txnn 0xF x 0x29
  | .storeDecimal x => txnn 0xF x 0x33
  | .storeBlock x => txnn 0xF x 0x55
  | .loadBlock x => txnn 0xF x 0x65
  | .unknown w => w

end ChipEight
