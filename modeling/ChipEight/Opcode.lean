/-! Instruction words and their fields. A word is two bytes, high byte first; its four nibbles are
named `T X Y N` from high to low. Field positions are stated by division and remainder, so that the
same fields read as arithmetic on the word's value. -/
namespace ChipEight

/-- One instruction word as it lies in memory. -/
abbrev Opcode := UInt16

namespace Opcode

def bytes : UInt16 := 2

/-- The word whose bytes are `high` and `low`. -/
def ofBytes (high low : UInt8) : Opcode := high.toUInt16 * 0x100 + low.toUInt16

/-- The nibble `T`, which selects the instruction family. -/
def family (w : Opcode) : Nat := w.toNat / 0x1000

/-- The nibble `X`, a register number. -/
def x (w : Opcode) : Nat := w.toNat / 0x100 % 0x10

/-- The nibble `Y`, a register number. -/
def y (w : Opcode) : Nat := w.toNat / 0x10 % 0x10

def n (w : Opcode) : UInt8 := (w % 0x10).toUInt8

def nn (w : Opcode) : UInt8 := (w % 0x100).toUInt8

/-- The low twelve bits `NNN`, an address. -/
def nnn (w : Opcode) : UInt16 := w % 0x1000

theorem toNat_ofBytes (high low : UInt8) :
    (ofBytes high low).toNat = 0x100 * high.toNat + low.toNat := by
  have hh := high.toNat_lt
  have hl := low.toNat_lt
  simp only [ofBytes, UInt16.toNat_add, UInt16.toNat_mul, UInt8.toNat_toUInt16, UInt16.reduceToNat]
  omega

theorem x_lt (w : Opcode) : w.x < 16 := Nat.mod_lt _ (by decide)

theorem y_lt (w : Opcode) : w.y < 16 := Nat.mod_lt _ (by decide)

theorem toNat_n (w : Opcode) : w.n.toNat = w.toNat % 0x10 := by
  simp only [n, UInt16.toNat_toUInt8, UInt16.toNat_mod, UInt16.reduceToNat]
  omega

theorem toNat_nn (w : Opcode) : w.nn.toNat = w.toNat % 0x100 := by
  simp only [nn, UInt16.toNat_toUInt8, UInt16.toNat_mod, UInt16.reduceToNat]
  omega

theorem toNat_nnn (w : Opcode) : w.nnn.toNat = w.toNat % 0x1000 := by
  simp only [nnn, UInt16.toNat_mod, UInt16.reduceToNat]

end Opcode
end ChipEight
