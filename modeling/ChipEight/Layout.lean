/-! The memory map: how large memory is and where the font and the program lie in it. -/
namespace ChipEight.Layout

def memorySize : Nat := 0x1000

def fontStart : UInt16 := 0x50

/-- The first byte of the program, where a machine starts. -/
def programStart : UInt16 := 0x200

/-- Bytes from the program start to the end of memory. -/
def programRoom : Nat := memorySize - programStart.toNat

end ChipEight.Layout
