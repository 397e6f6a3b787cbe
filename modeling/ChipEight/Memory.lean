import ChipEight.Opcode
import ChipEight.Font

/-! The flat memory. An address is any word; only its low twelve bits select a byte, so memory is a
circle of 4096 bytes and no access can miss it. Loading a font or a program writes one region each. -/
namespace ChipEight

structure Memory where
  bytes : Vector UInt8 0x1000
  deriving DecidableEq

namespace Memory

def zero : Memory := ⟨Vector.replicate _ 0⟩

/-- The place on the circle that an address selects. -/
def place (a : UInt16) : Fin 0x1000 := ⟨a.toNat % 0x1000, Nat.mod_lt _ (by decide)⟩

def read (m : Memory) (a : UInt16) : UInt8 := m.bytes[place a]

def write (m : Memory) (a : UInt16) (b : UInt8) : Memory := ⟨m.bytes.set (place a) b⟩

/-- Writes the bytes one after the other from `a` on, so the last write to a place stays. -/
def writeAll (m : Memory) (a : UInt16) : List UInt8 → Memory
  | [] => m
  | b :: bs => (m.write a b).writeAll (a + 1) bs

def fetch (m : Memory) (a : UInt16) : Opcode := .ofBytes (m.read a) (m.read (a + 1))

/-- So many bytes from `a` on, going round the circle as often as needed. -/
def readRange (m : Memory) (a : UInt16) (length : Nat) : List UInt8 :=
  (List.range length).map fun k => m.read (a + UInt16.ofNat k)

def loadFont (m : Memory) (font : Font) : Memory := m.writeAll Layout.fontStart font.rows.toList

/-- Refuses a program that is empty or does not fit. -/
def loadProgram (m : Memory) (program : List UInt8) : Except ConfigFault Memory :=
  if program = [] then .error .emptyRom
  else if Layout.programRoom < program.length then .error (.romTooLarge program.length)
  else .ok (m.writeAll Layout.programStart program)

theorem read_write (m : Memory) (a c : UInt16) (b : UInt8) :
    (m.write a b).read c = if place a = place c then b else m.read c := by
  simp only [read, write, Fin.getElem_fin, Vector.getElem_set, Fin.ext_iff]

theorem length_readRange (m : Memory) (a : UInt16) (length : Nat) :
    (m.readRange a length).length = length := by
  simp [readRange]

end Memory
end ChipEight
