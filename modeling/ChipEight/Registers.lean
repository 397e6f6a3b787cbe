import ChipEight.Fault

/-! The register file: sixteen bytes `V0` to `VF`, the index `I` and the program counter. `I` keeps
all sixteen bits, so that a sum past `0xFFF` stays visible; the program counter is cut to twelve bits
whenever it is set. -/
namespace ChipEight

/-- The number of a register that exists. -/
abbrev Register := Fin 16

namespace Register

/-- Register `VF`, which doubles as the flag. -/
def flag : Register := 15

/-- The register with number `x`, if there is one. -/
def ofNat (x : Nat) : Except Violation Register :=
  if h : x < 16 then .ok ⟨x, h⟩ else .error (.noRegister x)

theorem ofNat_of_lt {x : Nat} (h : x < 16) : ofNat x = .ok ⟨x, h⟩ := dif_pos h

theorem ofNat_of_le {x : Nat} (h : 16 ≤ x) : ofNat x = .error (.noRegister x) :=
  dif_neg (Nat.not_lt.mpr h)

end Register

structure Registers where
  v : Vector UInt8 16
  i : UInt16
  pc : UInt16
  deriving DecidableEq

namespace Registers

/-- All zero, with the program counter at the first byte of the program. -/
def initial : Registers := ⟨Vector.replicate _ 0, 0, Layout.programStart⟩

def get (r : Registers) (x : Register) : UInt8 := r.v[x]

def set (r : Registers) (x : Register) (b : UInt8) : Registers := { r with v := r.v.set x b }

def setFlag (r : Registers) (b : Bool) : Registers := r.set .flag (if b then 1 else 0)

def setIndex (r : Registers) (a : UInt16) : Registers := { r with i := a }

/-- The program counter always lies inside memory. -/
def setPc (r : Registers) (a : UInt16) : Registers := { r with pc := a % 0x1000 }

/-- The values of `V0` up to and including `VX`. -/
def upTo (r : Registers) (x : Register) : List UInt8 := r.v.toList.take (x + 1)

/-- Gives every register up to and including `VX` the byte with its number. -/
def fillUpTo (r : Registers) (x : Register) (byteOf : Nat → UInt8) : Registers :=
  { r with v := Vector.ofFn fun k => if k ≤ x then byteOf k else r.v[k] }

theorem get_set (r : Registers) (x k : Register) (b : UInt8) :
    (r.set x b).get k = if x = k then b else r.get k := by
  simp only [get, set, Fin.getElem_fin, Vector.getElem_set, Fin.ext_iff]

theorem get_fillUpTo (r : Registers) (x k : Register) (byteOf : Nat → UInt8) :
    (r.fillUpTo x byteOf).get k = if k ≤ x then byteOf k else r.get k := by
  simp [get, fillUpTo]

theorem length_upTo (r : Registers) (x : Register) : (r.upTo x).length = x + 1 := by
  simp only [upTo, List.length_take, Vector.length_toList]
  omega

end Registers
end ChipEight
