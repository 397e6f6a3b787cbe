import ChipEight.File

/-! A program and its name. The size is checked when a rom is made and once more when it is written
into memory. -/
namespace ChipEight

structure Rom where
  name : String
  data : List UInt8
  deriving DecidableEq

namespace Rom

/-- Refuses a program that is empty or too long for the memory behind its start. -/
def ofBytes (name : String) (data : List UInt8) : Except ConfigFault Rom :=
  if data.length = 0 then .error .emptyRom
  else if Layout.programRoom < data.length then .error (.romTooLarge data.length)
  else .ok ⟨name, data⟩

/-- The rom that lies in a file, named for it. -/
def ofFile (f : File) : Except ConfigFault Rom := do
  let data ← f.read
  ofBytes f.stem data

end Rom
end ChipEight
