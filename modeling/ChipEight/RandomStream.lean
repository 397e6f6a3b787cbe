/-! The source of the bytes that programs draw: an endless sequence and how much of it is used up. -/
namespace ChipEight

structure RandomStream where
  byteAt : Nat → UInt8
  drawn : Nat

namespace RandomStream

/-- The bytes over and over again, or zeros if there are none. -/
def cycle (bytes : List UInt8) : RandomStream := ⟨fun k => bytes.getD (k % bytes.length) 0, 0⟩

/-- The bytes come in their order and then again from the first. -/
theorem cycle_spec (bytes : List UInt8) : (List.range bytes.length).map (cycle bytes).byteAt = bytes ∧
    ∀ k, (cycle bytes).byteAt (k + bytes.length) = (cycle bytes).byteAt k := by
  refine ⟨?_, fun k => by simp [cycle]⟩
  apply List.ext_getElem
  · simp
  · intro k inside inside'
    simp [cycle, Nat.mod_eq_of_lt inside', List.getElem?_eq_getElem inside']

def byte (r : RandomStream) : UInt8 := r.byteAt r.drawn

/-- The stream without the next byte. -/
def next (r : RandomStream) : RandomStream := { r with drawn := r.drawn + 1 }

end RandomStream
end ChipEight
