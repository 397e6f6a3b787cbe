import ChipEight.Instruction

/-! The arithmetic of registers: results modulo 256 together with the flag bit that an operation
produces. Operands are values here; which register holds the flag is decided where the result is
written. -/
namespace ChipEight

/-- The result of `8XYT` on the values of `VX` and `VY` and, if the operation has one, its flag:
the carry, the missing borrow or the bit that was shifted out. -/
def AluOp.eval (op : AluOp) (shiftsVy : Bool) (vx vy : UInt8) : UInt8 × Option Bool :=
  let source := if shiftsVy then vy else vx
  match op with
  | .assign => (vy, none)
  | .or => (vx ||| vy, none)
  | .and => (vx &&& vy, none)
  | .xor => (vx ^^^ vy, none)
  | .add => (vx + vy, some (decide (0x100 ≤ vx.toNat + vy.toNat)))
  | .sub => (vx - vy, some (decide (vy ≤ vx)))
  | .subReverse => (vy - vx, some (decide (vx ≤ vy)))
  | .shiftRight => (source >>> 1, some (decide (source &&& 0x01 = 0x01)))
  | .shiftLeft => (source <<< 1, some (decide (source &&& 0x80 = 0x80)))

def decimalDigits (b : UInt8) : List UInt8 := [b / 100, b / 10 % 10, b % 10]

/-- The digits make up the number, hundreds first. -/
theorem decimalDigits_spec (b : UInt8) : ∃ hundreds tens ones : UInt8,
    decimalDigits b = [hundreds, tens, ones] ∧ tens.toNat < 10 ∧ ones.toNat < 10 ∧
      100 * hundreds.toNat + 10 * tens.toNat + ones.toNat = b.toNat := by
  refine ⟨_, _, _, rfl, ?_⟩
  simp only [UInt8.toNat_div, UInt8.toNat_mod, UInt8.reduceToNat]
  omega

end ChipEight
