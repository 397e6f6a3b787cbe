import ChipEight.Proofs.Writes
import Mathlib.Data.Nat.Bitwise

/-! Arithmetic on registers that may be one and the same. What an operation comes to is told in whole numbers,
and its flag as what a byte has no room for: a carry, a missing borrow, the bit that a shift pushes out. Both
operands are read before anything is written and the flag is written last, so which of `VX`, `VY` and `VF` are
one register makes no difference but one: a flag takes the place of the result in `VF`. -/
namespace ChipEight

namespace AluOp

/-- The operand that a shift moves. -/
def source (shiftsVy : Bool) (vx vy : Nat) : Nat := if shiftsVy then vy else vx

/-- What an operation comes to before it is cut to a byte. -/
def total (shiftsVy : Bool) (vx vy : Nat) : AluOp → Int
  | .assign => vy
  | .or => (vx ||| vy : Nat)
  | .and => (vx &&& vy : Nat)
  | .xor => (vx ^^^ vy : Nat)
  | .add => vx + vy
  | .sub => vx - vy
  | .subReverse => vy - vx
  | .shiftRight => source shiftsVy vx vy / 2
  | .shiftLeft => source shiftsVy vx vy * 2

/-- Whether an operation that writes a flag raises it. -/
def raisesFlag (shiftsVy : Bool) (vx vy : Nat) : AluOp → Bool
  | .add => 0xFF < vx + vy
  | .sub => vy ≤ vx
  | .subReverse => vx ≤ vy
  | .shiftRight => (source shiftsVy vx vy).testBit 0
  | .shiftLeft => (source shiftsVy vx vy).testBit 7
  | .assign | .or | .and | .xor => false

variable (op : AluOp) (shiftsVy : Bool) (vx vy : UInt8)

theorem source_toNat :
    source shiftsVy vx.toNat vy.toNat = (if shiftsVy then vy else vx).toNat := by
  cases shiftsVy <;> rfl

theorem masked_bit (b mask : UInt8) (k : Nat) (single : mask.toNat = 2 ^ k) :
    decide (b &&& mask = mask) = b.toNat.testBit k := by
  have same : b &&& mask = mask ↔ b.toNat.testBit k = true := by
    have filled : 0 ≠ 2 ^ k := (Nat.two_pow_pos k).ne
    rw [← UInt8.toNat_inj, UInt8.toNat_and, single, Nat.and_two_pow]
    cases b.toNat.testBit k <;> simp [filled]
  simp only [same, Bool.decide_eq_true]

/-- The result of an operation is its total, cut to a byte. -/
theorem toNat_eval : ((op.eval shiftsVy vx vy).1.toNat : Int) =
    op.total shiftsVy vx.toNat vy.toNat % 0x100 := by
  have hx := vx.toNat_lt
  have hy := vy.toNat_lt
  cases op with
  | assign =>
    simp only [eval, total]
    omega
  | or =>
    have small := Nat.or_lt_two_pow hx hy
    simp only [eval, total, UInt8.toNat_or]
    omega
  | and =>
    have small := Nat.and_lt_two_pow vx.toNat hy
    simp only [eval, total, UInt8.toNat_and]
    omega
  | xor =>
    have small := Nat.xor_lt_two_pow hx hy
    simp only [eval, total, UInt8.toNat_xor]
    omega
  | add =>
    simp only [eval, total, UInt8.toNat_add]
    omega
  | sub | subReverse =>
    simp only [eval, total, UInt8.toNat_sub]
    omega
  | shiftRight =>
    have bound := (if shiftsVy then vy else vx).toNat_lt
    have half : ((if shiftsVy then vy else vx) >>> 1).toNat =
        (if shiftsVy then vy else vx).toNat / 2 := by
      rw [UInt8.toNat_shiftRight]
      exact Nat.shiftRight_eq_div_pow _ 1
    simp only [eval, total, source_toNat, half]
    omega
  | shiftLeft =>
    have double : ((if shiftsVy then vy else vx) <<< 1).toNat =
        (if shiftsVy then vy else vx).toNat * 2 % 0x100 := by
      rw [UInt8.toNat_shiftLeft]
      exact congrArg (· % 2 ^ 8) (Nat.shiftLeft_eq _ 1)
    simp only [eval, total, source_toNat, double]
    omega

/-- An operation that has a flag writes the one that its operands call for; the others write none. -/
theorem flag_eval : (op.eval shiftsVy vx vy).2 =
    if op.setsFlag then some (op.raisesFlag shiftsVy vx.toNat vy.toNat) else none := by
  cases op with
  | assign | or | and | xor => rfl
  | add => rfl
  | sub | subReverse => rfl
  | shiftRight =>
    have bit := masked_bit (if shiftsVy then vy else vx) 0x01 0 rfl
    simp only [eval, setsFlag, raisesFlag, source_toNat, bit, if_true]
  | shiftLeft =>
    have bit := masked_bit (if shiftsVy then vy else vx) 0x80 7 rfl
    simp only [eval, setsFlag, raisesFlag, source_toNat, bit, if_true]

end AluOp

namespace Registers

variable (r : Registers) (shiftsVy : Bool) (op : AluOp) (x y k : Register)

theorem get_combine : (r.combine shiftsVy op x y).get k =
    if op.setsFlag ∧ k = .flag then
      if op.raisesFlag shiftsVy (r.get x).toNat (r.get y).toNat then 1 else 0
    else if k = x then (op.eval shiftsVy (r.get x) (r.get y)).1
    else r.get k := by
  have flag := op.flag_eval shiftsVy (r.get x) (r.get y)
  unfold combine
  generalize op.eval shiftsVy (r.get x) (r.get y) = evaluated at flag ⊢
  obtain ⟨b, written⟩ := evaluated
  cases sets : op.setsFlag with
  | false =>
    obtain rfl : written = none := by simpa [sets] using flag
    simp [get_set, eq_comm (a := k)]
  | true =>
    obtain rfl : written = some _ := by simpa [sets] using flag
    simp [setFlag, get_set, eq_comm (a := k)]

theorem combine_only : r.combine shiftsVy op x y = { r with v := (r.combine shiftsVy op x y).v } := by
  unfold combine
  split <;> rfl

end Registers

namespace Chip

/-- The law of arithmetic. Whatever registers `X` and `Y` name, both operands are their values from before the
instruction. An operation that has a flag leaves the flag in `VF`, even if `X` names it; otherwise `VX` holds the
total modulo `0x100`; and every other register, with the rest of the machine, is as it was. -/
theorem arithmetic_of_old_values (c : Chip) (wait : KeyWait) (op : AluOp) (x y : Register) :
    let shiftsVy := c.dialect.shiftsVy
    let vx := (c.v x).toNat
    let vy := (c.v y).toNat
    ∃ v, let after : Registers := { c.registers with v }
      c.execute wait (.alu op x y) = ⟨{ c with registers := after }.move .stay, .ok .quiet⟩ ∧
      ∀ k, ((after.get k).toNat : Int) =
        if op.setsFlag ∧ k = .flag then if op.raisesFlag shiftsVy vx vy then 1 else 0
        else if k = x then op.total shiftsVy vx vy % 0x100
        else (c.v k).toNat := by
  intro shiftsVy vx vy
  refine ⟨(c.registers.combine shiftsVy op x y).v, ?_⟩
  rw [← Registers.combine_only]
  refine ⟨?_, ?_⟩
  · rw [execute_of_completes (.alu op x y), combine_registers]
  · intro k
    rw [Registers.get_combine]
    by_cases flag : op.setsFlag ∧ k = .flag
    · rw [if_pos flag, if_pos flag]
      exact apply_ite (fun b : UInt8 => (b.toNat : Int)) _ _ _
    · rw [if_neg flag, if_neg flag]
      by_cases target : k = x
      · rw [if_pos target, if_pos target]
        exact op.toNat_eval _ _ _
      · rw [if_neg target, if_neg target]
        rfl

-- the one operand and the target are `VF`: the carry of the old values is what stays
example : ((⟨.replicate 16 0x80, 0, 0⟩ : Registers).combine false .add .flag .flag).get .flag = 1 := by
  decide

end Chip
end ChipEight
