import ChipEight.File
import ChipEight.Font
import ChipEight.Timers

/-! What is settled before a machine starts: which of the diverging instruction rules hold, how fast
instructions follow each other, and the glyphs. -/
namespace ChipEight

/-- The rules in which programs expect different things. -/
structure Dialect where
  /-- Shifts `8XY6` and `8XYE` take their source from `VY`; otherwise they shift `VX` in place. -/
  shiftsVy : Bool
  /-- Jump `BNNN` adds `VX`, with `X` the high nibble of `NNN`; otherwise it adds `V0`. -/
  jumpAddsVx : Bool
  /-- Blocks `FX55` and `FX65` leave `I` behind the last byte of the block. -/
  blockMovesIndex : Bool
  /-- Sum `FX1E` tells in `VF` whether the sum lies past `0xFFF`. -/
  indexSetsFlag : Bool
  deriving DecidableEq, Repr

def Dialect.standard : Dialect := ⟨false, false, false, true⟩

structure Config where
  rate : Nat
  dialect : Dialect
  font : Font

namespace Config

def standardRate : Nat := 500

def standard : Config := ⟨standardRate, .standard, .builtIn⟩

/-- Nanoseconds per instruction, rounded down; a rate of zero counts as one. -/
def period (c : Config) : Nat := 1_000_000_000 / max c.rate 1

/-- Instructions between two ticks of the timer clock, at least one. However high the rate is, a
machine is taken to manage no more than a thousand. -/
def stepsPerTick (c : Config) : Nat := max 1 (min 1000 (Timers.period / max 1 c.period))

/-- A second has room for as many periods as the rate says, and would not have if they were any longer. -/
theorem period_spec (c : Config) :
    max c.rate 1 * c.period ≤ 1_000_000_000 ∧ 1_000_000_000 < max c.rate 1 * (c.period + 1) := by
  have positive : 0 < max c.rate 1 := Nat.le_max_right ..
  exact ⟨Nat.mul_div_le .., Nat.lt_mul_div_succ _ positive⟩

theorem stepsPerTick_pos (c : Config) : 0 < c.stepsPerTick := Nat.le_max_left ..

theorem stepsPerTick_le (c : Config) : c.stepsPerTick ≤ 1000 :=
  Nat.max_le.mpr ⟨by decide, Nat.min_le_left ..⟩

/-- Between two ticks there is time for all the steps, unless it is a single one, and for no more of them,
unless they are a thousand. -/
theorem stepsPerTick_spec (c : Config) :
    (c.stepsPerTick = 1 ∨ c.stepsPerTick * c.period ≤ Timers.period) ∧
      (c.stepsPerTick = 1000 ∨ Timers.period < (c.stepsPerTick + 1) * max 1 c.period) := by
  have shorter : c.period ≤ max 1 c.period := Nat.le_max_right ..
  have room := Nat.div_mul_le_self Timers.period (max 1 c.period)
  have positive : 0 < max 1 c.period := Nat.le_max_left ..
  have full := Nat.lt_mul_div_succ Timers.period positive
  unfold stepsPerTick
  generalize Timers.period / max 1 c.period = fitting at room full ⊢
  constructor
  · by_cases many : 1 < fitting
    · have fewer : max 1 (min 1000 fitting) ≤ fitting := by omega
      exact .inr (Nat.le_trans (Nat.mul_le_mul fewer shorter) room)
    · exact .inl (by omega)
  · by_cases many : 1000 ≤ fitting
    · exact .inl (by omega)
    · have more : fitting + 1 ≤ max 1 (min 1000 fitting) + 1 := by omega
      rw [Nat.mul_comm] at full
      exact .inr (Nat.lt_of_lt_of_le full (Nat.mul_le_mul_right _ more))

end Config

namespace Font

def ofFile (f : File) : Except ConfigFault Font := do
  let text ← f.readText
  parse text

/-- The font of the file, or the built in one if there is anything wrong with it. -/
def ofFileOrBuiltIn (f : File) : Font :=
  match ofFile f with
  | .ok font => font
  | .error _ => builtIn

end Font
end ChipEight
