/-! The delay and the sound timer. Each counts down by one at every tick of the timer clock and rests
at zero; neither looks at the other. -/
namespace ChipEight

structure Timers where
  delay : UInt8
  sound : UInt8
  deriving DecidableEq

namespace Timers

def rate : Nat := 60

/-- Nanoseconds between two ticks, in whole microseconds. -/
def period : Nat := 1_000_000 / rate * 1_000

/-- So many ticks as the rate says take a second, up to a microsecond each. -/
theorem period_spec : rate * period ≤ 1_000_000_000 ∧ 1_000_000_000 < rate * (period + 1_000) := by
  decide

def zero : Timers := ⟨0, 0⟩

/-- One less, but never below zero. -/
def countDown (b : UInt8) : UInt8 := if b = 0 then 0 else b - 1

def tick (t : Timers) : Timers := ⟨countDown t.delay, countDown t.sound⟩

def setDelay (t : Timers) (b : UInt8) : Timers := { t with delay := b }

def setSound (t : Timers) (b : UInt8) : Timers := { t with sound := b }

/-- A tone is due while the sound timer has not run out. -/
def isSounding (t : Timers) : Bool := decide (0 < t.sound)

theorem toNat_countDown (b : UInt8) : (countDown b).toNat = b.toNat - 1 := by
  unfold countDown
  split
  · next h => subst h; rfl
  · next h =>
    have pos : 1 ≤ b := by
      rw [UInt8.le_iff_toNat_le]
      have := mt (UInt8.toNat_inj (a := b) (b := 0)).mp h
      simp at this ⊢
      omega
    rw [UInt8.toNat_sub_of_le _ _ pos]
    rfl

end Timers
end ChipEight
