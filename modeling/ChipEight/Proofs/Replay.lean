import ChipEight.Proofs.Lockstep
import ChipEight.Proofs.Start

/-! Replay. A program's way is fixed by what its steps are told: the delay timer where it is read, the
key that is asked for, the end of a key wait, the random byte that is drawn. Whatever else happens to
timers and keys, and whatever else the random bytes are, a second machine that is told the same goes the
same way. -/
namespace ChipEight

/-- One step of a schedule: what happens up to it, its key wait included, and the wait it looks at. -/
structure Round where
  before : List Stimulus
  wait : KeyWait
  deriving DecidableEq, Repr

namespace Chip

/-- The machine after so many steps of a schedule. -/
def play (c : Chip) (schedule : Nat → Round) : Nat → Chip
  | 0 => c
  | k + 1 => (((c.play schedule k).afterAll (schedule k).before).step (schedule k).wait).chip

/-- The machine about to take step `k`, counted from zero. -/
def atStep (c : Chip) (schedule : Nat → Round) (k : Nat) : Chip :=
  (c.play schedule k).afterAll (schedule k).before

/-- How step `k` ends. -/
def resultAt (c : Chip) (schedule : Nat → Round) (k : Nat) : Except Halt Signal :=
  ((c.atStep schedule k).step (schedule k).wait).result

/-- What step `k` is told. -/
def noticeAt (c : Chip) (schedule : Nat → Round) (k : Nat) : Notice :=
  (c.atStep schedule k).notice (schedule k).wait

theorem after_inside (c : Chip) (stimulus : Stimulus) : (c.after stimulus).inside = c.inside := by
  cases stimulus <;> rfl

theorem afterAll_inside (c : Chip) (stimuli : List Stimulus) :
    (c.afterAll stimuli).inside = c.inside := by
  induction stimuli generalizing c with
  | nil => rfl
  | cons stimulus rest ih => exact (ih _).trans (c.after_inside stimulus)

variable {c d : Chip}

theorem atStep_inside {left right : Nat → Round} {k : Nat}
    (same : (c.play left k).inside = (d.play right k).inside) :
    (c.atStep left k).inside = (d.atStep right k).inside := by
  rw [atStep, atStep, afterAll_inside, afterAll_inside, same]

/-- Two machines that are the same inside and told the same, wherever they execute the same word, are
still the same inside. -/
theorem play_inside (same : c.inside = d.inside) (left right : Nat → Round) (n : Nat)
    (told : ∀ k < n, (c.atStep left k).nextOpcode = (d.atStep right k).nextOpcode →
      c.noticeAt left k = d.noticeAt right k) :
    (c.play left n).inside = (d.play right n).inside := by
  induction n with
  | zero => exact same
  | succ n ih =>
    have before := atStep_inside (ih fun k less => told k (Nat.lt_succ_of_lt less))
    have word := nextOpcode_same before
    exact (step_lockstep before (told n n.lt_succ_self word)).2.inside

/-- The replay law. Two machines with the same registers, memory, stack, picture and dialect run under
any two schedules of ticks, timer settings and key events and with any two sources of random bytes. As
long as their steps are told the same, the steps end the same way and leave the same inside. -/
theorem replay_lockstep (same : c.inside = d.inside) (left right : Nat → Round) (n : Nat)
    (told : ∀ k < n, (c.atStep left k).nextOpcode = (d.atStep right k).nextOpcode →
      c.noticeAt left k = d.noticeAt right k) :
    ∀ k < n, c.resultAt left k = d.resultAt right k ∧
      (c.play left (k + 1)).inside = (d.play right (k + 1)).inside := by
  intro k less
  have earlier (m : Nat) (bound : m ≤ n) : (c.play left m).inside = (d.play right m).inside :=
    play_inside same left right m fun j below => told j (Nat.lt_of_lt_of_le below bound)
  have before := atStep_inside (earlier k (Nat.le_of_lt less))
  have word := nextOpcode_same before
  exact ⟨(step_lockstep before (told k less word)).1, earlier (k + 1) less⟩

/-- A program that reads the delay timer, draws a byte, asks for a key and waits for one. -/
def curious (random : RandomStream) : Chip :=
  boot ⟨"CURIOUS", [0xF3, 0x07, 0xC0, 0xFF, 0xE5, 0x9E, 0x00, 0xE0, 0xF4, 0x0A]⟩ .standard random

theorem curious_replay :
    let c := curious (.cycle [7, 9])
    let d := curious (.cycle [7, 1, 2])
    let left (k : Nat) : Round :=
      ([⟨[.setDelay 3, .tick, .tick], ⟨0⟩⟩, ⟨[.tick], ⟨0⟩⟩, ⟨[.key (.press 0)], ⟨0⟩⟩,
        ⟨[.key (.press 4)], ⟨1⟩⟩] : List Round).getD k ⟨[], ⟨0⟩⟩
    let right (k : Nat) : Round :=
      ([⟨[.setDelay 1, .setSound 9], ⟨0⟩⟩, ⟨[.key (.press 9)], ⟨0⟩⟩, ⟨[.key (.press 0)], ⟨0⟩⟩,
        ⟨[.key (.press 8), .key (.press 4)], ⟨2⟩⟩] : List Round).getD k ⟨[], ⟨0⟩⟩
    (c.inside = d.inside ∧
      (∀ k < 4, (c.atStep left k).nextOpcode = (d.atStep right k).nextOpcode →
        c.noticeAt left k = d.noticeAt right k)) ∧
    ((c.play left 4).timers ≠ (d.play right 4).timers ∧
      (c.play left 4).keypad.held ≠ (d.play right 4).keypad.held) ∧
    (∀ k < 4, c.resultAt left k = d.resultAt right k ∧
      (c.play left (k + 1)).inside = (d.play right (k + 1)).inside) ∧
    (c.play left 4).v 4 = 4 := by
  intro c d left right
  have same : c.inside = d.inside := rfl
  obtain ⟨told, apart, key⟩ :
      (∀ k < 4, (c.atStep left k).nextOpcode = (d.atStep right k).nextOpcode →
        c.noticeAt left k = d.noticeAt right k) ∧
      ((c.play left 4).timers ≠ (d.play right 4).timers ∧
        (c.play left 4).keypad.held ≠ (d.play right 4).keypad.held) ∧
      (c.play left 4).v 4 = 4 := by
    decide +kernel
  exact ⟨⟨same, told⟩, apart, replay_lockstep same left right 4 told, key⟩

end Chip
end ChipEight
