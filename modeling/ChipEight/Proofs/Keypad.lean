import ChipEight.Keypad

/-! Which keys are held. The last event that has to do with a key tells whether it is down; how often keys were
pressed and whether the keypad is closed makes no difference. -/
namespace ChipEight

/-- What an event tells of a key: that it is down, that it is up, or nothing. -/
def KeyEvent.tells (k : Key) : KeyEvent → Option Bool
  | .press j => if j = k.val then some true else none
  | .release j => if j = k.val then some false else none
  | .releaseAll => some false
  | .close | .reopen => none

namespace Keypad

theorem held_after (p : Keypad) (event : KeyEvent) (k : Key) :
    (p.after event).held.get k = (event.tells k).getD (p.held.get k) := by
  have written {j : Nat} (named : j < 16) (b : Bool) :
      (p.held.set j b).get k = (if j = k.val then some b else none).getD (p.held.get k) := by
    refine (Vector.getElem_set named k.isLt).trans ?_
    split <;> rfl
  have nameless {j : Nat} (none : ¬j < 16) : j ≠ k.val := fun same => none (same ▸ k.isLt)
  cases event with
  | press j =>
    by_cases named : j < 16
    · simpa only [after, press, dif_pos named, KeyEvent.tells] using written named true
    · simp [after, press, named, KeyEvent.tells, nameless named]
  | release j =>
    by_cases named : j < 16
    · simpa only [after, release, dif_pos named, KeyEvent.tells] using written named false
    · simp [after, release, named, KeyEvent.tells, nameless named]
  | releaseAll => exact Vector.getElem_replicate k.isLt
  | close | reopen => rfl

/-- A key is held as the last event says that says anything of it, and as before if there is none. -/
theorem held_afterAll (p : Keypad) (events : List KeyEvent) (k : Key) :
    (p.afterAll events).held.get k = ((events.filterMap (·.tells k)).getLast?).getD (p.held.get k) := by
  induction events generalizing p with
  | nil => rfl
  | cons event rest ih =>
    refine (ih (p.after event)).trans ?_
    rw [held_after, List.filterMap_cons]
    cases event.tells k with
    | none => rfl
    | some b =>
      rw [List.getLast?_cons]
      rfl

end Keypad
end ChipEight
