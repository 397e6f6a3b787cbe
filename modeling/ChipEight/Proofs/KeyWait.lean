import ChipEight.Keypad
import Mathlib.Algebra.Group.Nat.Defs

/-! Waiting for a key. A wait looks at the keypad now and then, and what it can see there is a counter, the
latest key and whether the keypad is closed. This comes to what has happened since the wait began: it ends
with the key that was pressed last since then, unless it finds the keypad closed. Keys from before, keys that
are let go and numbers that name no key do not end it, and it leaves the keypad as it is. -/
namespace ChipEight

/-- The event is a press of a key that exists. -/
def KeyEvent.hits : KeyEvent → Bool
  | .press k => k < 16
  | _ => false

/-- Among the events the key is the one that is pressed last. -/
def Key.LatestIn (k : Key) (events : List KeyEvent) : Prop :=
  ∃ earlier later, events = earlier ++ .press k :: later ∧ ∀ e ∈ later, e.hits = false

/-- What goes on during a wait. -/
inductive WaitTurn where
  | event (event : KeyEvent)
  /-- The wait looks at the keypad. -/
  | look
  deriving DecidableEq, Repr

/-- The events among the turns. -/
def WaitTurn.events : List WaitTurn → List KeyEvent
  | [] => []
  | .event e :: rest => e :: events rest
  | .look :: rest => events rest

theorem WaitTurn.events_append (turns more : List WaitTurn) :
    events (turns ++ more) = events turns ++ events more := by
  induction turns with
  | nil => rfl
  | cons turn rest ih =>
    cases turn with
    | event e => exact congrArg (e :: ·) ih
    | look => exact ih

/-- The wait ends at the first look that tells it to, with the keypad as it is then. -/
def KeyWait.watch (w : KeyWait) (p : Keypad) : List WaitTurn → Keypad × KeyReply
  | [] => (p, .pending)
  | .event e :: rest => w.watch (p.after e) rest
  | .look :: rest =>
    match w.poll p with
    | .pending => w.watch p rest
    | reply => (p, reply)

namespace Keypad

variable {p : Keypad} {events : List KeyEvent}

theorem afterAll_append (p : Keypad) (events more : List KeyEvent) :
    p.afterAll (events ++ more) = (p.afterAll events).afterAll more := List.foldl_append

theorem after_press (p : Keypad) (k : Key) : (p.after (.press k)).last = some k := by
  rw [after, press, dif_pos k.isLt]

theorem presses_after (p : Keypad) (e : KeyEvent) :
    (p.after e).presses = p.presses + UInt64.ofNat (if e.hits then 1 else 0) := by
  cases e with
  | press k =>
    by_cases h : k < 16
    · simp [after, press, KeyEvent.hits, h]
    · simp [after, press, KeyEvent.hits, h]
  | release k =>
    have same : (p.release k).presses = p.presses := by
      unfold release
      split <;> rfl
    exact same.trans (UInt64.add_zero _).symm
  | releaseAll | close | reopen => exact (UInt64.add_zero _).symm

theorem last_after (p : Keypad) {e : KeyEvent} (other : e.hits = false) :
    (p.after e).last = p.last := by
  cases e with
  | press k =>
    have none : ¬k < 16 := by simpa [KeyEvent.hits] using other
    rw [after, press, dif_neg none]
  | release k =>
    have same : (p.release k).last = p.last := by
      unfold release
      split <;> rfl
    exact same
  | releaseAll | close | reopen => rfl

theorem presses_afterAll (p : Keypad) (events : List KeyEvent) :
    (p.afterAll events).presses = p.presses + UInt64.ofNat (events.countP KeyEvent.hits) := by
  induction events generalizing p with
  | nil => exact (UInt64.add_zero _).symm
  | cons e rest ih =>
    have later : ((p.after e).afterAll rest).presses = _ := ih _
    refine later.trans ?_
    rw [presses_after, List.countP_cons, UInt64.add_assoc, ← UInt64.ofNat_add, Nat.add_comm]

theorem last_afterAll (p : Keypad) (others : ∀ e ∈ events, e.hits = false) :
    (p.afterAll events).last = p.last := by
  induction events generalizing p with
  | nil => rfl
  | cons e rest ih =>
    have first : (p.after e).last = p.last := p.last_after (others e List.mem_cons_self)
    exact (ih _ fun e member => others e (List.mem_cons_of_mem _ member)).trans first

theorem last_of_latest {k : Key} (latest : k.LatestIn events) (p : Keypad) :
    (p.afterAll events).last = some k := by
  obtain ⟨earlier, later, rfl, others⟩ := latest
  rw [afterAll_append]
  exact (last_afterAll _ others).trans (after_press _ k)

/-- The counter is back where it was only if nothing was pressed: it is too wide to come round. -/
theorem presses_same_iff (few : events.countP KeyEvent.hits < 2 ^ 64) :
    (p.afterAll events).presses = p.presses ↔ ∀ e ∈ events, e.hits = false := by
  have counted : events.countP KeyEvent.hits = 0 ↔ ∀ e ∈ events, e.hits = false := by
    simp [List.countP_eq_zero]
  have bound := p.presses.toNat_lt
  rw [presses_afterAll, ← counted, ← UInt64.toNat_inj, UInt64.toNat_add, UInt64.toNat_ofNat']
  omega

end Keypad

/-- Either no key was pressed, or one was pressed last. -/
theorem Key.untouched_or_latest (events : List KeyEvent) :
    (∀ e ∈ events, e.hits = false) ∨ ∃ k : Key, k.LatestIn events := by
  induction events with
  | nil => exact .inl nofun
  | cons e rest ih =>
    obtain untouched | ⟨k, earlier, later, split, others⟩ := ih
    · cases hit : e.hits with
      | false =>
        left
        intro e' member
        rcases List.mem_cons.mp member with rfl | member
        · exact hit
        · exact untouched e' member
      | true =>
        obtain ⟨k, h, rfl⟩ : ∃ k, k < 16 ∧ e = .press k := by
          cases e with
          | press k => exact ⟨k, by simpa [KeyEvent.hits] using hit, rfl⟩
          | _ => contradiction
        exact .inr ⟨⟨k, h⟩, [], rest, rfl, untouched⟩
    · exact .inr ⟨k, e :: earlier, later, by rw [split]; rfl, others⟩

theorem Key.LatestIn.hits {k : Key} {events : List KeyEvent} (latest : k.LatestIn events) :
    ¬∀ e ∈ events, e.hits = false := by
  obtain ⟨earlier, later, rfl, -⟩ := latest
  intro untouched
  have pressed := untouched (.press k) (by simp)
  simp [KeyEvent.hits] at pressed

namespace KeyWait

variable {p : Keypad} {events : List KeyEvent}

/-- The three ways in which a look at the keypad goes. -/
theorem poll_cases (p : Keypad) (few : events.countP KeyEvent.hits < 2 ^ 64) :
    let q := p.afterAll events
    (q.closed = true ∧ p.beginWait.poll q = .cancelled) ∨
    (q.closed = false ∧ (∀ e ∈ events, e.hits = false) ∧ p.beginWait.poll q = .pending) ∨
    (q.closed = false ∧ ∃ k : Key, k.LatestIn events ∧ p.beginWait.poll q = .key k) := by
  intro q
  have counter : q.presses = p.beginWait.seen ↔ _ := Keypad.presses_same_iff few
  cases closed : q.closed with
  | true => exact .inl ⟨rfl, by rw [poll, closed]; rfl⟩
  | false =>
    right
    obtain untouched | ⟨k, latest⟩ := Key.untouched_or_latest events
    · refine .inl ⟨rfl, untouched, ?_⟩
      rw [poll, closed, if_neg Bool.false_ne_true, if_pos (counter.mpr untouched)]
    · refine .inr ⟨rfl, k, latest, ?_⟩
      have moved : q.presses ≠ p.beginWait.seen := fun same => latest.hits (counter.mp same)
      rw [poll, closed, if_neg Bool.false_ne_true, if_neg moved, Keypad.last_of_latest latest p]

theorem poll_eq_cancelled_iff (few : events.countP KeyEvent.hits < 2 ^ 64) :
    p.beginWait.poll (p.afterAll events) = .cancelled ↔ (p.afterAll events).closed = true := by
  obtain ⟨closed, reply⟩ | ⟨closed, -, reply⟩ | ⟨closed, k, -, reply⟩ := poll_cases p few <;>
    simp [closed, reply]

theorem poll_eq_pending_iff (few : events.countP KeyEvent.hits < 2 ^ 64) :
    p.beginWait.poll (p.afterAll events) = .pending ↔
      (p.afterAll events).closed = false ∧ ∀ e ∈ events, e.hits = false := by
  obtain ⟨closed, reply⟩ | ⟨closed, untouched, reply⟩ | ⟨closed, k, latest, reply⟩ := poll_cases p few
  · simp [closed, reply]
  · exact iff_of_true reply ⟨closed, untouched⟩
  · exact iff_of_false (by simp [reply]) fun ⟨_, untouched⟩ => latest.hits untouched

theorem poll_eq_key_iff (few : events.countP KeyEvent.hits < 2 ^ 64) {k : Key} :
    p.beginWait.poll (p.afterAll events) = .key k ↔
      (p.afterAll events).closed = false ∧ k.LatestIn events := by
  obtain ⟨closed, reply⟩ | ⟨closed, untouched, reply⟩ | ⟨closed, j, latest, reply⟩ := poll_cases p few
  · simp [closed, reply]
  · exact iff_of_false (by simp [reply]) fun ⟨_, latest⟩ => latest.hits untouched
  · rw [reply, closed]
    constructor
    · intro same
      cases same
      exact ⟨rfl, latest⟩
    · rintro ⟨-, other⟩
      have last := Keypad.last_of_latest latest p
      rw [Keypad.last_of_latest other p] at last
      cases last
      rfl

/-- A wait that has ended pays no heed to what comes later. -/
theorem watch_append (w : KeyWait) (p : Keypad) (turns more : List WaitTurn) :
    w.watch p (turns ++ more) =
      if (w.watch p turns).2 = .pending then w.watch (w.watch p turns).1 more else w.watch p turns := by
  induction turns generalizing p with
  | nil => rfl
  | cons turn rest ih =>
    cases turn with
    | event e => exact ih (p.after e)
    | look =>
      rw [List.cons_append, watch, watch]
      cases reply : w.poll p with
      | pending => exact ih p
      | key k => rfl
      | cancelled => rfl

theorem watch_look (w : KeyWait) (p : Keypad) : w.watch p [.look] = (p, w.poll p) := by
  rw [watch]
  cases w.poll p <;> rfl

/-- As long as a wait goes on, the keypad is as the events alone leave it. -/
theorem keypad_of_pending {w : KeyWait} {turns : List WaitTurn}
    (pending : (w.watch p turns).2 = .pending) :
    (w.watch p turns).1 = p.afterAll (WaitTurn.events turns) := by
  induction turns generalizing p with
  | nil => rfl
  | cons turn rest ih =>
    cases turn with
    | event e => exact ih pending
    | look =>
      rw [watch] at pending ⊢
      cases reply : w.poll p with
      | pending =>
        rw [reply] at pending
        exact ih pending
      | key k =>
        rw [reply] at pending
        contradiction
      | cancelled =>
        rw [reply] at pending
        contradiction

theorem await_eq_watch (p : Keypad) (events : List KeyEvent) :
    p.await events = p.beginWait.watch p (.look :: events.map .event ++ [.look]) := by
  have later (q : Keypad) : p.beginWait.watch q (events.map .event ++ [.look]) =
      (q.afterAll events, p.beginWait.poll (q.afterAll events)) := by
    induction events generalizing q with
    | nil => exact watch_look _ q
    | cons e rest ih => exact ih (q.after e)
  rw [List.cons_append, watch, later]
  rfl

/-- The law of key waits. At each look of a wait that still goes on, with what has happened since it began:
the wait is called off exactly if the keypad is closed, it ends with a key exactly if the keypad is open and
this key was pressed last, and it goes on exactly if the keypad is open and no key was pressed. It leaves the
keypad to the events. -/
theorem wait_ends_with_latest_key (p : Keypad) (turns : List WaitTurn)
    (few : (WaitTurn.events turns).countP KeyEvent.hits < 2 ^ 64) :
    let wait := p.beginWait
    let whole := .look :: turns
    (∀ before rest, whole = before ++ .look :: rest → (wait.watch p before).2 = .pending →
      let events := WaitTurn.events before
      let q := p.afterAll events
      let looked := wait.watch p (before ++ [.look])
      looked.1 = q ∧
      (looked.2 = .cancelled ↔ q.closed = true) ∧
      (∀ k, looked.2 = .key k ↔ q.closed = false ∧ k.LatestIn events) ∧
      (looked.2 = .pending ↔ q.closed = false ∧ ∀ e ∈ events, e.hits = false) ∧
      (looked.2 ≠ .pending → wait.watch p whole = looked)) ∧
    ((wait.watch p whole).2 = .pending →
      (wait.watch p whole).1 = p.afterAll (WaitTurn.events turns)) ∧
    ∀ events, p.await events = wait.watch p (.look :: events.map .event ++ [.look]) := by
  intro wait whole
  refine ⟨?_, fun pending => keypad_of_pending pending, await_eq_watch p⟩
  intro before rest split pending events q looked
  have fewer : events.countP KeyEvent.hits < 2 ^ 64 := by
    have parts : WaitTurn.events turns = events ++ WaitTurn.events rest :=
      (congrArg WaitTurn.events split).trans (WaitTurn.events_append before _)
    rw [parts, List.countP_append] at few
    omega
  have reached : wait.watch p (before ++ [.look]) = (q, wait.poll q) := by
    rw [watch_append, if_pos pending, watch_look, keypad_of_pending pending]
  rw [show looked = (q, wait.poll q) from reached]
  refine ⟨rfl, poll_eq_cancelled_iff fewer, fun k => poll_eq_key_iff fewer, poll_eq_pending_iff fewer, ?_⟩
  intro ended
  rw [← reached] at ended ⊢
  have front : whole = before ++ [.look] ++ rest := by
    rw [split, List.append_assoc]
    rfl
  rw [front, watch_append, if_neg ended]

/-- Key 1 goes up, a number that names no key goes down; key 7 goes down and up while the keypad is closed for
a moment; key 3 comes too late. The counter is at its end when the wait begins. -/
theorem key_seven_ends_wait :
    let p : Keypad := { Keypad.initial.press 1 with presses := 0xFFFFFFFFFFFFFFFF }
    let before : List WaitTurn := [.look, .event (.release 1), .event (.press 99), .look, .event .close,
      .event (.press 7), .event .reopen, .event (.release 7)]
    let turns : List WaitTurn := before.tail ++ [.look, .event (.press 3)]
    let q := p.afterAll (WaitTurn.events before)
    (WaitTurn.events turns).countP KeyEvent.hits < 2 ^ 64 ∧
    (p.beginWait.watch p before).2 = .pending ∧
    (q.presses = 0 ∧ q.closed = false ∧ q.held.get 7 = false ∧ Key.LatestIn 7 (WaitTurn.events before)) ∧
    p.beginWait.watch p (.look :: turns) = (q, .key 7) := by
  intro p before turns q
  have few : (WaitTurn.events turns).countP KeyEvent.hits < 2 ^ 64 := by decide
  obtain ⟨pending, counter, opened, released⟩ : (p.beginWait.watch p before).2 = .pending ∧
      q.presses = 0 ∧ q.closed = false ∧ q.held.get 7 = false := by
    decide
  have latest : Key.LatestIn 7 (WaitTurn.events before) :=
    ⟨[.release 1, .press 99, .close], [.reopen, .release 7], rfl, by decide⟩
  obtain ⟨looks, -, -⟩ := wait_ends_with_latest_key p turns few
  obtain ⟨there, -, ends, -, rest⟩ := looks before [.event (.press 3)] rfl pending
  have key := (ends 7).mpr ⟨opened, latest⟩
  refine ⟨few, pending, ⟨counter, opened, released, latest⟩, ?_⟩
  rw [rest (by rw [key]; nofun)]
  exact Prod.ext there key

end KeyWait
end ChipEight
