import ChipEight.Proofs.Lockstep
import ChipEight.Proofs.Session.Moves
import ChipEight.Proofs.Start

/-! A session that several callers quit. A quit is two actions, the request and then the closing of the
keypad, and so is its taking back at the end of a run; any action of another party may fall between the
two. What the run takes back is whole unless it does so while a call has asked and not closed the keypad
yet. Such a call is torn: its second half outlasts the run that its first half ended. -/
namespace ChipEight

/-- What happens in a session whose keypad is closed by quits only. -/
inductive Act where
  | begin
  | proceed
  /-- A caller makes its request. -/
  | request
  /-- A caller that has made its request closes the keypad. -/
  | shut
  | outside (stimulus : Stimulus) (other : stimulus ≠ .key .close)
  deriving DecidableEq

structure Shared where
  session : Session
  /-- The calls that have made their request and not closed the keypad yet. -/
  halfway : Nat
  /-- Whether there were any when a run last took the request back. -/
  torn : Bool

namespace Shared

def around (c : Chip) : Shared := ⟨.around c, 0, false⟩

def act (t : Shared) : Act → Shared
  | .begin => { t with session := t.session.move .begin }
  | .proceed =>
    { t with
      session := t.session.proceed
      torn := match t.session.phase with
        | .clearing _ => t.halfway != 0
        | _ => t.torn }
  | .request => { t with session := t.session.after .requestQuit, halfway := t.halfway + 1 }
  | .shut =>
    if t.halfway = 0 then t
    else { t with
      session := t.session.after (.stimulus (.key .close))
      halfway := t.halfway - 1 }
  | .outside stimulus _ => { t with session := t.session.after (.stimulus stimulus) }

def actAll (t : Shared) (acts : List Act) : Shared := acts.foldl act t

/-- No call and no run is going on. -/
def AtRest (t : Shared) : Prop := t.halfway = 0 ∧ ∃ last, t.session.phase = .idle last

/-- Whoever is halfway has a request that stands, and so has whoever closed the keypad, unless the run is
about to open it. -/
structure Whole (t : Shared) : Prop where
  halfway : t.halfway ≠ 0 → t.session.quitRequested = true
  closed : t.session.chip.keypad.closed = true →
    t.session.quitRequested = true ∨ ∃ e, t.session.phase = .reopening e

end Shared

theorem Chip.step_keypad (c : Chip) (wait : KeyWait) : (c.step wait).chip.keypad = c.keypad :=
  (step_lockstep (c := c) rfl rfl).2.keypad

/-- The actions of a run: it clears the request, it opens the keypad, or it leaves both alone. -/
theorem Session.Proceeds.latch {s u : Session} (rule : Proceeds s u) :
    (∃ e, s.phase = .clearing e ∧ u = { s with quitRequested := false, phase := .reopening e }) ∨
    (∃ e, s.phase = .reopening e ∧
      u = { s with chip := s.chip.after (.key .reopen), phase := .idle (some e) }) ∨
    ((∀ e, s.phase ≠ .clearing e) ∧ (∀ e, s.phase ≠ .reopening e) ∧
      u.quitRequested = s.quitRequested ∧ u.chip.keypad = s.chip.keypad) := by
  cases rule with
  | clear phase => exact .inl ⟨_, phase, rfl⟩
  | reopen phase => exact .inr (.inl ⟨_, phase, rfl⟩)
  | step next steps =>
    refine .inr (.inr ⟨?_, ?_, rfl, s.chip.step_keypad _⟩)
    all_goals
      intro e phase
      simp [wait?, phase] at next
  | _ phase => exact .inr (.inr ⟨by simp [phase], by simp [phase], rfl, rfl⟩)

/-- Nothing from outside but the closing itself closes the keypad. -/
theorem Chip.closed_of_after {c : Chip} {stimulus : Stimulus} (other : stimulus ≠ .key .close)
    (closed : (c.after stimulus).keypad.closed = true) : c.keypad.closed = true := by
  cases stimulus with
  | tick | setDelay b | setSound b => exact closed
  | key event =>
    change (c.keypad.after event).closed = true at closed
    cases event with
    | press k =>
      simp only [Keypad.after, Keypad.press] at closed
      split at closed <;> exact closed
    | release k =>
      simp only [Keypad.after, Keypad.release] at closed
      split at closed <;> exact closed
    | releaseAll => exact closed
    | close => contradiction
    | reopen => simp [Keypad.after, Keypad.reopen] at closed

theorem Session.closed_of_after {s : Session} {stimulus : Stimulus} (other : stimulus ≠ .key .close)
    (closed : (s.after (.stimulus stimulus)).chip.keypad.closed = true) :
    s.chip.keypad.closed = true := by
  obtain reached | still := (s.after_stimulus stimulus).2
  · rw [reached] at closed
    exact Chip.closed_of_after other closed
  · rwa [still] at closed

namespace Shared

variable {c : Chip} {t : Shared}

theorem Whole.stands (h : t.Whole) (closed : t.session.chip.keypad.closed = true)
    (other : ∀ e, t.session.phase ≠ .reopening e) : t.session.quitRequested = true := by
  obtain stands | ⟨e, phase⟩ := h.closed closed
  · exact stands
  · exact absurd phase (other e)

theorem whole_around (fresh : c.keypad.closed = false) : (around c).Whole where
  halfway busy := absurd rfl busy
  closed closed := by
    change c.keypad.closed = true at closed
    rw [fresh] at closed
    contradiction

/-- One action of a run. What it clears is the request of nobody who is halfway. -/
theorem whole_proceed (h : t.torn = false → t.Whole) (intact : (t.act .proceed).torn = false) :
    (t.act .proceed).Whole := by
  rcases t.session.proceeds.latch with ⟨e, phase, run⟩ | ⟨e, phase, run⟩ |
    ⟨clearing, reopening, asked, keypad⟩
  · -- The run clears the request. That nobody is halfway is all that is left of the past.
    have nobody : t.halfway = 0 := by simpa [act, phase] using intact
    refine ⟨fun busy => absurd nobody busy, fun _ => .inr ⟨e, ?_⟩⟩
    change t.session.proceed.phase = _
    rw [run]
  · -- The run opens the keypad; a request that came since the clearing stands.
    have whole : t.Whole := h (by simpa [act, phase] using intact)
    refine ⟨fun busy => ?_, fun closed => ?_⟩
    · change t.session.proceed.quitRequested = true
      rw [run]
      exact whole.halfway busy
    · change t.session.proceed.chip.keypad.closed = true at closed
      rw [run] at closed
      contradiction
  · have whole : t.Whole := by
      refine h ?_
      rw [← intact]
      change t.torn = match t.session.phase with
        | .clearing _ => t.halfway != 0
        | _ => t.torn
      split
      · next e phase => exact absurd phase (clearing e)
      · rfl
    refine ⟨fun busy => asked.trans (whole.halfway busy), fun closed => .inl (asked.trans ?_)⟩
    change t.session.proceed.chip.keypad.closed = true at closed
    rw [keypad] at closed
    exact whole.stands closed reopening

/-- One action of anybody. -/
theorem whole_act (h : t.torn = false → t.Whole) (a : Act) (intact : (t.act a).torn = false) :
    (t.act a).Whole := by
  cases a with
  | proceed => exact whole_proceed h intact
  | begin =>
    have whole := h intact
    obtain ⟨last, idle, run⟩ | run := t.session.move_begin_cases
    · refine ⟨fun busy => ?_, fun closed => ?_⟩
      · change (t.session.move .begin).quitRequested = true
        rw [run]
        exact whole.halfway busy
      · change (t.session.move .begin).chip.keypad.closed = true at closed
        change (t.session.move .begin).quitRequested = true ∨ _
        rw [run] at closed ⊢
        exact .inl (whole.stands closed (by simp [idle]))
    · have still : t.act .begin = t := by rw [act, run]
      rwa [still]
  | request => exact ⟨fun _ => rfl, fun _ => .inl rfl⟩
  | shut =>
    rw [act] at intact ⊢
    split
    · next nobody =>
      rw [if_pos nobody] at intact
      exact h intact
    · next busy =>
      rw [if_neg busy] at intact
      -- The request of whoever closes the keypad has not been cleared in between.
      have stands := (h intact).halfway busy
      exact ⟨fun _ => stands, fun _ => .inl stands⟩
  | outside stimulus other =>
    have whole := h intact
    have asked := (t.session.after_stimulus stimulus).1
    have phase := t.session.after_phase (.stimulus stimulus)
    refine ⟨fun busy => asked.trans (whole.halfway busy), fun closed => ?_⟩
    change (t.session.after _).quitRequested = true ∨ ∃ e, (t.session.after _).phase = _
    rw [asked, phase]
    exact whole.closed (Session.closed_of_after other closed)

theorem whole_actAll (h : t.torn = false → t.Whole) (acts : List Act)
    (intact : (t.actAll acts).torn = false) : (t.actAll acts).Whole := by
  induction acts generalizing t with
  | nil => exact h intact
  | cons a rest ih => exact ih (whole_act h a) intact

/-- All callers that are halfway finish, while nothing else happens. -/
theorem actAll_shut (t : Shared) : t.actAll (List.replicate t.halfway .shut) =
    { t with
      session := if t.halfway = 0 then t.session else t.session.after (.stimulus (.key .close))
      halfway := 0 } := by
  obtain ⟨session, n, torn⟩ := t
  induction n generalizing session with
  | zero => rfl
  | succ n ih =>
    have first : (⟨session, n + 1, torn⟩ : Shared).act .shut =
        ⟨session.after (.stimulus (.key .close)), n, torn⟩ := rfl
    change ((⟨session, n + 1, torn⟩ : Shared).act .shut).actAll (List.replicate n .shut) = _
    rw [first, ih]
    cases n <;> rfl

/-- What becomes of a run that clears the request while callers are halfway. -/
theorem clearing_tears {e : Ending} (clearing : t.session.phase = .clearing e) (busy : t.halfway ≠ 0) :
    let u := t.actAll (.proceed :: .proceed :: List.replicate t.halfway .shut)
    u.AtRest ∧ u.session.chip.keypad.closed = true ∧ u.session.quitRequested = false := by
  let r := (t.act .proceed).act .proceed
  have left : r.halfway = t.halfway := rfl
  have ended : r.session.phase = .idle e ∧ r.session.quitRequested = false := by
    simp [r, act, Session.proceed, clearing]
  change (r.actAll (List.replicate r.halfway .shut)).AtRest ∧
    (r.actAll (List.replicate r.halfway .shut)).session.chip.keypad.closed = true ∧
    (r.actAll (List.replicate r.halfway .shut)).session.quitRequested = false
  rw [actAll_shut, left, if_neg busy]
  exact ⟨⟨rfl, e, ended.1⟩, rfl, ended.2⟩

/-- A quit is taken back as a whole as long as no caller is halfway when a run clears the request: at rest
the keypad is closed under a standing quit only, and so it is in a key wait. If a caller is halfway then and
the run ends before the caller goes on, the keypad is closed at rest with no quit standing. -/
theorem quit_taken_back {c : Chip} (fresh : c.keypad.closed = false) (acts : List Act) :
    let t := (around c).actAll acts
    (t.torn = false →
      (t.AtRest → t.session.chip.keypad.closed = true → t.session.quitRequested = true) ∧
      ∀ wait, t.session.phase = .awaiting wait → t.session.chip.keypad.closed = true →
        t.session.quitRequested = true) ∧
    ∀ e, t.session.phase = .clearing e → t.halfway ≠ 0 →
      let u := t.actAll (.proceed :: .proceed :: List.replicate t.halfway .shut)
      u.AtRest ∧ u.session.chip.keypad.closed = true ∧ u.session.quitRequested = false := by
  intro t
  refine ⟨fun intact => ?_, fun e clearing busy => clearing_tears clearing busy⟩
  have whole : t.Whole := whole_actAll (fun _ => whole_around fresh) acts intact
  refine ⟨fun ⟨_, last, idle⟩ closed => ?_, fun wait waits closed => ?_⟩
  · exact whole.stands closed (by simp [idle])
  · exact whole.stands closed (by simp [waits])

/-- A program that waits for a key and draws. -/
def keyed : Chip := .boot ⟨"KEYED", [0xF0, 0x0A, 0x00, 0xE0]⟩ .standard (.cycle [])

/-- A whole quit ends the wait of the first run, another one stands after it; and a run that clears its
request while a second caller is halfway. -/
theorem keyed_quits :
    let t := (around keyed).actAll (List.flatten [[.begin], .replicate 2 .proceed, [.request, .shut],
      .replicate 5 .proceed, [.request, .shut]])
    let r := (around keyed).actAll (.request :: .shut :: .request :: .begin :: .replicate 3 .proceed)
    keyed.keypad.closed = false ∧
    (t.torn = false ∧ t.session.phase = .idle (some .interrupted) ∧ t.halfway = 0 ∧
      t.session.chip.keypad.closed = true ∧ t.session.quitRequested = true) ∧
    (r.session.phase = .clearing .quit ∧ r.halfway = 1 ∧
      (r.actAll [.proceed, .proceed, .shut]).session.quitRequested = false) := by
  intro t r
  have fresh : keyed.keypad.closed = false := rfl
  obtain ⟨⟨intact, idle, nobody, closed⟩, clearing, one⟩ :
      (t.torn = false ∧ t.session.phase = .idle (some .interrupted) ∧ t.halfway = 0 ∧
        t.session.chip.keypad.closed = true) ∧
      r.session.phase = .clearing .quit ∧ r.halfway = 1 := by
    decide +kernel
  have law := (quit_taken_back fresh _).1 intact
  have stands := law.1 ⟨nobody, _, idle⟩ closed
  have late := (quit_taken_back fresh _).2 _ clearing (by rw [one]; decide)
  exact ⟨fresh, ⟨intact, idle, nobody, closed, stands⟩, clearing, one, late.2.2⟩

/-- A call that is halfway when the first run clears the request closes the keypad on a session at rest,
and the next run's key wait is called off by a quit that was taken back. -/
theorem torn_quit_outlasts_run :
    let t := (around keyed).actAll (List.flatten [[.request, .shut, .request, .begin],
      .replicate 5 .proceed, [.shut]])
    let next := t.actAll (.begin :: .replicate 3 .proceed)
    t.AtRest ∧ t.session.chip.keypad.closed = true ∧ t.session.quitRequested = false ∧
    next.session.chip.awaitsKey = true ∧ next.session.phase = .stopping .interrupted := by
  intro t next
  obtain ⟨nobody, idle, rest⟩ : t.halfway = 0 ∧ t.session.phase = .idle (some .quit) ∧
      t.session.chip.keypad.closed = true ∧ t.session.quitRequested = false ∧
      next.session.chip.awaitsKey = true ∧ next.session.phase = .stopping .interrupted := by
    decide +kernel
  exact ⟨⟨nobody, _, idle⟩, rest⟩

end Shared
end ChipEight
