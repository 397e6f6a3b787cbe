import ChipEight.Proofs.Simulation
import ChipEight.Proofs.Start
import Mathlib.Tactic.IntervalCases

/-! What the outside does commutes with what the program does, but for the few instructions that look at a
timer or a key or set one. Two orders of the same steps and the same outside events come to the same thing
as long as no step stands on different sides of an event that its word minds. -/
namespace ChipEight

namespace Stimulus

def onTimers : Stimulus → Timers → Timers
  | .tick, t => t.tick
  | .setDelay b, t => t.setDelay b
  | .setSound b, t => t.setSound b
  | .key _, t => t

def onKeypad : Stimulus → Keypad → Keypad
  | .key event, p => p.after event
  | _, p => p

end Stimulus

/-- The words whose instruction looks at what an outside event changes, or sets it. -/
def Opcode.Minds (w : Opcode) : Stimulus → Prop
  | .tick => w.IsMisc 0x07 ∨ w.IsMisc 0x15 ∨ w.IsMisc 0x18
  | .setDelay _ => w.IsMisc 0x07 ∨ w.IsMisc 0x15
  | .setSound _ => w.IsMisc 0x18
  | .key _ => w.family = 0xE ∧ w.nn ∈ [0x9E, 0xA1] ∨ w.IsMisc 0x0A

instance (w : Opcode) : (stimulus : Stimulus) → Decidable (w.Minds stimulus)
  | .tick => inferInstanceAs (Decidable (_ ∨ _))
  | .setDelay _ => inferInstanceAs (Decidable (_ ∨ _))
  | .setSound _ => inferInstanceAs (Decidable (w.IsMisc 0x18))
  | .key _ => inferInstanceAs (Decidable (_ ∨ _))

namespace Turn

/-- The outside events among the turns. -/
def events : List Turn → List Stimulus
  | [] => []
  | .outside stimulus :: rest => stimulus :: events rest
  | .step _ :: rest => events rest

/-- The waits of the steps among the turns. -/
def waits : List Turn → List KeyWait
  | [] => []
  | .outside _ :: rest => waits rest
  | .step wait :: rest => wait :: waits rest

/-- How many events happen before step `k`, counted from zero. -/
def lead : List Turn → Nat → Nat
  | [], _ => 0
  | .outside _ :: rest, k => lead rest k + 1
  | .step _ :: _, 0 => 0
  | .step _ :: rest, k + 1 => lead rest k

theorem events_early (early : List Stimulus) (turns : List Turn) :
    events (early.map .outside ++ turns) = early ++ events turns := by
  induction early with
  | nil => rfl
  | cons stimulus rest ih => exact congrArg (stimulus :: ·) ih

theorem waits_early (early : List Stimulus) (turns : List Turn) :
    waits (early.map .outside ++ turns) = waits turns := by
  induction early with
  | nil => rfl
  | cons stimulus rest ih => exact ih

theorem lead_early (early : List Stimulus) (turns : List Turn) (k : Nat) :
    lead (early.map .outside ++ turns) k = early.length + lead turns k := by
  induction early with
  | nil => exact (Nat.zero_add _).symm
  | cons stimulus rest ih =>
    have next := congrArg (· + 1) ih
    exact next.trans (Nat.add_right_comm _ _ _)

end Turn

/-- Two orders of the same steps, which have these words, and the same events. No step is moved across an
event that its word minds: event `j` is before step `k` in both orders or in neither. -/
structure Reordered (words : List Opcode) (left right : List Turn) : Prop where
  events : Turn.events left = Turn.events right
  steps : (Turn.waits left).length = (Turn.waits right).length
  /-- A wait matters to the words that wait only. -/
  waits : ∀ (k : Nat) (w : Opcode), words[k]? = some w → w.IsMisc 0x0A →
    (Turn.waits left)[k]? = (Turn.waits right)[k]?
  calm : ∀ (k j : Nat) (w : Opcode) (stimulus : Stimulus), words[k]? = some w →
    (Turn.events left)[j]? = some stimulus → w.Minds stimulus →
    (j < Turn.lead left k ↔ j < Turn.lead right k)

namespace Reordered

variable {words : List Opcode} {left right : List Turn} {w : Opcode}

theorem symm (h : Reordered words left right) : Reordered words right left where
  events := h.events.symm
  steps := h.steps.symm
  waits k w step awaits := (h.waits k w step awaits).symm
  calm k j w stimulus step event minds :=
    (h.calm k j w stimulus step (h.events ▸ event) minds).symm

/-- Both orders begin with the same event. -/
theorem tail {stimulus stimulus' : Stimulus}
    (h : Reordered words (.outside stimulus :: left) (.outside stimulus' :: right)) :
    stimulus = stimulus' ∧ Reordered words left right := by
  obtain ⟨same, events⟩ := List.cons.inj h.events
  refine ⟨same, events, h.steps, h.waits, fun k j w other step event minds => ?_⟩
  have sides := h.calm k (j + 1) w other step event minds
  rw [Turn.lead, Turn.lead] at sides
  omega

/-- One order begins with a step, the other with events before it. -/
theorem step {early : List Stimulus} {wait wait' : KeyWait}
    (h : Reordered (w :: words) (.step wait :: left) (early.map .outside ++ .step wait' :: right)) :
    (∀ stimulus ∈ early, ¬w.Minds stimulus) ∧ (w.IsMisc 0x0A → wait' = wait) ∧
      Reordered words left (early.map .outside ++ right) := by
  have events := h.events
  have steps := h.steps
  have waits := h.waits
  have calm := h.calm
  simp only [Turn.events_early, Turn.waits_early, Turn.lead_early] at events steps waits calm
  refine ⟨fun stimulus among minds => ?_, fun awaits => ?_, ?_⟩
  · obtain ⟨j, less, found⟩ := List.mem_iff_getElem.mp among
    have event : (Turn.events (.step wait :: left))[j]? = some stimulus := by
      rw [events, List.getElem?_append_left less, List.getElem?_eq_getElem less, found]
    have sides := calm 0 j w stimulus rfl event minds
    simp only [Turn.lead] at sides
    omega
  · exact (Option.some.inj (waits 0 w rfl awaits)).symm
  · constructor
    · rw [Turn.events_early]
      exact events
    · rw [Turn.waits_early]
      exact Nat.succ.inj steps
    · rw [Turn.waits_early]
      exact fun k => waits (k + 1)
    · simp only [Turn.lead_early]
      exact fun k => calm (k + 1)

end Reordered

namespace Chip

/-- The same machine, but for what an outside event does to it. -/
def Moved (stimulus : Stimulus) (c d : Chip) : Prop :=
  d = { c with timers := stimulus.onTimers c.timers, keypad := stimulus.onKeypad c.keypad }

theorem after_eq (c : Chip) (stimulus : Stimulus) : c.after stimulus =
    { c with timers := stimulus.onTimers c.timers, keypad := stimulus.onKeypad c.keypad } := by
  cases stimulus <;> rfl

variable {stimulus : Stimulus} {c d : Chip} {wait wait' : KeyWait} {w : Opcode} {i : Instruction}

namespace Moved

theorem tie : Tie (Moved stimulus) where
  word h := by rw [h]; rfl
  pc h := by rw [h]
  setPc h a := by rw [h]; rfl
  latest h w := by rw [h]; rfl
  drawn h := by rw [h]; rfl

theorem combine (h : Moved stimulus c d) (op : AluOp) (x y : Register) :
    Moved stimulus (c.combine op x y) (d.combine op x y) := by
  subst h
  rw [combine_registers, combine_registers]
  rfl

theorem addIndex (h : Moved stimulus c d) (x : Register) :
    Moved stimulus (c.addIndex x) (d.addIndex x) := by
  subst h
  rw [addIndex_registers, addIndex_registers]
  rfl

theorem passBlock (h : Moved stimulus c d) (x : Register) :
    Moved stimulus (c.passBlock x) (d.passBlock x) := by
  subst h
  rw [passBlock_registers, passBlock_registers]
  rfl

theorem holds (h : Moved stimulus c d) {condition : Condition} (fits : condition.Fits w)
    (calm : ¬w.Minds stimulus) : d.holds condition = c.holds condition := by
  subst h
  cases condition with
  | keyHeld x | keyUp x =>
    obtain ⟨family, low, -⟩ := fits
    cases stimulus with
    | key event => exact absurd (.inl ⟨family, by simp [low]⟩) calm
    | _ => rfl
  | _ => rfl

/-- An instruction whose word does not mind the event. -/
theorem effect (h : Moved stimulus c d) (fits : i.Fits w) (calm : ¬w.Minds stimulus) (wait : KeyWait) :
    Agree (Effect.Tied (Moved stimulus)) (c.effect wait i) (d.effect wait i) := by
  cases i with
  | clear | jump | setIndex | unknown =>
    subst h
    exact .ok ⟨rfl, rfl, rfl⟩
  | ret | call | load | add | random | pointAtGlyph | storeDecimal | jumpOffset =>
    subst h
    exact .bind _ fun _ => .ok ⟨rfl, rfl, rfl⟩
  | draw x y n =>
    subst h
    exact .bind _ fun x => .bind _ fun y => .ok ⟨rfl, rfl, rfl⟩
  | skip condition => exact Tie.skip h (h.holds fits calm)
  | alu op x y => exact .bind _ fun x => .bind _ fun y => .ok ⟨h.combine op x y, rfl, rfl⟩
  | addIndex x => exact .bind _ fun x => .ok ⟨h.addIndex x, rfl, rfl⟩
  | storeBlock x =>
    subst h
    exact .bind _ fun x => .ok ⟨Moved.passBlock rfl x, rfl, rfl⟩
  | loadBlock x =>
    subst h
    exact .bind _ fun x => .ok ⟨Moved.passBlock rfl x, rfl, rfl⟩
  | readDelay x =>
    subst h
    cases stimulus with
    | tick => exact absurd (.inl fits.1) calm
    | setDelay b => exact absurd (.inl fits.1) calm
    | setSound b | key event => exact .bind _ fun _ => .ok ⟨rfl, rfl, rfl⟩
  | setDelay x =>
    subst h
    cases stimulus with
    | tick => exact absurd (.inr (.inl fits.1)) calm
    | setDelay b => exact absurd (.inr fits.1) calm
    | setSound b | key event => exact .bind _ fun _ => .ok ⟨rfl, rfl, rfl⟩
  | setSound x =>
    subst h
    cases stimulus with
    | tick => exact absurd (.inr (.inr fits.1)) calm
    | setSound b => exact absurd fits.1 calm
    | setDelay b | key event => exact .bind _ fun _ => .ok ⟨rfl, rfl, rfl⟩
  | awaitKey x =>
    have keypad : d.keypad = c.keypad := by
      subst h
      cases stimulus with
      | key event => exact absurd (.inr fits.1) calm
      | _ => rfl
    refine tie.awaitKey h keypad (fun y b => ?_) x
    subst h
    rfl

end Moved

/-- An outside event may as well happen after a step that does not mind it. -/
theorem step_after (calm : ¬c.nextOpcode.Minds stimulus) (wait : KeyWait) :
    (c.after stimulus).step wait = ⟨(c.step wait).chip.after stimulus, (c.step wait).result⟩ := by
  have tied : Moved stimulus c (c.after stimulus) := c.after_eq stimulus
  obtain ⟨result, moved⟩ := Moved.tie.step tied
    ((Moved.tie.fetched tied).effect (Instruction.fits_decode c.nextOpcode) calm wait)
  have chip : ((c.after stimulus).step wait).chip = (c.step wait).chip.after stimulus :=
    moved.trans (after_eq _ stimulus).symm
  rw [← chip, result]

theorem nextOpcode_after (c : Chip) (stimulus : Stimulus) :
    (c.after stimulus).nextOpcode = c.nextOpcode := by
  cases stimulus <;> rfl

/-- What a step is to wait for matters to the words that wait only. -/
theorem step_wait (same : c.nextOpcode.IsMisc 0x0A → wait' = wait) : c.step wait' = c.step wait := by
  have effect : c.fetched.effect wait' (.decode c.nextOpcode) =
      c.fetched.effect wait (.decode c.nextOpcode) := by
    have fits := Instruction.fits_decode c.nextOpcode
    cases decoded : Instruction.decode c.nextOpcode with
    | awaitKey x =>
      rw [decoded] at fits
      rw [same fits.1]
    | _ => rfl
  unfold step execute perform
  rw [effect]

theorem step_afterAll (c : Chip) {stimuli : List Stimulus}
    (calm : ∀ stimulus ∈ stimuli, ¬c.nextOpcode.Minds stimulus)
    (same : c.nextOpcode.IsMisc 0x0A → wait' = wait) :
    (c.afterAll stimuli).step wait' =
      ⟨(c.step wait).chip.afterAll stimuli, (c.step wait).result⟩ := by
  induction stimuli generalizing c with
  | nil => exact step_wait same
  | cons stimulus rest ih =>
    obtain ⟨first, later⟩ := List.forall_mem_cons.mp calm
    rw [← c.nextOpcode_after stimulus] at later same
    have next := step_after first wait
    calc ((c.after stimulus).afterAll rest).step wait'
      _ = _ := ih (c.after stimulus) later same
      _ = _ := by rw [next]; rfl

theorem nextOpcode_afterAll (c : Chip) (stimuli : List Stimulus) :
    (c.afterAll stimuli).nextOpcode = c.nextOpcode := by
  induction stimuli generalizing c with
  | nil => rfl
  | cons stimulus rest ih => exact (ih (c.after stimulus)).trans (c.nextOpcode_after stimulus)

/-- A run and another one that is ahead of it by the events `early` end alike. Whichever is behind makes up
for it event by event, and they take a step only together. -/
theorem run_reordered {c : Chip} {words : List Opcode} {early : List Stimulus} {left right : List Turn}
    (h : Reordered words left (early.map .outside ++ right))
    (told : words = (c.takenAll left).map Taken.word ∨
      words = ((c.afterAll early).takenAll right).map Taken.word) :
    c.takenAll left = (c.afterAll early).takenAll right ∧
      c.turnAll left = (c.afterAll early).turnAll right := by
  match left, right, early with
  | .outside stimulus :: left, right, [] =>
    -- from here on the other one is behind
    have ahead : Reordered words right ([stimulus].map Turn.outside ++ left) := h.symm
    obtain ⟨steps, ends⟩ := run_reordered (c := c) ahead told.symm
    exact ⟨steps.symm, ends.symm⟩
  | .outside stimulus :: left, right, _ :: early =>
    obtain ⟨rfl, later⟩ := h.tail
    exact run_reordered (c := c.after stimulus) later told
  | left, .outside stimulus :: right, early =>
    have further : early.map .outside ++ .outside stimulus :: right =
        (early ++ [stimulus]).map .outside ++ right := by
      rw [List.map_append, List.append_assoc]
      rfl
    have behind : c.afterAll (early ++ [stimulus]) = (c.afterAll early).after stimulus :=
      List.foldl_append
    rw [further] at h
    have next := run_reordered (c := c) h
    rw [behind] at next
    exact next told
  | .step wait :: left, .step wait' :: right, early =>
    obtain ⟨words, rfl, rest⟩ : ∃ rest, words = c.nextOpcode :: rest ∧
        (rest = ((c.step wait).chip.takenAll left).map Taken.word ∨
          rest = (((c.afterAll early).step wait').chip.takenAll right).map Taken.word) := by
      rcases told with rfl | rfl
      · exact ⟨_, rfl, .inl rfl⟩
      · refine ⟨_, ?_, .inr rfl⟩
        rw [← c.nextOpcode_afterAll early]
        rfl
    obtain ⟨calm, same, later⟩ := h.step
    have first := c.step_afterAll calm same
    rw [first] at rest
    obtain ⟨steps, ends⟩ := run_reordered later rest
    have word := c.nextOpcode_afterAll early
    refine ⟨?_, ?_⟩
    · simp only [takenAll, taken, first, word, steps]
    · simp only [turnAll, List.foldl_cons, turn, first]
      exact ends
  | [], [], early =>
    have events := h.events
    rw [Turn.events_early] at events
    have none : early = [] := by simpa [Turn.events] using events
    subst none
    exact ⟨rfl, rfl⟩
  | [], .step wait :: right, early =>
    have steps := h.steps
    rw [Turn.waits_early] at steps
    cases steps
  | .step wait :: left, [], early =>
    have steps := h.steps
    rw [Turn.waits_early] at steps
    cases steps
termination_by left.length + right.length

/-- The outside and the program commute. A step and an outside event may change places, whatever the machine
and however the step ends, unless the word minds the event; and two orders of the same steps and events in
which no step has changed sides with an event that it minds take steps that end alike and leave the same
machine. -/
theorem outside_events_commute (c : Chip) :
    (∀ (stimulus : Stimulus) (wait wait' : KeyWait), ¬c.nextOpcode.Minds stimulus →
      (c.nextOpcode.IsMisc 0x0A → wait' = wait) →
      (c.after stimulus).step wait' =
        ⟨(c.step wait).chip.after stimulus, (c.step wait).result⟩) ∧
    ∀ left right : List Turn, Reordered ((c.takenAll left).map Taken.word) left right →
      c.takenAll left = c.takenAll right ∧ c.turnAll left = c.turnAll right := by
  refine ⟨fun stimulus wait wait' calm same => ?_, fun left right order => ?_⟩
  · have alone : ∀ event ∈ [stimulus], ¬c.nextOpcode.Minds event := List.forall_mem_singleton.mpr calm
    have swap := c.step_afterAll alone same
    exact swap
  · have ahead : Reordered ((c.takenAll left).map Taken.word) left
        (([] : List Stimulus).map Turn.outside ++ right) := order
    exact run_reordered ahead (.inl rfl)

/-- A key press before or after a read of the delay timer, a tick before or after a question for a key. -/
theorem press_passes_timer_read :
    let c := boot ⟨"READER", [0xF1, 0x07, 0x62, 0x05, 0xE2, 0x9E]⟩ .standard (.cycle [])
    let left : List Turn := [.outside (.setDelay 9), .step ⟨0⟩, .step ⟨0⟩,
      .outside (.key (.press 5)), .step ⟨1⟩, .outside .tick]
    let right : List Turn := [.outside (.setDelay 9), .outside (.key (.press 5)), .step ⟨1⟩,
      .outside .tick, .step ⟨1⟩, .step ⟨1⟩]
    (¬c.nextOpcode.Minds (.key (.press 5)) ∧ ¬c.nextOpcode.IsMisc 0x0A) ∧
    Reordered ((c.takenAll left).map Taken.word) left right ∧
    (c.after (.key (.press 5))).step ⟨1⟩ =
      ⟨(c.step ⟨0⟩).chip.after (.key (.press 5)), (c.step ⟨0⟩).result⟩ ∧
    (c.takenAll left = c.takenAll right ∧ c.turnAll left = c.turnAll right) := by
  intro c left right
  obtain ⟨calm, other, words⟩ : ¬c.nextOpcode.Minds (.key (.press 5)) ∧
      ¬c.nextOpcode.IsMisc 0x0A ∧
      (c.takenAll left).map Taken.word = [0xF107, 0x6205, 0xE29E] := by
    decide +kernel
  have order : Reordered ((c.takenAll left).map Taken.word) left right := by
    rw [words]
    refine ⟨rfl, rfl, fun k w step awaits => ?_, fun k j w stimulus step event minds => ?_⟩
    · have few : k < 3 := (List.getElem?_eq_some_iff.mp step).1
      interval_cases k <;> (cases step; exact absurd awaits (by decide))
    · have few : k < 3 := (List.getElem?_eq_some_iff.mp step).1
      have rare : j < 3 := (List.getElem?_eq_some_iff.mp event).1
      interval_cases k <;> interval_cases j <;> (cases step; cases event; revert minds; decide)
  obtain ⟨swap, orders⟩ := outside_events_commute c
  exact ⟨⟨calm, other⟩, order, swap _ ⟨0⟩ ⟨1⟩ calm fun awaits => absurd awaits other,
    orders left right order⟩

end Chip
end ChipEight
