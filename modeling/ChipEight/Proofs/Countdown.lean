import ChipEight.Timers
import Mathlib.Data.List.DropRight

/-! Timers that several handles share. A handle is the place of its timers, and a clone of a handle is the same
place again; what is done through one of them is seen through all. Each of the two counters is a count of its own:
what it holds is what it was set to last, less the ticks since then and never below zero, whatever was done to the
other counter and through whichever handles. -/
namespace ChipEight

inductive Counter where
  | delay
  | sound
  deriving DecidableEq, Repr

/-- What is done to timers. -/
inductive TimerAction where
  | tick
  | set (counter : Counter) (b : UInt8)
  deriving DecidableEq, Repr

namespace TimerAction

/-- What the counter is set to, if it is. -/
def sets? (counter : Counter) : TimerAction → Option UInt8
  | .tick => none
  | .set other b => if other = counter then some b else none

/-- The action has to do with the counter: all but a setting of the other one. -/
def concerns (counter : Counter) : TimerAction → Bool
  | .tick => true
  | .set other _ => other = counter

end TimerAction

/-! ### Both counters -/

namespace Timers

variable (t : Timers) (counter : Counter) (done : List TimerAction)

def count : Counter → UInt8
  | .delay => t.delay
  | .sound => t.sound

def set : Counter → UInt8 → Timers
  | .delay, b => t.setDelay b
  | .sound, b => t.setSound b

/-- One atomic update of a counter. A value that is refused stays. -/
def update (f : UInt8 → Option UInt8) : Timers :=
  match f (t.count counter) with
  | some b => t.set counter b
  | none => t

/-- One less; zero is refused. -/
def oneLess? (b : UInt8) : Option UInt8 := if b = 0 then none else some (b - 1)

/-- The timers after an action. A tick goes on to the second counter even if the first one refuses. -/
def after : TimerAction → Timers
  | .tick => [Counter.delay, .sound].foldl (fun t counter => t.update counter oneLess?) t
  | .set counter b => t.set counter b

def afterAll : Timers := done.foldl after t

theorem after_tick : t.after .tick = t.tick := by
  obtain ⟨delay, sound⟩ := t
  by_cases delay = 0 <;> by_cases sound = 0 <;>
    simp_all [after, update, oneLess?, count, set, setDelay, setSound, tick, countDown]

theorem afterAll_append (more : List TimerAction) :
    t.afterAll (done ++ more) = (t.afterAll done).afterAll more := List.foldl_append

/-- What an action makes of a counter at `b`. -/
def counted (counter : Counter) (b : UInt8) : TimerAction → UInt8
  | .tick => countDown b
  | .set other b' => if other = counter then b' else b

theorem count_after (action : TimerAction) :
    (t.after action).count counter = counted counter (t.count counter) action := by
  cases action with
  | tick =>
    rw [after_tick]
    cases counter <;> rfl
  | set other b => cases other <;> cases counter <;> rfl

/-- Each counter goes its own way. -/
theorem count_afterAll :
    (t.afterAll done).count counter = done.foldl (counted counter) (t.count counter) := by
  induction done generalizing t with
  | nil => rfl
  | cons action rest ih =>
    rw [List.foldl_cons, ← count_after]
    exact ih (t.after action)

theorem foldl_counted_filter (b : UInt8) :
    (done.filter (·.concerns counter)).foldl (counted counter) b =
      done.foldl (counted counter) b := by
  rw [List.foldl_filter]
  congr 1
  funext b action
  cases action with
  | tick => rfl
  | set other b' => by_cases same : other = counter <;> simp [TimerAction.concerns, counted, same]

/-- Actions that agree in what concerns a counter leave it the same. -/
theorem count_afterAll_congr {done done' : List TimerAction}
    (same : done.filter (·.concerns counter) = done'.filter (·.concerns counter)) :
    (t.afterAll done).count counter = (t.afterAll done').count counter := by
  rw [count_afterAll, count_afterAll, ← foldl_counted_filter, same, foldl_counted_filter]

theorem count_afterAll_ticks (n : Nat) (out : t.count counter = 0) :
    (t.afterAll (.replicate n .tick)).count counter = 0 := by
  rw [count_afterAll, out]
  induction n with
  | zero => rfl
  | succ n ih => exact ih

/-- Once a counter is at zero more ticks make no difference to it, also later on. -/
theorem count_afterAll_more_ticks (later : List TimerAction) (n : Nat)
    (out : (t.afterAll done).count counter = 0) :
    (t.afterAll (done ++ .replicate n .tick ++ later)).count counter =
      (t.afterAll (done ++ later)).count counter := by
  rw [afterAll_append, afterAll_append, afterAll_append, count_afterAll, count_afterAll_ticks _ _ _ out,
    count_afterAll, out]

/-- What the counter was set to last, zero if it never was. -/
def lastSet : UInt8 := (done.filterMap (·.sets? counter)).getLastD 0

/-- The ticks since the counter was set last, all of them if it never was. -/
def ticksSince : Nat := (done.rtakeWhile fun action => (action.sets? counter).isNone).count .tick

theorem lastSet_concat (action : TimerAction) :
    lastSet counter (done ++ [action]) = (action.sets? counter).getD (lastSet counter done) := by
  unfold lastSet
  cases set : action.sets? counter <;> simp [set]

theorem ticksSince_concat (action : TimerAction) : ticksSince counter (done ++ [action]) =
    if action.sets? counter = none then ticksSince counter done + [action].count .tick else 0 := by
  unfold ticksSince
  cases set : action.sets? counter <;> simp [set]

/-- A counter holds what it was set to last, less the ticks since then. -/
theorem toNat_count_afterAll : ((zero.afterAll done).count counter).toNat =
    (lastSet counter done).toNat - ticksSince counter done := by
  induction done using List.reverseRecOn with
  | nil => cases counter <;> rfl
  | append_singleton done action ih =>
    have last : (zero.afterAll (done ++ [action])).count counter =
        counted counter ((zero.afterAll done).count counter) action := by
      rw [afterAll_append]
      exact count_after _ _ action
    rw [last, lastSet_concat, ticksSince_concat]
    cases action with
    | tick =>
      rw [counted, toNat_countDown, ih]
      exact Nat.sub_sub _ _ _
    | set other b =>
      by_cases same : other = counter
      · simp [counted, TimerAction.sets?, same]
      · simp [counted, TimerAction.sets?, same, ih]

end Timers

/-! ### Handles -/

/-- All timers there are, and the handles: each is the place of the timers that it refers to. -/
structure TimerBank where
  timers : List Timers
  handles : List Nat
  deriving DecidableEq

/-- What is done with handles, which are told apart by their numbers. -/
inductive HandleAction where
  /-- New timers, both at zero, and a first handle to them. -/
  | create
  | clone (handle : Nat)
  | act (handle : Nat) (action : TimerAction)
  deriving DecidableEq, Repr

namespace TimerBank

def empty : TimerBank := ⟨[], []⟩

/-- The bank after an action. A handle that there is not does nothing. -/
def after (bank : TimerBank) : HandleAction → TimerBank
  | .create => ⟨bank.timers ++ [.zero], bank.handles ++ [bank.timers.length]⟩
  | .clone handle => { bank with handles := bank.handles ++ bank.handles[handle]?.toList }
  | .act handle action =>
    match bank.handles[handle]? with
    | some p => { bank with timers := bank.timers.modify p (·.after action) }
    | none => bank

def afterAll (bank : TimerBank) (actions : List HandleAction) : TimerBank := actions.foldl after bank

/-- What the handle reads, if there is one. -/
def read? (bank : TimerBank) (handle : Nat) (counter : Counter) : Option UInt8 := do
  let t ← bank.timers[← bank.handles[handle]?]?
  return t.count counter

/-- What an action does to the timers at a place. -/
def doneAt (bank : TimerBank) (p : Nat) : HandleAction → List TimerAction
  | .act handle action => if bank.handles[handle]? = some p then [action] else []
  | .create | .clone _ => []

/-- Everything that is done to the timers at a place, through whichever handles. -/
def history (p : Nat) : TimerBank → List HandleAction → List TimerAction
  | _, [] => []
  | bank, action :: rest => bank.doneAt p action ++ history p (bank.after action) rest

variable {bank : TimerBank} {p : Nat}

theorem afterAll_append (bank : TimerBank) (actions more : List HandleAction) :
    bank.afterAll (actions ++ more) = (bank.afterAll actions).afterAll more := List.foldl_append

theorem history_append (p : Nat) (bank : TimerBank) (actions more : List HandleAction) :
    history p bank (actions ++ more) =
      history p bank actions ++ history p (bank.afterAll actions) more := by
  induction actions generalizing bank with
  | nil => rfl
  | cons action rest ih =>
    rw [List.cons_append, history, history, ih, List.append_assoc]
    rfl

/-- Each handle refers to timers, and the timers at each place are what has been done to them. -/
structure Keeps (bank : TimerBank) (done : Nat → List TimerAction) : Prop where
  placed : ∀ p ∈ bank.handles, p < bank.timers.length
  held : ∀ p < bank.timers.length, bank.timers[p]? = some (Timers.zero.afterAll (done p))
  fresh : ∀ p, bank.timers.length ≤ p → done p = []

theorem Keeps.after {done : Nat → List TimerAction} (keeps : Keeps bank done) (action : HandleAction) :
    Keeps (bank.after action) fun p => done p ++ bank.doneAt p action := by
  obtain ⟨placed, held, fresh⟩ := keeps
  cases action with
  | create =>
    simp only [TimerBank.after, doneAt, List.append_nil]
    refine ⟨?_, ?_, ?_⟩
    · intro p member
      rw [List.length_append, List.length_singleton]
      rcases List.mem_append.mp member with old | new
      · exact Nat.lt_succ_of_lt (placed p old)
      · rw [List.mem_singleton.mp new]
        exact Nat.lt_succ_self _
    · intro p inside
      rw [List.length_append, List.length_singleton] at inside
      rcases Nat.lt_succ_iff_lt_or_eq.mp inside with old | rfl
      · rw [List.getElem?_append_left old]
        exact held p old
      · rw [fresh _ (Nat.le_refl _)]
        exact List.getElem?_concat_length
    · intro p beyond
      rw [List.length_append, List.length_singleton] at beyond
      exact fresh p (Nat.le_of_succ_le beyond)
  | clone handle =>
    simp only [TimerBank.after, doneAt, List.append_nil]
    refine ⟨?_, held, fresh⟩
    intro p member
    rcases List.mem_append.mp member with old | copied
    · exact placed p old
    · exact placed p (List.mem_of_getElem? (Option.mem_toList.mp copied))
  | act handle action =>
    cases refers : bank.handles[handle]? with
    | none =>
      have nothing (p : Nat) : done p ++ bank.doneAt p (.act handle action) = done p := by
        simp [doneAt, refers]
      simp only [TimerBank.after, refers, nothing]
      exact ⟨placed, held, fresh⟩
    | some q =>
      have inside := placed q (List.mem_of_getElem? refers)
      simp only [TimerBank.after, doneAt, refers, Option.some.injEq]
      refine ⟨?_, ?_, ?_⟩
      · simpa using placed
      · intro p within
        rw [List.length_modify] at within
        rw [List.getElem?_modify, held p within]
        by_cases here : q = p
        · simp only [if_pos here, Timers.afterAll_append]
          rfl
        · simp only [if_neg here, List.append_nil]
          rfl
      · intro p beyond
        rw [List.length_modify] at beyond
        rw [fresh p beyond, if_neg (by omega)]
        rfl

theorem Keeps.afterAll {done : Nat → List TimerAction} (keeps : Keeps bank done)
    (actions : List HandleAction) :
    Keeps (bank.afterAll actions) fun p => done p ++ history p bank actions := by
  induction actions generalizing bank done with
  | nil =>
    simp only [history, List.append_nil]
    exact keeps
  | cons action rest ih =>
    simp only [history, ← List.append_assoc]
    exact ih (keeps.after action)

theorem keeps_empty : Keeps empty fun _ => [] := ⟨nofun, nofun, fun _ _ => rfl⟩

/-- A handle reads what was done to its timers, whichever handles it was done through. -/
theorem read?_of_refers {actions : List HandleAction} {handle : Nat}
    (refers : (empty.afterAll actions).handles[handle]? = some p) (counter : Counter) :
    (empty.afterAll actions).read? handle counter =
      some ((Timers.zero.afterAll (history p empty actions)).count counter) := by
  have keeps := keeps_empty.afterAll actions
  have held := keeps.held p (keeps.placed p (List.mem_of_getElem? refers))
  rw [List.nil_append] at held
  rw [read?, refers]
  simp [held]

/-! ### More ticks -/

/-- Two banks with the same handles, whatever their counters hold. -/
structure SameHandles (bank bank' : TimerBank) : Prop where
  handles : bank.handles = bank'.handles
  places : bank.timers.length = bank'.timers.length

namespace SameHandles

variable {bank' : TimerBank}

theorem trans {bank'' : TimerBank} (first : SameHandles bank bank')
    (second : SameHandles bank' bank'') : SameHandles bank bank'' :=
  ⟨first.handles.trans second.handles, first.places.trans second.places⟩

theorem act (bank : TimerBank) (handle : Nat) (action : TimerAction) :
    SameHandles bank (bank.after (.act handle action)) := by
  cases refers : bank.handles[handle]? with
  | none =>
    simp only [TimerBank.after, refers]
    exact ⟨rfl, rfl⟩
  | some q =>
    simp only [TimerBank.after, refers]
    exact ⟨rfl, (List.length_modify _ _ _).symm⟩

theorem after (same : SameHandles bank bank') (action : HandleAction) :
    SameHandles (bank.after action) (bank'.after action) := by
  obtain ⟨handles, places⟩ := same
  cases action with
  | create =>
    simp only [TimerBank.after, handles, places]
    exact ⟨rfl, by rw [List.length_append, List.length_append, places]⟩
  | clone handle =>
    simp only [TimerBank.after, handles]
    exact ⟨rfl, places⟩
  | act handle action =>
    have left := act bank handle action
    have right := act bank' handle action
    exact ⟨left.handles.symm.trans (handles.trans right.handles),
      left.places.symm.trans (places.trans right.places)⟩

theorem afterAll (same : SameHandles bank bank') (actions : List HandleAction) :
    SameHandles (bank.afterAll actions) (bank'.afterAll actions) := by
  induction actions generalizing bank bank' with
  | nil => exact same
  | cons action rest ih => exact ih (same.after action)

theorem doneAt (same : SameHandles bank bank') (p : Nat) (action : HandleAction) :
    bank.doneAt p action = bank'.doneAt p action := by
  cases action with
  | create | clone => rfl
  | act handle action => simp only [TimerBank.doneAt, same.handles]

/-- What is done at a place does not depend on what the counters hold. -/
theorem history (same : SameHandles bank bank') (p : Nat) (actions : List HandleAction) :
    history p bank actions = history p bank' actions := by
  induction actions generalizing bank bank' with
  | nil => rfl
  | cons action rest ih => rw [TimerBank.history, TimerBank.history, same.doneAt, ih (same.after action)]

end SameHandles

/-- Ticks through whichever handles. -/
def Ticks (actions : List HandleAction) : Prop := ∀ action ∈ actions, ∃ handle, action = .act handle .tick

theorem history_ticks {ticks : List HandleAction} (only : Ticks ticks) (p : Nat) (bank : TimerBank) :
    SameHandles bank (bank.afterAll ticks) ∧
      ∃ n, history p bank ticks = .replicate n .tick := by
  induction ticks generalizing bank with
  | nil => exact ⟨⟨rfl, rfl⟩, 0, rfl⟩
  | cons action rest ih =>
    obtain ⟨handle, rfl⟩ := only _ List.mem_cons_self
    obtain ⟨same, n, later⟩ := ih (fun a member => only a (List.mem_cons_of_mem _ member))
      (bank.after (.act handle .tick))
    refine ⟨(SameHandles.act bank handle .tick).trans same, ?_⟩
    rw [history, later, doneAt]
    by_cases here : bank.handles[handle]? = some p
    · rw [if_pos here]
      exact ⟨n + 1, rfl⟩
    · rw [if_neg here]
      exact ⟨n, rfl⟩

theorem read?_more_ticks {before ticks later : List HandleAction} {handle seen : Nat} {counter : Counter}
    (refers : (empty.afterAll (before ++ later)).handles[handle]? = some p) (only : Ticks ticks)
    (sees : (empty.afterAll before).handles[seen]? = some p)
    (out : (empty.afterAll before).read? seen counter = some 0) :
    (empty.afterAll (before ++ ticks ++ later)).read? handle counter =
      (empty.afterAll (before ++ later)).read? handle counter := by
  obtain ⟨same, n, ticked⟩ := history_ticks only p (empty.afterAll before)
  have still : (empty.afterAll (before ++ ticks ++ later)).handles[handle]? = some p := by
    rw [afterAll_append] at refers
    rw [afterAll_append, afterAll_append, ← (same.afterAll later).handles]
    exact refers
  rw [read?_of_refers sees, Option.some.injEq] at out
  rw [read?_of_refers still, read?_of_refers refers, history_append, history_append, history_append,
    afterAll_append, ticked, ← same.history p later, Timers.count_afterAll_more_ticks _ _ _ _ _ out]

/-- The law of the timers. After any actions with handles each handle reads, for either counter, the value that was
set last through it or a handle that shares its timers, less the ticks since then, and never less than zero. What
concerns only the other counter makes no difference, nor do ticks through any handles once the counter is at zero.
A tick that goes from counter to counter and passes over a refusal is the tick of the timers. -/
theorem handles_count_down (actions : List HandleAction) {handle p : Nat}
    (refers : (empty.afterAll actions).handles[handle]? = some p) (counter : Counter) :
    let bank := empty.afterAll actions
    let done := history p empty actions
    (∃ b, bank.read? handle counter = some b ∧
      b.toNat = (Timers.lastSet counter done).toNat - Timers.ticksSince counter done) ∧
    (∀ actions' handle' p', (empty.afterAll actions').handles[handle']? = some p' →
      (history p' empty actions').filter (·.concerns counter) = done.filter (·.concerns counter) →
      (empty.afterAll actions').read? handle' counter = bank.read? handle counter) ∧
    (∀ before ticks later seen, actions = before ++ later → Ticks ticks →
      (empty.afterAll before).handles[seen]? = some p →
      (empty.afterAll before).read? seen counter = some 0 →
      (empty.afterAll (before ++ ticks ++ later)).read? handle counter = bank.read? handle counter) ∧
    ∀ t : Timers, t.after .tick = t.tick := by
  intro bank done
  refine ⟨?_, ?_, ?_, Timers.after_tick⟩
  · exact ⟨_, read?_of_refers refers counter, Timers.toNat_count_afterAll counter done⟩
  · intro actions' handle' p' refers' same
    rw [read?_of_refers refers', read?_of_refers refers, Timers.count_afterAll_congr _ _ same]
  · rintro before ticks later seen rfl only sees out
    exact read?_more_ticks refers only sees out

/-- Two handles to the same timers and one to others: the delay is at zero before the last tick, and stays there
through more of them. -/
theorem clones_count_together :
    let before : List HandleAction := [.create, .clone 0, .create, .act 1 (.set .sound 9),
      .act 2 (.set .sound 3), .act 0 .tick, .act 0 (.set .delay 1), .act 1 .tick]
    let later : List HandleAction := [.act 0 .tick]
    let ticks : List HandleAction := [.act 1 .tick, .act 2 .tick]
    let alone : List HandleAction :=
      [.create, .act 0 .tick, .act 0 (.set .delay 1), .act 0 .tick, .act 0 .tick]
    let bank := empty.afterAll (before ++ later)
    bank.handles[1]? = some 0 ∧
    (∃ b, bank.read? 1 .sound = some b ∧ b.toNat = 6) ∧
    (empty.afterAll alone).read? 0 .delay = bank.read? 1 .delay ∧
    (empty.afterAll (before ++ ticks ++ later)).read? 1 .delay = bank.read? 1 .delay := by
  intro before later ticks alone bank
  have refers : bank.handles[1]? = some 0 := by decide
  have only : Ticks ticks := by simp [Ticks, ticks]
  obtain ⟨⟨b, reads, left⟩, -⟩ := handles_count_down (before ++ later) refers .sound
  obtain ⟨-, other, more, -⟩ := handles_count_down (before ++ later) refers .delay
  refine ⟨refers, ⟨b, reads, left.trans (by decide)⟩, ?_, ?_⟩
  · exact other alone 0 0 (by decide) (by decide)
  · exact more before ticks later 0 rfl only (by decide) (by decide)

end TimerBank
end ChipEight
