import ChipEight.Proofs.Ticker
import Mathlib.Logic.Function.Iterate

/-! Requests carried through, and time that passes between them. At the end of a call nothing is being joined
and no callback is under way; from there each request comes to an end, and time lets the newest thread run its
callback until it fails. -/
namespace ChipEight

namespace Thread

variable {t : Thread}

/-- One run of the callback. -/
def called (t : Thread) : Thread := t.beginCall.endCall

theorem called_of_still (still : t.isAlive = false) : t.called = t := by
  rw [called, own_beginCall.still still, own_endCall.still still]

theorem called_of_resting (resting : t.activity = .resting) : t.called =
    { t with
      calls := t.calls + 1
      activity := if t.failsAt = some (t.calls + 1) then .over true else .resting } := by
  simp only [called, beginCall, endCall, resting]

theorem called_of_failing (resting : t.activity = .resting) (fails : t.failsAt = some (t.calls + 1)) :
    t.called = { t with calls := t.calls + 1, activity := .over true } := by
  rw [called_of_resting resting, if_pos fails]

theorem called_of_going (resting : t.activity = .resting) (goes : t.failsAt ≠ some (t.calls + 1)) :
    t.called = { t with calls := t.calls + 1 } := by
  rw [called_of_resting resting, if_neg goes, ← resting]

/-- `n` runs of a callback that does not fail in them. -/
theorem iterate_called_of_going (resting : t.activity = .resting) (n : Nat)
    (goes : ∀ f, t.failsAt = some f → f ≤ t.calls ∨ t.calls + n < f) :
    called^[n] t = { t with calls := t.calls + n } := by
  induction n with
  | zero => rfl
  | succ n ih =>
    have so_far : called^[n] t = { t with calls := t.calls + n } := ih fun f fails => by
      have := goes f fails
      omega
    have goes_on : t.failsAt ≠ some (t.calls + n + 1) := fun fails => by
      have := goes _ fails
      omega
    rw [Function.iterate_succ_apply', so_far]
    exact called_of_going resting goes_on

/-- A callback that fails is not run again, however much time passes. -/
theorem iterate_called_of_failing (resting : t.activity = .resting) {f n : Nat} (fails : t.failsAt = some f)
    (later : t.calls < f) (reached : f ≤ t.calls + n) :
    called^[n] t = { t with calls := f, activity := .over true } := by
  obtain ⟨k, rfl⟩ := Nat.exists_eq_add_of_lt later
  obtain ⟨more, rfl⟩ := Nat.exists_eq_add_of_le (show k + 1 ≤ n by omega)
  have before : called^[k] t = { t with calls := t.calls + k } :=
    iterate_called_of_going resting k fun f other => by
      rw [fails] at other
      cases other
      omega
  have last : ({ t with calls := t.calls + k } : Thread).called =
      { t with calls := t.calls + k + 1, activity := .over true } :=
    called_of_failing resting fails
  rw [Nat.add_comm, Function.iterate_add_apply, Function.iterate_succ_apply', before, last]
  exact Function.iterate_fixed (called_of_still rfl) more

/-- A thread that is told to stop and takes its message has ended. -/
theorem still_told (untold : t.Untold) (free : t.activity ≠ .calling) : t.send.receive.isAlive = false := by
  cases activity : t.activity with
  | calling => exact absurd activity free
  | resting => simp [send, receive, isAlive, activity, untold.sent, untold.received]
  | _ => simp [send, receive, isAlive, activity]

end Thread

namespace Ticker

/-- At the end of a call. A thread that is held is the newest and does not run its callback. -/
inductive Calm : Ticker → Prop where
  | idle {threads : List Thread} (ended : ∀ thread ∈ threads, thread.isAlive = false) :
      Calm ⟨.nothing, threads⟩
  | held {newest : Thread} {older : List Thread} (untold : newest.Untold) (free : newest.activity ≠ .calling)
      (ended : ∀ thread ∈ older, thread.isAlive = false) : Calm ⟨.thread, newest :: older⟩

theorem elapse_succ (t : Ticker) (n : Nat) :
    t.elapse (n + 1) = (t.actAll [.beginCall 0, .endCall 0]).elapse n := rfl

theorem elapse_cons (holding : Holding) (newest : Thread) (older : List Thread) (n : Nat) :
    elapse ⟨holding, newest :: older⟩ n = ⟨holding, Thread.called^[n] newest :: older⟩ := by
  induction n generalizing newest with
  | zero => rfl
  | succ n ih =>
    rw [elapse_succ]
    exact ih newest.called

variable {t t' : Ticker}

theorem any_eq_false_iff {threads : List Thread} : threads.any Thread.isAlive = false ↔
    ∀ thread ∈ threads, thread.isAlive = false := by
  simp [List.any_eq_false]

theorem isAlive_of_resting {newest : Thread} (older : List Thread) (resting : newest.activity = .resting) :
    isAlive ⟨.thread, newest :: older⟩ = true := by
  simp [isAlive, Thread.isAlive, resting]

theorem elapse_of_still (still : t.isAlive = false) (n : Nat) : t.elapse n = t := by
  obtain ⟨holding, threads⟩ := t
  cases threads with
  | nil =>
    induction n with
    | zero => rfl
    | succ n ih => exact ih
  | cons newest older =>
    have ended : newest.isAlive = false := any_eq_false_iff.mp still newest List.mem_cons_self
    rw [elapse_cons, Function.iterate_fixed (Thread.called_of_still ended)]

theorem calm_unstarted : unstarted.Calm := .idle nofun

/-- What a span of time with room for `n` callbacks does. -/
inductive Passes (n : Nat) : Ticker → Ticker → Prop where
  | still {t : Ticker} (still : t.isAlive = false) : Passes n t t
  | runs {newest : Thread} {older : List Thread} (untold : newest.Untold)
      (resting : newest.activity = .resting) (ended : ∀ thread ∈ older, thread.isAlive = false)
      (goes : ∀ f, newest.failsAt = some f → f ≤ newest.calls ∨ newest.calls + n < f) :
      Passes n ⟨.thread, newest :: older⟩ ⟨.thread, { newest with calls := newest.calls + n } :: older⟩
  | fails {newest : Thread} {older : List Thread} {f : Nat} (untold : newest.Untold)
      (ended : ∀ thread ∈ older, thread.isAlive = false) (fails : newest.failsAt = some f)
      (later : newest.calls < f) (reached : f ≤ newest.calls + n) :
      Passes n ⟨.thread, newest :: older⟩
        ⟨.thread, { newest with calls := f, activity := .over true } :: older⟩

namespace Calm

theorem passes (h : t.Calm) (n : Nat) : Passes n t (t.elapse n) := by
  cases h with
  | idle ended =>
    rw [elapse_of_still (any_eq_false_iff.mpr ended)]
    exact .still (any_eq_false_iff.mpr ended)
  | @held newest older untold free ended =>
    cases activity : newest.activity with
    | calling => exact absurd activity free
    | resting =>
      rw [elapse_cons]
      by_cases goes : ∀ f, newest.failsAt = some f → f ≤ newest.calls ∨ newest.calls + n < f
      · rw [Thread.iterate_called_of_going activity n goes]
        exact .runs untold activity ended goes
      · obtain ⟨f, fails, within⟩ : ∃ f, newest.failsAt = some f ∧
            ¬(f ≤ newest.calls ∨ newest.calls + n < f) := by
          simpa using goes
        have later : newest.calls < f := by omega
        have reached : f ≤ newest.calls + n := by omega
        rw [Thread.iterate_called_of_failing activity fails later reached]
        exact .fails untold ended fails later reached
    | _ =>
      have still : isAlive ⟨.thread, newest :: older⟩ = false :=
        any_eq_false_iff.mpr (List.forall_mem_cons.mpr ⟨by simp [Thread.isAlive, activity], ended⟩)
      rw [elapse_of_still still]
      exact .still still

theorem of_passes {n : Nat} (h : t.Calm) (rule : Passes n t t') : t'.Calm := by
  cases rule with
  | still => exact h
  | runs untold resting ended =>
    exact .held ⟨untold.sent, untold.received, untold.stopped⟩ (by simp [resting]) ended
  | fails untold ended => exact .held ⟨untold.sent, untold.received, nofun⟩ nofun ended

/-- Time keeps a ticker calm. -/
theorem elapse (h : t.Calm) (n : Nat) : (t.elapse n).Calm := h.of_passes (h.passes n)

/-- A span of time is enough for the callback to run so often, or to fail before. -/
theorem elapseTo (h : t.Calm) (alive : t.isAlive = true) (n : Nat) :
    let u := t.elapseTo n
    (u.isAlive = true ∧ u.calls = max t.calls n) ∨
      (u.isAlive = false ∧ u.calls ≤ n ∧ ∃ newest ∈ t.threads.head?, newest.failsAt = some u.calls) := by
  have rule := h.passes (n - t.calls)
  dsimp only [Ticker.elapseTo]
  generalize t.elapse (n - t.calls) = u at rule ⊢
  cases rule with
  | still still => simp [still] at alive
  | @runs newest older untold resting ended goes =>
    refine .inl ⟨isAlive_of_resting older resting, ?_⟩
    simp only [calls, List.head?_cons, Option.map_some, Option.getD_some]
    omega
  | @fails newest older f untold ended fails later reached =>
    refine .inr ⟨any_eq_false_iff.mpr (List.forall_mem_cons.mpr ⟨rfl, ended⟩), ?_, newest, rfl, fails⟩
    simp only [calls, List.head?_cons, Option.map_some, Option.getD_some] at reached ⊢
    omega

/-- A thread that is left alone comes to its end exactly if a run of its callback that is still to come fails. -/
theorem elapseToEnd (h : t.Calm) (alive : t.isAlive = true) : t.elapseToEnd.isAlive = false ↔
    ∃ f, t.threads.head?.bind Thread.failsAt = some f ∧ t.calls < f := by
  unfold Ticker.elapseToEnd Ticker.elapseTo
  generalize span : (t.threads.head?.bind Thread.failsAt).getD 0 - t.calls = n
  have rule := h.passes n
  generalize t.elapse n = u at rule ⊢
  cases rule with
  | still still => simp [still] at alive
  | @runs newest older untold resting ended goes =>
    have well : isAlive ⟨.thread, { newest with calls := newest.calls + n } :: older⟩ = true :=
      isAlive_of_resting older resting
    refine iff_of_false (by simp [well]) ?_
    rintro ⟨f, fails, later⟩
    rw [fails] at span
    have := goes f fails
    simp only [calls, List.head?_cons, Option.map_some, Option.getD_some] at span later
    omega
  | @fails newest older f untold ended fails later reached =>
    exact iff_of_true (any_eq_false_iff.mpr (List.forall_mem_cons.mpr ⟨rfl, ended⟩)) ⟨f, fails, later⟩

end Calm

theorem complete_eq (t : Ticker) (holding : Holding) (request : Request) :
    complete { t with holding } request = t.complete request := by
  cases request <;> rfl

/-- Once a request is completed there is no message under way and nothing to join. -/
theorem settled_complete {threads : List Thread} (ended : ∀ thread ∈ threads, thread.isAlive = false)
    (request : Request) : (complete ⟨.nothing, threads⟩ request).actAll [.receive 0, .join] =
      complete ⟨.nothing, threads⟩ request := by
  cases request with
  | start failsAt => simp [complete, actAll, act, Thread.fresh, Thread.receive]
  | stop | discard =>
    have fixed : threads.modify 0 Thread.receive = threads :=
      modify_fixed (fun thread among => Thread.own_receive.still (ended thread among)) 0
    simp [complete, actAll, act, fixed]

namespace Calm

theorem carryOut_eq (h : t.Calm) (request : Request) : ∃ threads,
    (∀ thread ∈ threads, thread.isAlive = false) ∧
    threads.map Thread.failsAt = t.threads.map Thread.failsAt ∧
    t.carryOut request = complete ⟨.nothing, threads⟩ request := by
  cases h with
  | @idle threads ended => exact ⟨threads, ended, rfl, settled_complete ended request⟩
  | @held newest older untold free ended =>
    have still := Thread.still_told untold free
    refine ⟨newest.send.receive :: older, List.forall_mem_cons.mpr ⟨still, ended⟩, ?_, ?_⟩
    · rw [List.map_cons, List.map_cons, Thread.own_receive.failsAt, newest.send_failsAt]
    · have told : actAll ⟨.thread, newest :: older⟩ [.request request, .receive 0] =
          ⟨.joining request, newest.send.receive :: older⟩ := rfl
      have ended : newestOver ⟨.joining request, newest.send.receive :: older⟩ = true := by
        simp [newestOver, still]
      change act (actAll ⟨.thread, newest :: older⟩ [.request request, .receive 0]) .join = _
      rw [told, act]
      simp only [ended, if_true]
      exact complete_eq ⟨.nothing, newest.send.receive :: older⟩ _ request

/-- A request on a calm ticker is carried out: nothing runs but what it starts, and it is calm again unless it
is given up. -/
theorem carryOut (h : t.Calm) (request : Request) :
    let u := t.carryOut request
    (u.isAlive = true ↔ request.started?.isSome) ∧
      u.threads.map Thread.failsAt = request.started?.toList ++ t.threads.map Thread.failsAt ∧
      (request ≠ .discard → u.Calm) := by
  obtain ⟨threads, ended, same, done⟩ := h.carryOut_eq request
  have quiet : threads.any Thread.isAlive = false := any_eq_false_iff.mpr ended
  dsimp only
  rw [done, ← same]
  cases request with
  | start failsAt =>
    have alive : isAlive (complete ⟨.nothing, threads⟩ (.start failsAt)) = true := rfl
    exact ⟨by simp [alive, Request.started?], rfl,
      fun _ => .held (Thread.untold_fresh failsAt) nofun ended⟩
  | stop => exact ⟨by simp [complete, isAlive, quiet, Request.started?], rfl, fun _ => .idle ended⟩
  | discard => exact ⟨by simp [complete, isAlive, quiet, Request.started?], rfl, nofun⟩

end Calm
end Ticker
end ChipEight
