import ChipEight.Proofs.Session.Resume
import ChipEight.Session.Host

/-! A run against a host is a run. What a host does at its places falls between the actions of the run, so
whatever is said of moves is said of such a run too. The number of actions is a bound and nothing else: a
run that is over within it is the same under every larger one. -/
namespace ChipEight

namespace Script

variable {script : Script}

theorem mem_presses {event : Event} : event ∈ script.presses ↔
    ∃ k, script.held = some k ∧ event = .stimulus (.key (.press k)) := by
  simp [presses, eq_comm]

theorem length_ticks {n : Nat} (clock : script.stepsPerTick = some n) (step : Nat) :
    (script.ticks step).length = if 0 < step ∧ step % n = 0 then 1 else 0 := by
  simp only [ticks, clock]
  split <;> rfl

/-- A clock of the host ticks once in so many steps. -/
theorem length_flatMap_ticks {n : Nat} (clock : script.stepsPerTick = some n) (steps : Nat) :
    ((List.range (steps + 1)).flatMap script.ticks).length = steps / n := by
  induction steps with
  | zero =>
    have first : script.ticks 0 = [] := by simp [ticks, clock]
    simp [List.range_succ, first]
  | succ steps ih =>
    rw [List.range_succ, List.flatMap_append, List.length_append, ih, List.flatMap_singleton,
      length_ticks clock, Nat.succ_div]
    simp [Nat.dvd_iff_mod_eq_zero]

end Script

namespace Session

variable {s : Session} {host : Host} {script : Script} {last : Option Ending} {fuel : Nat}

theorem moves_around_proceed (s : Session) (before after : List Event) :
    s.moves (before.map .outside ++ .proceed :: after.map .outside) =
      (s.afterAll before).proceed.afterAll after := by
  rw [moves_append, moves_outside, moves_cons, moves_outside]
  rfl

/-- One action of the run, with what the host does before it or after it. -/
theorem advance_eq_moves (host : Host) (s : Session) : ∃ before after : List Event,
    s.advance host = s.moves (before.map .outside ++ .proceed :: after.map .outside) := by
  simp only [moves_around_proceed]
  unfold advance
  split
  · exact ⟨[], host.onFrame s.frames, rfl⟩
  · exact ⟨host.beforeStep s.steps, [], rfl⟩
  · exact ⟨host.whileWaiting, [], rfl⟩
  · exact ⟨[], [], rfl⟩

theorem finish_of_idle (idle : s.phase = .idle last) (host : Host) (fuel : Nat) :
    s.finish host fuel = s := by
  cases fuel with
  | zero => rfl
  | succ fuel => rw [finish, idle]

theorem finish_succ (going : ∀ last, s.phase ≠ .idle last) (host : Host) (fuel : Nat) :
    s.finish host (fuel + 1) = (s.advance host).finish host fuel := by
  rw [finish]
  split
  · next last idle => exact absurd idle (going last)
  · rfl

/-- So many actions and then some more. -/
theorem finish_add (host : Host) (fuel more : Nat) (s : Session) :
    s.finish host (fuel + more) = (s.finish host fuel).finish host more := by
  induction fuel generalizing s with
  | zero => rw [Nat.zero_add, finish]
  | succ fuel ih =>
    by_cases idle : ∃ last, s.phase = .idle last
    · obtain ⟨last, idle⟩ := idle
      rw [finish_of_idle idle, finish_of_idle idle, finish_of_idle idle]
    · have going := not_exists.mp idle
      rw [Nat.succ_add, finish_succ going, finish_succ going, ih]

theorem finish_eq_moves (host : Host) (fuel : Nat) (s : Session) :
    ∃ ms, .begin ∉ ms ∧ s.finish host fuel = s.moves ms := by
  induction fuel generalizing s with
  | zero => exact ⟨[], List.not_mem_nil, rfl⟩
  | succ fuel ih =>
    by_cases idle : ∃ last, s.phase = .idle last
    · obtain ⟨last, idle⟩ := idle
      exact ⟨[], List.not_mem_nil, finish_of_idle idle host _⟩
    · obtain ⟨before, after, first⟩ := s.advance_eq_moves host
      obtain ⟨ms, one, rest⟩ := ih (s.advance host)
      refine ⟨before.map .outside ++ .proceed :: after.map .outside ++ ms, by simp [one], ?_⟩
      rw [finish_succ (not_exists.mp idle), rest, first, ← moves_append]

theorem ending?_eq_some_iff {e : Ending} : s.ending? = some e ↔ s.phase = .idle (some e) := by
  unfold ending?
  split
  · next last idle => rw [idle, Phase.idle.injEq]
  · next going => exact ⟨nofun, fun idle => absurd idle (going _)⟩

/-- A run that follows a script, from a session in which none is going on, is one run with events from
outside around it and in it. If it is over within its bound, it is the same within every larger one. -/
theorem follow_is_run (idle : s.phase = .idle last) (script : Script) (fuel : Nat) :
    (∃ ms, .begin ∉ ms ∧ s.follow script fuel = s.moves
      (script.presses.map .outside ++ .begin :: (ms ++ script.presses.map .outside))) ∧
    ∀ e, (s.follow script fuel).ending? = some e →
      ∀ more, s.follow script (fuel + more) = s.follow script fuel := by
  have ready : (s.afterAll script.presses).phase = .idle last := (s.afterAll_phase _).trans idle
  constructor
  · obtain ⟨ms, one, run⟩ := finish_eq_moves script.host fuel (s.afterAll script.presses).begin
    refine ⟨ms, one, ?_⟩
    rw [moves_append, moves_outside, moves_begin ready, moves_append, moves_outside, ← run]
    rfl
  · intro e ended more
    rw [ending?_eq_some_iff, follow, afterAll_phase, run] at ended
    have same := finish_add script.host fuel more (s.afterAll script.presses).begin
    rw [finish_of_idle ended] at same
    rw [follow, run, same]
    rfl

/-! ### The numbers by which a host is asked -/

theorem after_numbers (s : Session) (event : Event) :
    (s.after event).steps = s.steps ∧ (s.after event).frames = s.frames := by
  rcases s.after_cases event with ⟨_, _, run⟩ | ⟨stimulus, run⟩ | run | run
  · rw [run, tick_eq, followTone_eq]
    exact ⟨rfl, rfl⟩
  all_goals
    rw [run]
    exact ⟨rfl, rfl⟩

theorem afterAll_frames (s : Session) (events : List Event) : (s.afterAll events).frames = s.frames := by
  induction events generalizing s with
  | nil => rfl
  | cons event rest ih => exact (ih (s.after event)).trans (s.after_numbers event).2

theorem proceed_of_wait {wait : KeyWait} (next : s.wait? = some wait) : s.proceed = s.takeStep wait := by
  unfold wait? at next
  split at next
  · next phase =>
    split at next
    · contradiction
    · next free =>
      cases next
      simp only [proceed, phase, if_neg free]
  · next phase =>
    cases next
    simp only [proceed, phase]
  · contradiction

theorem takeStep_steps (s : Session) (wait : KeyWait) :
    (s.takeStep wait).steps = s.steps + [s.chip.taken wait].countP Taken.goesOn := by
  rw [List.countP_singleton]
  unfold takeStep Chip.taken Taken.goesOn
  obtain ⟨chip, result⟩ := s.chip.step wait
  cases result with
  | ok signal => cases signal <;> rfl
  | error h => cases h <;> rfl

theorem proceed_steps (s : Session) :
    s.proceed.steps = s.steps + (s.taken? .proceed).toList.countP Taken.goesOn := by
  cases next : s.wait? with
  | some wait =>
    rw [proceed_of_wait next, takeStep_steps, taken?, next]
    rfl
  | none =>
    have rule := s.proceeds
    rw [taken?, next]
    generalize s.proceed = t at rule
    cases rule with
    | step found =>
      rw [next] at found
      contradiction
    | _ => rfl

/-- Within a run the number of steps is that of the steps that were completed and did not end it. -/
theorem moves_steps (s : Session) (ms : List Move) (one : .begin ∉ ms) :
    (s.moves ms).steps = s.steps + (s.takenAll ms).countP Taken.goesOn := by
  induction s, ms, one using run_induction with
  | nil s => rfl
  | outside s event rest more ih =>
    have taken : s.takenAll (.outside event :: rest) = (s.after event).takenAll rest := rfl
    rw [moves_cons, taken, ← (s.after_numbers event).1]
    exact ih
  | proceed s rest more ih =>
    rw [moves_cons, takenAll, List.countP_append, ← Nat.add_assoc, ← proceed_steps]
    exact ih

theorem proceed_frames (other : s.phase ≠ .showing) : s.proceed.frames = s.frames := by
  have rule := s.proceeds
  generalize s.proceed = t at rule
  cases rule with
  | present phase => exact absurd phase other
  | _ => rfl

/-- The run takes no step any more: it ends with a quit, or has. -/
def Leaves (s : Session) : Prop :=
  match s.phase with
  | .checking => s.quitRequested = true
  | .stopping e | .silencing e | .clearing e | .reopening e => e = .quit
  | .idle last => last = some .quit
  | _ => False

theorem Leaves.proceed (leaves : s.Leaves) : s.proceed.Leaves := by
  unfold Leaves at leaves
  have rule := s.proceeds
  generalize s.proceed = t at rule
  cases rule with
  | quit phase => rfl
  | rest phase | stop phase | silence phase | silent phase | clear phase | reopen phase =>
    simpa [Leaves, emit, phase] using leaves
  | goOn phase free => simp [phase, free] at leaves
  | wait phase | present phase => simp [phase] at leaves
  | step next =>
    unfold wait? at next
    split at next <;> simp_all

/-- Not more pictures than the script has and one more, and that one is the last thing of the run. -/
def KeepsTo (script : Script) (s : Session) : Prop :=
  s.frames ≤ script.frames.length ∨ s.frames = script.frames.length + 1 ∧ s.Leaves

theorem KeepsTo.of_unshown {t : Session} (h : s.KeepsTo script) (going : ¬s.Leaves)
    (same : t.frames = s.frames) : t.KeepsTo script := by
  obtain few | ⟨-, leaves⟩ := h
  · exact .inl (same ▸ few)
  · exact absurd leaves going

/-- What one action keeps. The picture after those of the script makes the host quit. -/
theorem KeepsTo.advance (h : s.KeepsTo script) : (s.advance script.host).KeepsTo script := by
  unfold Session.advance
  split
  · next phase =>
    have going : ¬s.Leaves := by simp [Leaves, phase]
    have few : s.frames ≤ script.frames.length := h.resolve_right fun spent => going spent.2
    have shown : s.proceed.frames = s.frames + 1 := by simp [Session.proceed, phase, emit]
    have next : s.proceed.phase = .checking := by simp [Session.proceed, phase, emit]
    rw [KeepsTo, afterAll_frames, shown]
    rcases Nat.lt_or_eq_of_le few with fewer | last
    · exact .inl fewer
    · refine .inr ⟨congrArg (· + 1) last, ?_⟩
      have quits : script.host.onFrame s.frames = Event.quit := by simp [Script.host, last]
      rw [Leaves, afterAll_phase, next, quits]
      rfl
  · next phase =>
    refine h.of_unshown (by simp [Leaves, phase]) ?_
    rw [proceed_frames (by simp [afterAll_phase, phase]), afterAll_frames]
  · next phase =>
    refine h.of_unshown (by simp [Leaves, phase]) ?_
    rw [proceed_frames (by simp [afterAll_phase, phase]), afterAll_frames]
  · next other _ _ =>
    have same := proceed_frames other
    obtain few | ⟨spent, leaves⟩ := h
    · exact .inl (same ▸ few)
    · exact .inr ⟨same ▸ spent, leaves.proceed⟩

theorem KeepsTo.finish (h : s.KeepsTo script) (fuel : Nat) :
    (s.finish script.host fuel).KeepsTo script := by
  induction fuel generalizing s with
  | zero => exact h
  | succ fuel ih =>
    unfold Session.finish
    split
    · exact h
    · exact ih h.advance

/-- A run that follows a script shows the pictures of the script and at most one more, and is over after that
one as the host quits. -/
theorem follow_keeps_to_script (script : Script) (fuel : Nat) (s : Session) :
    let t := s.follow script fuel
    t.frames ≤ script.frames.length + 1 ∧
      ∀ e, t.ending? = some e → t.frames = script.frames.length + 1 → e = .quit := by
  intro t
  have start : (s.afterAll script.presses).begin.KeepsTo script := .inl (Nat.zero_le _)
  have frames : t.frames = ((s.afterAll script.presses).run script.host fuel).frames := afterAll_frames _ _
  have phase : t.phase = ((s.afterAll script.presses).run script.host fuel).phase := afterAll_phase _ _
  rw [frames]
  obtain few | ⟨spent, leaves⟩ := start.finish fuel
  · exact ⟨Nat.le_succ_of_le few, fun e ended all => absurd (all ▸ few) (Nat.not_succ_le_self _)⟩
  · refine ⟨Nat.le_of_eq spent, fun e ended _ => ?_⟩
    rw [ending?_eq_some_iff, phase] at ended
    rw [Leaves, ← run, ended] at leaves
    exact Option.some.inj leaves

end Session
end ChipEight
