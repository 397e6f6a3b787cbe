import ChipEight.Proofs.Session.Moves
import ChipEight.Proofs.Start

/-! Tones begin and end in turn, over any runs of a session. The number of starts and stops so far
tells whether a tone is playing; a tone plays only while the timer clock goes or until it is silenced,
so a new run, which takes it that no tone is playing, is right. -/
namespace ChipEight

def Entry.isTone : Entry → Bool
  | .toneStarted | .toneStopped => true
  | _ => false

/-- The timer clock goes from the start of a run until it is stopped. -/
def Phase.ticks : Phase → Bool
  | .checking | .stepping | .awaiting _ | .showing | .stopping _ => true
  | _ => false

theorem Timers.isSounding_iff (t : Timers) : t.isSounding = true ↔ t.sound ≠ 0 := by
  simp [isSounding, UInt8.pos_iff_ne_zero]

/-- Starts and stops in turn, a start first. -/
def alternating (n : Nat) : List Entry := (List.range n).map fun k => .tone (k % 2 = 0)

theorem alternating_succ (n : Nat) :
    alternating (n + 1) = alternating n ++ [.tone (n % 2 = 0)] := by
  simp [alternating, List.range_succ]

theorem count_alternating (n : Nat) :
    (alternating n).count .toneStarted = (n + 1) / 2 ∧
      (alternating n).count .toneStopped = n / 2 := by
  induction n with
  | zero => exact ⟨rfl, rfl⟩
  | succ n ih =>
    rw [alternating_succ, List.count_append, List.count_append, ih.1, ih.2]
    by_cases even : n % 2 = 0
    · simp [Entry.tone, even]
      omega
    · simp [Entry.tone, even]
      omega

theorem getElem?_alternating {n k : Nat} {t : Entry} (h : (alternating n)[k]? = some t) :
    t = if k % 2 = 0 then .toneStarted else .toneStopped := by
  obtain ⟨_, rfl⟩ := List.getElem?_eq_some_iff.mp h
  simp [alternating, Entry.tone]

theorem last_alternating_started (n : Nat) :
    (alternating n).getLast? = some .toneStarted ↔ n % 2 = 1 := by
  cases n with
  | zero => simp [alternating]
  | succ n =>
    rw [alternating_succ, List.getLast?_concat]
    by_cases even : n % 2 = 0
    · simp [Entry.tone, even]
      omega
    · simp [Entry.tone, even]
      omega

theorem last_alternating_stopped {n : Nat} {t : Entry} (even : n % 2 = 0)
    (h : (alternating n).getLast? = some t) : t = .toneStopped := by
  cases n with
  | zero => contradiction
  | succ n =>
    have odd : n % 2 ≠ 0 := by omega
    rw [alternating_succ, List.getLast?_concat] at h
    obtain rfl := Option.some.inj h
    simp [Entry.tone, odd]

namespace Session

/-- The starts and stops of tones so far. -/
def tones (s : Session) : List Entry := s.log.filter Entry.isTone

/-- The tone that a session takes to be playing is the one that was started and not stopped, and it
plays only while something is left that will stop it. -/
structure Tuned (s : Session) : Prop where
  alternate : ∃ n, s.tones = alternating n ∧ s.toneOn = decide (n % 2 = 1)
  clock : s.clockGoing = s.phase.ticks
  silenced : s.toneOn = true → s.phase.ticks = true ∨ ∃ e, s.phase = .silencing e

theorem tones_emit (s : Session) (e : Entry) :
    (s.emit e).tones = s.tones ++ if e.isTone then [e] else [] := by
  rw [tones, log_emit, List.filter_append]
  cases e <;> rfl

theorem tones_followTone (s : Session) : s.followTone.tones =
    s.tones ++ if s.chip.timers.isSounding = s.toneOn then []
      else [.tone s.chip.timers.isSounding] := by
  rw [followTone_eq]
  unfold tones log Entry.tone
  repeat' split
  all_goals simp [Entry.isTone]

variable {s : Session}

theorem tuned_around (c : Chip) : (around c).Tuned where
  alternate := ⟨0, rfl, rfl⟩
  clock := rfl
  silenced := nofun

/-- A tick starts a tone only if none is playing, and stops one only if one is. -/
theorem Tuned.followTone (h : s.Tuned) :
    ∃ n, s.followTone.tones = alternating n ∧ s.followTone.toneOn = decide (n % 2 = 1) := by
  obtain ⟨n, tones, playing⟩ := h.alternate
  have toneOn : s.followTone.toneOn = s.chip.timers.isSounding := by rw [followTone_eq]
  rw [tones_followTone, toneOn]
  split
  · next same => exact ⟨n, by rw [tones, List.append_nil], same.trans playing⟩
  · next change =>
    have due : s.chip.timers.isSounding = decide (n % 2 = 0) := by
      rw [playing] at change
      cases sounding : s.chip.timers.isSounding <;> simp [sounding] at change ⊢ <;> omega
    refine ⟨n + 1, by rw [tones, alternating_succ, due], ?_⟩
    rw [due, decide_eq_decide]
    omega

theorem Tuned.after (h : s.Tuned) (event : Event) : (s.after event).Tuned := by
  rcases s.after_cases event with ⟨_, going, run⟩ | ⟨stimulus, run⟩ | run | run
  · rw [run, tick_eq]
    refine ⟨h.followTone, ?_, ?_⟩
    · rw [followTone_eq]
      exact h.clock
    · intro _
      rw [followTone_eq]
      exact .inl (h.clock ▸ going)
  · rw [run]
    exact ⟨h.alternate, h.clock, h.silenced⟩
  · rw [run]
    exact ⟨h.alternate, h.clock, h.silenced⟩
  · rw [run]
    exact h

theorem afterStep_ticks (wait : KeyWait) (result : Except Halt Signal) :
    (Phase.afterStep wait result).ticks = true := by
  cases result with
  | ok signal => cases signal <;> rfl
  | error h => cases h <;> rfl

theorem ticks_of_wait {wait : KeyWait} (h : s.wait? = some wait) : s.phase.ticks = true := by
  unfold wait? at h
  split at h
  · next stepping => rw [stepping]; rfl
  · next waiting => rw [waiting]; rfl
  · contradiction

theorem Tuned.proceeds {t : Session} (h : s.Tuned) (rule : Proceeds s t) : t.Tuned := by
  obtain ⟨⟨n, tones, playing⟩, clock, silenced⟩ := h
  cases rule with
  | rest => exact ⟨⟨n, tones, playing⟩, clock, silenced⟩
  | @step wait next steps =>
    have ticks := afterStep_ticks wait (s.chip.step wait).result
    rw [ticks_of_wait next] at clock
    exact ⟨⟨n, tones, playing⟩, clock.trans ticks.symm, fun _ => .inl ticks⟩
  | quit phase | goOn phase | wait phase =>
    rw [phase] at clock
    exact ⟨⟨n, tones, playing⟩, clock, fun _ => .inl rfl⟩
  | present phase =>
    rw [phase] at clock
    refine ⟨⟨n, ?_, playing⟩, clock, fun _ => .inl rfl⟩
    rw [tones_emit, ← tones]
    exact List.append_nil _
  | @stop e phase =>
    refine ⟨⟨n, ?_, playing⟩, rfl, fun _ => .inr ⟨e, rfl⟩⟩
    rw [tones_emit, ← tones]
    exact List.append_nil _
  | silence phase on =>
    rw [phase] at clock
    have odd : n % 2 = 1 := by simpa [on] using playing
    have even : (n + 1) % 2 = 0 := by omega
    refine ⟨⟨n + 1, ?_, ?_⟩, clock, nofun⟩
    · rw [tones_emit, alternating_succ, odd, ← tones]
      rfl
    · rw [even]
      rfl
  | silent phase off =>
    rw [phase] at clock
    exact ⟨⟨n, tones, playing⟩, clock, fun on => absurd (on.symm.trans off) (by decide)⟩
  | clear phase | reopen phase =>
    rw [phase] at clock silenced
    exact ⟨⟨n, tones, playing⟩, clock, fun on => by simpa [Phase.ticks] using silenced on⟩

/-- Between two runs no tone is left playing, so a new run forgets nothing. -/
theorem Tuned.off_of_idle {last : Option Ending} (h : s.Tuned) (idle : s.phase = .idle last) :
    s.toneOn = false := by
  rw [Bool.eq_false_iff]
  intro on
  simpa [idle, Phase.ticks] using h.silenced on

theorem Tuned.move (h : s.Tuned) (m : Move) : (s.move m).Tuned := by
  cases m with
  | begin =>
    rcases s.move_begin_cases with ⟨last, phase, run⟩ | run
    · obtain ⟨n, tones, playing⟩ := h.alternate
      rw [run]
      refine ⟨⟨n, ?_, (h.off_of_idle phase).symm.trans playing⟩, rfl, nofun⟩
      rw [begin, tones_emit, ← tones]
      exact List.append_nil _
    · rwa [run]
  | outside event => exact h.after event
  | proceed => exact h.proceeds s.proceeds

/-- The tone protocol. Starts and stops alternate, a start first; when a run is over the last of them
was a stop and there are as many of one as of the other. A tick in a run leaves a tone playing
exactly if the sound timer had not run out when it began. -/
theorem tone_protocol {rom : Rom} {config : Config} {random : RandomStream} {s₀ : Session}
    (opened : open? rom config random = .ok s₀) (ms : List Move) :
    let s := s₀.moves ms
    (∀ k t, s.tones[k]? = some t → t = if k % 2 = 0 then .toneStarted else .toneStopped) ∧
    (∀ last, s.phase = .idle last → (∀ t, s.tones.getLast? = some t → t = .toneStopped) ∧
      s.tones.count .toneStarted = s.tones.count .toneStopped) ∧
    (s.clockGoing = true → let ticked := s.after (.stimulus .tick)
      (ticked.tones.getLast? = some .toneStarted ↔ s.chip.timers.sound ≠ 0)) := by
  intro s
  obtain ⟨_, c, _, rfl⟩ := open?_eq_ok_iff.mp opened
  have tuned : s.Tuned := moves_preserve (P := Tuned) (fun _ m h => h.move m) (tuned_around c) ms
  obtain ⟨n, tones, playing⟩ := tuned.alternate
  rw [tones]
  refine ⟨fun _ _ => getElem?_alternating, ?_, ?_⟩
  · intro last idle
    have even : n % 2 = 0 := by
      rw [tuned.off_of_idle idle, eq_comm, decide_eq_false_iff_not] at playing
      omega
    refine ⟨fun _ => last_alternating_stopped even, ?_⟩
    rw [(count_alternating n).1, (count_alternating n).2]
    omega
  · intro going ticked
    have fired : ticked = s.tick := if_pos going
    obtain ⟨m, ticks, sounding⟩ := (tuned.after (.stimulus .tick)).alternate
    have on : ticked.toneOn = s.chip.timers.isSounding := by rw [fired, tick_eq, followTone_eq]
    rw [ticks, last_alternating_started, ← s.chip.timers.isSounding_iff, ← on, sounding,
      decide_eq_true_iff]

/-- A run is ended while its tone plays, and the next one begins with the sound timer still set. -/
theorem tone_after_quit :
    let rom : Rom := ⟨"TONE", [0x63, 0x02, 0xF3, 0x18]⟩
    let s₀ := around (Chip.boot rom .standard (.cycle []))
    let s := s₀.moves ([.begin] ++ List.replicate 4 .proceed ++ [.outside (.stimulus .tick),
      .outside .requestQuit] ++ List.replicate 5 .proceed ++ [.begin])
    open? rom .standard (.cycle []) = .ok s₀ ∧ s.clockGoing = true ∧
    s.tones = [.toneStarted, .toneStopped] ∧ s.chip.timers.sound ≠ 0 ∧
    (s.after (.stimulus .tick)).tones.getLast? = some .toneStarted := by
  intro rom s₀ s
  have opened : open? rom .standard (.cycle []) = .ok s₀ :=
    open?_eq_ok_iff.mpr ⟨by decide, _, Chip.start_eq_ok_iff.mpr ⟨by decide, by decide, rfl⟩, rfl⟩
  obtain ⟨going, tones, left⟩ : s.clockGoing = true ∧ s.tones = [.toneStarted, .toneStopped] ∧
      s.chip.timers.sound ≠ 0 := by
    decide +kernel
  obtain ⟨_, _, follows⟩ := tone_protocol opened ([.begin] ++ List.replicate 4 .proceed ++
    [.outside (.stimulus .tick), .outside .requestQuit] ++ List.replicate 5 .proceed ++ [.begin])
  exact ⟨opened, going, tones, left, (follows going).mpr left⟩

end Session
end ChipEight
