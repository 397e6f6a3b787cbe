import ChipEight.Proofs.Session.Tone
import ChipEight.Proofs.Writes

/-! How long a tone lasts. The sound timer is set from outside or by the word `FX18`, in a run or between two
of them. From then on the ticks count: as many of them as the timer was set to leave the tone on, and the next
one leaves it off, whether or not a tone was on before. -/
namespace ChipEight

theorem Instruction.decode_of_setSound {w : Opcode} (word : w.IsMisc 0x18) :
    decode w = .setSound w.x := by
  rw [decode_of_misc word]
  rfl

namespace Chip

variable {c : Chip}

theorem sound_step_set (word : c.nextOpcode.IsMisc 0x18) (wait : KeyWait) :
    (c.step wait).chip.timers.sound = c.v ⟨c.nextOpcode.x, c.nextOpcode.x_lt⟩ := by
  let x : Register := ⟨c.nextOpcode.x, c.nextOpcode.x_lt⟩
  have rule : Completes wait c.fetched (.decode c.nextOpcode)
      { chip := { c.fetched with timers := c.fetched.timers.setSound (c.fetched.v x) } } := by
    rw [Instruction.decode_of_setSound word]
    exact .setSound x
  rw [step_of_completes rule]
  rfl

theorem sound_step_unset (word : ¬c.nextOpcode.IsMisc 0x18) (wait : KeyWait) :
    (c.step wait).chip.timers.sound = c.timers.sound := by
  have kept : c.Same (c.step wait).chip .sound := step_same wait nofun word
  exact kept

end Chip

namespace Session

variable {s : Session} {m : Move} {ms : List Move} {n : UInt8}

/-! ### Settings and ticks -/

/-- What a move sets the sound timer to, if it does. -/
def sets? (s : Session) : Move → Option UInt8
  | .begin => none
  | .proceed =>
    let w := s.chip.nextOpcode
    if s.wait?.isSome ∧ w.IsMisc 0x18 then some (s.chip.v ⟨w.x, w.x_lt⟩) else none
  | .outside (.stimulus (.setSound b)) => some b
  | .outside _ => none

/-- Everything that the sound timer is set to. -/
def settings : Session → List Move → List UInt8
  | _, [] => []
  | s, m :: rest => (s.sets? m).toList ++ settings (s.move m) rest

/-- The timer clock fires. -/
def Fires (s : Session) (m : Move) : Prop := m = .outside (.stimulus .tick) ∧ s.clockGoing = true

instance (s : Session) (m : Move) : Decidable (s.Fires m) := inferInstanceAs (Decidable (_ ∧ _))

/-- How often the timer clock fires. -/
def firings : Session → List Move → Nat
  | _, [] => 0
  | s, m :: rest => (if s.Fires m then 1 else 0) + firings (s.move m) rest

/-- The tone that was started last has not been stopped. -/
def Sounds (s : Session) : Prop := s.tones.getLast? = some .toneStarted

instance (s : Session) : Decidable s.Sounds := inferInstanceAs (Decidable (_ = _))

theorem settings_append (s : Session) (ms more : List Move) :
    s.settings (ms ++ more) = s.settings ms ++ (s.moves ms).settings more := by
  induction ms generalizing s with
  | nil => rfl
  | cons m rest ih => rw [List.cons_append, settings, settings, ih, List.append_assoc, moves_cons]

theorem settings_cons_eq_nil :
    s.settings (m :: ms) = [] ↔ s.sets? m = none ∧ (s.move m).settings ms = [] := by
  simp [settings]

theorem Tuned.sounds_iff (h : s.Tuned) : s.Sounds ↔ s.toneOn = true := by
  obtain ⟨n, tones, playing⟩ := h.alternate
  rw [Sounds, tones, last_alternating_started, playing, decide_eq_true_iff]

theorem move_of_fires (fires : s.Fires m) : s.move m = s.tick := by
  obtain ⟨rfl, going⟩ := fires
  exact if_pos going

theorem sound_of_fires (fires : s.Fires m) :
    (s.move m).chip.timers.sound.toNat = s.chip.timers.sound.toNat - 1 := by
  rw [move_of_fires fires, tick_eq]
  exact Timers.toNat_countDown _

theorem sound_of_sets (set : s.sets? m = some n) : (s.move m).chip.timers.sound = n := by
  cases m with
  | begin => contradiction
  | proceed =>
    unfold sets? at set
    dsimp only at set
    split at set
    · next steps =>
      obtain ⟨wait, next⟩ := Option.isSome_iff_exists.mp steps.1
      rw [move, s.proceeds.chip_of_wait next, Chip.sound_step_set steps.2]
      exact Option.some.inj set
    · contradiction
  | outside event =>
    cases event with
    | requestQuit => contradiction
    | stimulus stimulus =>
      cases stimulus with
      | setSound b => exact Option.some.inj set
      | tick | setDelay b | key event => contradiction

theorem Proceeds.sound_of_unset {t : Session} (rule : Proceeds s t)
    (unset : s.sets? .proceed = none) : t.chip.timers.sound = s.chip.timers.sound := by
  cases rule with
  | @step wait next steps =>
    have word : ¬s.chip.nextOpcode.IsMisc 0x18 := by simpa [sets?, next] using unset
    exact Chip.sound_step_unset word wait
  | _ => rfl

theorem sound_of_unset (unset : s.sets? m = none) (still : ¬s.Fires m) :
    (s.move m).chip.timers.sound = s.chip.timers.sound := by
  cases m with
  | begin =>
    rcases s.move_begin_cases with ⟨_, _, run⟩ | run
    · rw [run]
      rfl
    · rw [run]
  | proceed => exact s.proceeds.sound_of_unset unset
  | outside event =>
    cases event with
    | requestQuit => rfl
    | stimulus stimulus =>
      cases stimulus with
      | setSound b => contradiction
      | setDelay b | key event => rfl
      | tick =>
        have ignored : s.move (.outside (.stimulus .tick)) = s :=
          if_neg fun going => still ⟨rfl, going⟩
        rw [ignored]

/-- The sound timer counts the ticks since it was set. -/
theorem sound_moves (unset : s.settings ms = []) :
    (s.moves ms).chip.timers.sound.toNat = s.chip.timers.sound.toNat - s.firings ms := by
  induction ms generalizing s with
  | nil => rfl
  | cons m rest ih =>
    obtain ⟨first, later⟩ := settings_cons_eq_nil.mp unset
    rw [moves_cons, ih later, firings]
    by_cases fires : s.Fires m
    · rw [sound_of_fires fires, if_pos fires]
      omega
    · rw [sound_of_unset first fires, if_neg fires]
      omega

/-! ### Tones while the clock goes -/

theorem Proceeds.going {t : Session} (rule : Proceeds s t) (going : t.clockGoing = true) :
    s.clockGoing = true := by
  cases rule with
  | stop => contradiction
  | _ => exact going

/-- Within a run the clock does not start again. -/
theorem going_of_move (one : m ≠ .begin) (going : (s.move m).clockGoing = true) :
    s.clockGoing = true := by
  cases m with
  | begin => contradiction
  | proceed => exact s.proceeds.going going
  | outside event =>
    rw [move] at going
    rcases s.after_cases event with ⟨_, on, _⟩ | ⟨_, run⟩ | run | run
    · exact on
    all_goals
      rw [run] at going
      exact going

theorem going_of_moves (one : .begin ∉ ms) (going : (s.moves ms).clockGoing = true) :
    s.clockGoing = true := by
  induction ms generalizing s with
  | nil => exact going
  | cons m rest ih =>
    exact going_of_move (fun h => one (by simp [h])) (ih (List.not_mem_of_not_mem_cons one) going)

theorem Proceeds.tone_of_ticks {t : Session} (rule : Proceeds s t) (ticks : s.phase.ticks = true) :
    t.tones = s.tones ∧ t.toneOn = s.toneOn := by
  cases rule with
  | present | stop =>
    rw [tones_emit, ← List.append_nil s.tones]
    exact ⟨rfl, rfl⟩
  | silence phase | silent phase =>
    rw [phase] at ticks
    contradiction
  | _ => exact ⟨rfl, rfl⟩

/-- While the clock goes nothing but a tick touches the tone. -/
theorem Tuned.tone_of_going (h : s.Tuned) (one : m ≠ .begin) (still : ¬s.Fires m)
    (going : (s.move m).clockGoing = true) :
    (s.move m).tones = s.tones ∧ (s.move m).toneOn = s.toneOn := by
  cases m with
  | begin => contradiction
  | proceed => exact s.proceeds.tone_of_ticks (h.clock ▸ going_of_move one going)
  | outside event =>
    rw [Session.move]
    rcases s.after_cases event with ⟨tick, clock, _⟩ | ⟨_, run⟩ | run | run
    · exact absurd ⟨congrArg Move.outside tick, clock⟩ still
    all_goals
      rw [run]
      exact ⟨rfl, rfl⟩

/-- What goes out over `k` ticks from a sound timer at `n`, with a tone that is on or off before them: a
start with the first tick, a stop with the one after the last that leaves the tone on. -/
def toneCalls (n : Nat) (on : Bool) (k : Nat) : List Entry :=
  (if 0 < k ∧ 0 < n ∧ on = false then [.toneStarted] else []) ++
    if n < k ∧ (0 < n ∨ on = true) then [.toneStopped] else []

theorem toneCalls_succ (n : Nat) (on : Bool) (k : Nat) : toneCalls n on (k + 1) =
    (if decide (0 < n) = on then [] else [.tone (decide (0 < n))]) ++
      toneCalls (n - 1) (decide (0 < n)) k := by
  unfold toneCalls Entry.tone
  cases n <;> cases on <;> simp

/-- A tick leaves the tone on if the sound timer has not run out. -/
theorem tone_of_fires (fires : s.Fires m) :
    let on := decide (0 < s.chip.timers.sound.toNat)
    (s.move m).tones = s.tones ++ (if on = s.toneOn then [] else [.tone on]) ∧
      (s.move m).toneOn = on := by
  have sounding : s.chip.timers.isSounding = decide (0 < s.chip.timers.sound.toNat) := by
    simp [Timers.isSounding, UInt8.lt_iff_toNat_lt]
  rw [move_of_fires fires, tick_eq, ← sounding]
  refine ⟨s.tones_followTone, ?_⟩
  rw [followTone_eq]

/-- The tone follows the ticks of a run in which the sound timer is left alone. -/
theorem Tuned.tone_moves (h : s.Tuned) (one : .begin ∉ ms) (unset : s.settings ms = [])
    (going : (s.moves ms).clockGoing = true) :
    let n := s.chip.timers.sound.toNat
    let k := s.firings ms
    (s.moves ms).tones = s.tones ++ toneCalls n s.toneOn k ∧
      (s.moves ms).toneOn = if k = 0 then s.toneOn else decide (k ≤ n) := by
  induction ms generalizing s with
  | nil => simp [moves, firings, toneCalls]
  | cons m rest ih =>
    intro n k
    obtain ⟨first, later⟩ := settings_cons_eq_nil.mp unset
    have other : m ≠ .begin := fun h => one (by simp [h])
    have more : .begin ∉ rest := List.not_mem_of_not_mem_cons one
    obtain ⟨tones, on⟩ := ih (h.move m) more later going
    by_cases fires : s.Fires m
    · have counted : k = (s.move m).firings rest + 1 := by
        simp only [k, firings, if_pos fires, Nat.add_comm]
      obtain ⟨edge, turned⟩ := tone_of_fires fires
      rw [sound_of_fires fires, turned] at tones on
      refine ⟨?_, ?_⟩
      · rw [moves_cons, tones, edge, counted, toneCalls_succ, List.append_assoc]
      · rw [moves_cons, on, counted]
        cases (s.move m).firings rest <;> simp <;> omega
    · have counted : k = (s.move m).firings rest := by
        simp only [k, firings, if_neg fires, Nat.zero_add]
      obtain ⟨same, kept⟩ := h.tone_of_going other fires (going_of_moves more going)
      rw [sound_of_unset first fires, same, kept] at tones
      rw [sound_of_unset first fires, kept] at on
      rw [moves_cons, counted]
      exact ⟨tones, on⟩

/-- The length of a tone. Let the sound timer be set to `n`, before a run or in it, and not again. Of the
ticks of that run that come next, the first `n` leave the tone on and the one after them leaves it off. A start
goes out with the first of them at most, if no tone is on by then, and a stop with the last of them, if a tone
is on by then. -/
theorem tone_lasts_as_set {rom : Rom} {config : Config} {random : RandomStream} {s₀ : Session}
    (opened : open? rom config random = .ok s₀) (history : List Move) {m : Move} {n : UInt8}
    (set : (s₀.moves history).sets? m = some n) (between ms : List Move) :
    let s := (s₀.moves history).move m
    let r := s.moves between
    let u := r.moves ms
    let k := r.firings ms
    s.firings between = 0 → .begin ∉ ms → s.settings (between ++ ms) = [] → u.clockGoing = true →
    (0 < k → (u.Sounds ↔ k ≤ n.toNat)) ∧
    u.tones = r.tones ++
      (if 0 < k ∧ 0 < n.toNat ∧ ¬r.Sounds then [.toneStarted] else []) ++
      (if n.toNat < k ∧ (0 < n.toNat ∨ r.Sounds) then [.toneStopped] else []) := by
  intro s r u k quiet one unset going
  obtain ⟨_, c, _, rfl⟩ := open?_eq_ok_iff.mp opened
  have tuned : s.Tuned := (moves_preserve (fun _ m h => h.move m) (tuned_around c) history).move m
  have tuned_r : r.Tuned := moves_preserve (fun _ m h => h.move m) tuned between
  have tuned_u : u.Tuned := moves_preserve (fun _ m h => h.move m) tuned_r ms
  rw [settings_append, List.append_eq_nil_iff] at unset
  have left : r.chip.timers.sound.toNat = n.toNat := by
    rw [sound_moves unset.1, quiet, sound_of_sets set, Nat.sub_zero]
  obtain ⟨tones, on⟩ := tuned_r.tone_moves one unset.2 going
  rw [left] at tones on
  refine ⟨?_, ?_⟩
  · intro fired
    rw [tuned_u.sounds_iff, on, if_neg (Nat.ne_of_gt fired), decide_eq_true_iff]
  · rw [tones, toneCalls, List.append_assoc]
    simp only [tuned_r.sounds_iff, Bool.not_eq_true]
    rfl

/-- A tone of two ticks is on after the second of them and off after the third. -/
theorem two_ticks_sound :
    let rom : Rom := ⟨"TWICE", [0x60, 0x02, 0xF0, 0x18, 0x12, 0x04]⟩
    let s₀ := around (Chip.boot rom .standard (.cycle []))
    let history : List Move := .begin :: .replicate 3 .proceed
    let tick : Move := .outside (.stimulus .tick)
    let r := ((s₀.moves history).move .proceed).moves [.proceed]
    let u := r.moves [tick, .proceed, tick]
    (open? rom .standard (.cycle []) = .ok s₀ ∧ (s₀.moves history).sets? .proceed = some 2) ∧
    u.Sounds ∧ ¬(u.move tick).Sounds ∧ (u.move tick).tones = [.toneStarted, .toneStopped] := by
  intro rom s₀ history tick r u
  have opened : open? rom .standard (.cycle []) = .ok s₀ :=
    open?_eq_ok_iff.mpr ⟨by decide, _, Chip.start_eq_ok_iff.mpr ⟨by decide, by decide, rfl⟩, rfl⟩
  let s := (s₀.moves history).move .proceed
  obtain ⟨set, quiet, silent, twice, thrice, unset, later, going, ends⟩ :
      (s₀.moves history).sets? .proceed = some 2 ∧ s.firings [.proceed] = 0 ∧ r.tones = [] ∧
      r.firings [tick, .proceed, tick] = 2 ∧ r.firings [tick, .proceed, tick, tick] = 3 ∧
      s.settings [.proceed, tick, .proceed, tick] = [] ∧
      s.settings [.proceed, tick, .proceed, tick, tick] = [] ∧
      u.clockGoing = true ∧ (u.move tick).clockGoing = true := by
    decide +kernel
  obtain ⟨early, _⟩ := tone_lasts_as_set opened history set [.proceed] [tick, .proceed, tick]
    quiet (by decide) unset going
  obtain ⟨late, tones⟩ := tone_lasts_as_set opened history set [.proceed]
    [tick, .proceed, tick, tick] quiet (by decide) later ends
  rw [twice] at early
  rw [thrice] at late tones
  have off : ¬r.Sounds := by simp [Sounds, silent]
  rw [silent, if_pos ⟨by decide, by decide, off⟩] at tones
  exact ⟨⟨opened, set⟩, (early (by decide)).mpr (by decide),
    fun on => absurd ((late (by decide)).mp on) (by decide), tones⟩

end Session
end ChipEight
