import ChipEight.Proofs.Session.Moves
import ChipEight.Proofs.Start

/-! The picture that was shown last is the picture of the machine. Every completed step that draws is
shown once, in order and as the machine looked right after it, and nothing else touches the picture;
in between a picture is due only while the run is about to show it. -/
namespace ChipEight

/-- The picture that an entry hands to the display. -/
def Entry.picture? : Entry → Option Screen
  | .frame screen _ => some screen
  | _ => none

/-- A step that completed: its word, and the machine right after it. -/
structure Completed where
  word : Opcode
  chip : Chip

/-- The pictures that completed steps asked to be shown. -/
def Completed.drawn (steps : List Completed) : List Screen :=
  (steps.filter (·.word.draws)).map (·.chip.screen)

/-- The next step, if it completes. -/
def Chip.completed? (c : Chip) (wait : KeyWait) : Option Completed :=
  match (c.step wait).result with
  | .ok _ => some ⟨c.nextOpcode, (c.step wait).chip⟩
  | .error _ => none

theorem Chip.drawn_of_drawn {c : Chip} {wait : KeyWait} (h : (c.step wait).result = .ok .drawn) :
    Completed.drawn (c.completed? wait).toList = [(c.step wait).chip.screen] := by
  have draws := ((c.step_drawn_iff wait).mp h).1
  simp [completed?, h, Completed.drawn, draws]

theorem Chip.drawn_of_ne {c : Chip} {wait : KeyWait} (h : (c.step wait).result ≠ .ok .drawn) :
    Completed.drawn (c.completed? wait).toList = [] := by
  unfold completed?
  cases result : (c.step wait).result with
  | ok signal =>
    have other : c.nextOpcode.draws = false := by
      rw [Bool.eq_false_iff]
      intro draws
      exact h ((c.step_drawn_iff wait).mpr ⟨draws, signal, result⟩)
    simp [Completed.drawn, other]
  | error halt => rfl

namespace Session

/-- The step that a move completes, if it does. -/
def completed? (s : Session) : Move → Option Completed
  | .proceed => s.wait?.bind s.chip.completed?
  | _ => none

/-- The steps that the moves complete, in order. -/
def history : Session → List Move → List Completed
  | _, [] => []
  | s, m :: ms => (s.completed? m).toList ++ history (s.move m) ms

/-- The pictures that were shown so far. -/
def pictures (s : Session) : List Screen := s.log.filterMap Entry.picture?

/-- The picture that is to be shown next. -/
def due (s : Session) : List Screen :=
  match s.phase with
  | .showing => [s.chip.screen]
  | _ => []

theorem pictures_emit (s : Session) (e : Entry) :
    (s.emit e).pictures = s.pictures ++ e.picture?.toList := by
  rw [pictures, log_emit, List.filterMap_append]
  cases e <;> rfl

theorem due_of_ne {s : Session} (h : s.phase ≠ .showing) : s.due = [] := by
  unfold due
  split
  · contradiction
  · rfl

theorem due_of_wait {s : Session} {wait : KeyWait} (h : s.wait? = some wait) : s.due = [] := by
  apply due_of_ne
  intro showing
  simp [wait?, showing] at h

theorem pictures_after (s : Session) (event : Event) : (s.after event).pictures = s.pictures := by
  rcases s.after_cases event with ⟨_, _, run⟩ | ⟨stimulus, run⟩ | run | run
  · rw [run, tick_eq, followTone_eq]
    unfold pictures log Entry.tone
    repeat' split
    all_goals simp [Entry.picture?]
  · rw [run]
    rfl
  · rw [run]
    rfl
  · rw [run]

theorem due_after (s : Session) (event : Event) : (s.after event).due = s.due := by
  unfold due
  rw [s.after_phase event, s.after_screen event]

theorem drawn_of_no_wait {s : Session} (h : s.wait? = none) :
    Completed.drawn (s.completed? .proceed).toList = [] := by
  simp [completed?, h, Completed.drawn]

/-- An action of the run shows the picture that is due, and only a step makes one due. -/
theorem Proceeds.presented {s t : Session} (rule : Proceeds s t) :
    t.pictures ++ t.due =
      s.pictures ++ s.due ++ Completed.drawn (s.completed? .proceed).toList := by
  cases rule with
  | @step wait next steps =>
    rw [due_of_wait next, completed?, next, List.append_nil]
    by_cases drawn : (s.chip.step wait).result = .ok .drawn
    · rw [due, afterStep_showing.mpr drawn]
      exact congrArg (s.pictures ++ ·) (Chip.drawn_of_drawn drawn).symm
    · rw [due_of_ne (mt afterStep_showing.mp drawn)]
      exact congrArg (s.pictures ++ ·) (Chip.drawn_of_ne drawn).symm
  | present phase =>
    have one : s.due = [s.chip.screen] := by simp [due, phase]
    rw [drawn_of_no_wait (by simp [wait?, phase]), pictures_emit, one, List.append_nil]
    exact List.append_nil _
  | rest phase => rw [drawn_of_no_wait (by simp [wait?, phase]), List.append_nil]
  | wait phase waits =>
    have nothing : s.due = [] := due_of_ne (by simp [phase])
    rw [drawn_of_no_wait (by simp [wait?, phase, waits]), nothing, List.append_nil]
    rfl
  | goOn phase | quit phase | silent phase | clear phase | reopen phase =>
    have nothing : s.due = [] := due_of_ne (by simp [phase])
    rw [drawn_of_no_wait (by simp [wait?, phase]), nothing, List.append_nil]
    rfl
  | stop phase | silence phase =>
    have nothing : s.due = [] := due_of_ne (by simp [phase])
    rw [drawn_of_no_wait (by simp [wait?, phase]), nothing, pictures_emit, List.append_nil]
    exact List.append_nil _

theorem Proceeds.screen {s t : Session} (rule : Proceeds s t)
    (other : ∀ step, s.completed? .proceed = some step → step.word.draws = false) :
    t.chip.screen = s.chip.screen := by
  cases rule with
  | @step wait next steps =>
    apply Chip.step_screen
    intro drawn
    have draws := ((s.chip.step_drawn_iff wait).mp drawn).1
    have quiet := other ⟨s.chip.nextOpcode, (s.chip.step wait).chip⟩ (by
      simp [completed?, next, Chip.completed?, drawn])
    simp [draws] at quiet
  | _ => rfl

theorem begin_presents (s : Session) :
    (s.move .begin).pictures ++ (s.move .begin).due = s.pictures ++ s.due ∧
      (s.move .begin).chip.screen = s.chip.screen := by
  rcases s.move_begin_cases with ⟨last, phase, run⟩ | run
  · have nothing : s.due = [] := due_of_ne (by simp [phase])
    rw [run, begin, pictures_emit, nothing]
    exact ⟨List.append_nil _, rfl⟩
  · rw [run]
    exact ⟨rfl, rfl⟩

theorem presented_move (s : Session) (m : Move) :
    (s.move m).pictures ++ (s.move m).due =
      s.pictures ++ s.due ++ Completed.drawn (s.completed? m).toList := by
  cases m with
  | begin =>
    rw [s.begin_presents.1]
    exact (List.append_nil _).symm
  | outside event =>
    change (s.after event).pictures ++ (s.after event).due = _
    rw [pictures_after, due_after]
    exact (List.append_nil _).symm
  | proceed => exact s.proceeds.presented

/-- Only a step whose word draws changes the picture, and only when it completes. -/
theorem move_screen (s : Session) (m : Move)
    (other : ∀ step, s.completed? m = some step → step.word.draws = false) :
    (s.move m).chip.screen = s.chip.screen := by
  cases m with
  | begin => exact s.begin_presents.2
  | outside event => exact s.after_screen event
  | proceed => exact s.proceeds.screen other

theorem completed_move {s : Session} {m : Move} {step : Completed}
    (h : s.completed? m = some step) : (s.move m).chip = step.chip := by
  cases m with
  | begin => contradiction
  | outside event => contradiction
  | proceed =>
    obtain ⟨wait, next, done⟩ := Option.bind_eq_some_iff.mp h
    unfold Chip.completed? at done
    split at done
    · cases done
      exact s.proceeds.chip_of_wait next
    · contradiction

/-- After any moves, the pictures that were shown or are due are those of before and those of the
completed steps that draw. -/
theorem presented_moves (s : Session) (ms : List Move) :
    (s.moves ms).pictures ++ (s.moves ms).due =
      s.pictures ++ s.due ++ Completed.drawn (s.history ms) := by
  induction ms generalizing s with
  | nil => exact (List.append_nil _).symm
  | cons m rest ih =>
    rw [moves_cons, ih, presented_move, history, Completed.drawn, Completed.drawn, Completed.drawn,
      List.filter_append, List.map_append, List.append_assoc]

/-- The picture of the machine is the one that was shown or became due last. -/
def Current (s : Session) : Prop :=
  s.chip.screen = (s.pictures ++ s.due).getLast?.getD .blank

theorem Current.move {s : Session} (h : s.Current) (m : Move) : (s.move m).Current := by
  unfold Current at h ⊢
  rw [presented_move]
  by_cases draws : ∃ step, s.completed? m = some step ∧ step.word.draws = true
  · obtain ⟨step, done, draws⟩ := draws
    rw [done, completed_move done]
    simp [Completed.drawn, draws]
  · have other : ∀ step, s.completed? m = some step → step.word.draws = false := by
      intro step done
      rw [Bool.eq_false_iff]
      exact fun drawing => draws ⟨step, done, drawing⟩
    have nothing : Completed.drawn (s.completed? m).toList = [] := by
      cases done : s.completed? m with
      | none => rfl
      | some step => simp [Completed.drawn, other step done]
    rw [nothing, List.append_nil, s.move_screen m other, h]

/-- The picture is never stale. What was shown and is due are the pictures of the completed steps
`00E0` and `DXYN`, each once, in order and as the step left it. No other move changes the picture of
the machine. So it is the picture shown last unless the run is about to show it, and it is blank as
long as none was shown. -/
theorem picture_never_stale {rom : Rom} {config : Config} {random : RandomStream} {s₀ : Session}
    (opened : open? rom config random = .ok s₀) (ms : List Move) :
    let s := s₀.moves ms
    s.pictures ++ s.due = Completed.drawn (s₀.history ms) ∧
    (∀ m, (∀ step, s.completed? m = some step → step.word.draws = false) →
      (s.move m).chip.screen = s.chip.screen) ∧
    (s.phase ≠ .showing → s.chip.screen = s.pictures.getLast?.getD .blank) := by
  intro s
  obtain ⟨_, c, started, rfl⟩ := open?_eq_ok_iff.mp opened
  obtain ⟨_, _, rfl⟩ := Chip.start_eq_ok_iff.mp started
  refine ⟨presented_moves _ ms, s.move_screen, ?_⟩
  intro shown
  have fresh : (around (Chip.boot rom config random)).Current := rfl
  have current : s.Current := moves_preserve (P := Current) (fun _ m h => h.move m) fresh ms
  rwa [Current, due_of_ne shown, List.append_nil] at current

/-- A program that draws one glyph, and a run of it that is ended by a quit. -/
theorem glyph_stays_shown :
    let rom : Rom := ⟨"GLYPH", [0xA0, 0x50, 0xD0, 0x05]⟩
    let s₀ := around (Chip.boot rom .standard (.cycle []))
    let s := s₀.moves ([.begin] ++ List.replicate 4 .proceed ++ [.outside (.stimulus .tick), .proceed,
      .outside .requestQuit] ++ List.replicate 5 .proceed)
    open? rom .standard (.cycle []) = .ok s₀ ∧ s.phase = .idle (some .quit) ∧
    s.pictures.length = 1 ∧ s.chip.screen = s.pictures.getLast?.getD .blank ∧
    s.chip.screen.isLit 0 = true := by
  intro rom s₀ s
  have opened : open? rom .standard (.cycle []) = .ok s₀ :=
    open?_eq_ok_iff.mpr ⟨by decide, _, Chip.start_eq_ok_iff.mpr ⟨by decide, by decide, rfl⟩, rfl⟩
  obtain ⟨phase, shown, lit⟩ :
      s.phase = .idle (some .quit) ∧ s.pictures.length = 1 ∧ s.chip.screen.isLit 0 = true := by
    decide +kernel
  obtain ⟨_, _, current⟩ := picture_never_stale opened ([.begin] ++ List.replicate 4 .proceed ++
    [.outside (.stimulus .tick), .proceed, .outside .requestQuit] ++ List.replicate 5 .proceed)
  exact ⟨opened, phase, shown, current (by rw [phase]; exact nofun), lit⟩

end Session
end ChipEight
