import ChipEight.Chip.Step

/-! A machine being driven: instructions one after the other, the timer clock beside them, pictures
and tones going out, quit requests coming in. A run is taken apart into atomic actions, each of which
is one `Phase`, so that events from outside can fall between any two of them. -/
namespace ChipEight

inductive Ending where
  | quit
  | interrupted
  | failed (halt : Halt)
  deriving DecidableEq, Repr

/-- The next atomic action of a run. -/
inductive Phase where
  /-- No run is going on; the ending is that of the last one. -/
  | idle (last : Option Ending)
  | checking
  | stepping
  /-- Take the step whose key wait has begun. -/
  | awaiting (wait : KeyWait)
  /-- Hand the picture to the display. -/
  | showing
  | stopping (ending : Ending)
  | silencing (ending : Ending)
  | clearing (ending : Ending)
  | reopening (ending : Ending)
  deriving DecidableEq, Repr

inductive Entry where
  | clockStarted
  | clockStopped
  /-- The display is given the picture; the timers are those of that moment. -/
  | frame (screen : Screen) (timers : Timers)
  | toneStarted
  | toneStopped
  deriving DecidableEq

/-- What the outside does to a session. -/
inductive Event where
  /-- Something that reaches the machine. A tick comes from the timer clock, so there is none unless
  the clock is going. -/
  | stimulus (stimulus : Stimulus)
  /-- The first half of a quit: the run ends before its next step. -/
  | requestQuit
  deriving DecidableEq, Repr

/-- A quit as a whole: the request, then the keypad is closed so that no key wait outlasts it. -/
def Event.quit : List Event := [.requestQuit, .stimulus (.key .close)]

structure Session where
  chip : Chip
  quitRequested : Bool
  clockGoing : Bool
  toneOn : Bool
  phase : Phase
  steps : Nat
  frames : Nat
  /-- What has gone out so far, latest first. -/
  trace : List Entry

namespace Session

/-- A session around a machine that has not run yet. -/
def around (chip : Chip) : Session := ⟨chip, false, false, false, .idle none, 0, 0, []⟩

/-- A session for the rom; a rate of zero is refused even if the rom is unfit too. -/
def open? (rom : Rom) (config : Config) (random : RandomStream) : Except ConfigFault Session := do
  if config.rate = 0 then throw .zeroRate
  let chip ← Chip.start rom config random
  return around chip

def log (s : Session) : List Entry := s.trace.reverse

def emit (s : Session) (e : Entry) : Session := { s with trace := e :: s.trace }

/-- Lets the tone follow the sound timer; only a change goes out. -/
def followTone (s : Session) : Session :=
  let due := s.chip.timers.isSounding
  if due = s.toneOn then s
  else { s with toneOn := due }.emit (if due then .toneStarted else .toneStopped)

/-- The timer clock fires. The tone is looked at before the timers move, so it lasts as many ticks
as the sound timer was set to. -/
def tick (s : Session) : Session :=
  let followed := s.followTone
  { followed with chip := followed.chip.after .tick }

def after (s : Session) : Event → Session
  | .stimulus .tick => if s.clockGoing then s.tick else s
  | .stimulus stimulus => { s with chip := s.chip.after stimulus }
  | .requestQuit => { s with quitRequested := true }

def afterAll (s : Session) (events : List Event) : Session := events.foldl after s

/-- Begins a run: the clock is started and no tone counts as playing. -/
def begin (s : Session) : Session :=
  { s with clockGoing := true, toneOn := false, phase := .checking, steps := 0, frames := 0 }.emit
    .clockStarted

/-- Takes a step and decides where the run goes on. -/
def takeStep (s : Session) (wait : KeyWait) : Session :=
  match s.chip.step wait with
  | ⟨chip, .ok .quiet⟩ => { s with chip, phase := .checking, steps := s.steps + 1 }
  | ⟨chip, .ok .drawn⟩ => { s with chip, phase := .showing, steps := s.steps + 1 }
  | ⟨chip, .ok .interrupted⟩ => { s with chip, phase := .stopping .interrupted }
  | ⟨chip, .error .waiting⟩ => { s with chip, phase := .awaiting wait }
  | ⟨chip, .error h⟩ => { s with chip, phase := .stopping (.failed h) }

def proceed (s : Session) : Session :=
  match s.phase with
  | .idle _ => s
  | .checking => { s with phase := if s.quitRequested then .stopping .quit else .stepping }
  | .stepping =>
    if s.chip.awaitsKey then { s with phase := .awaiting s.chip.keypad.beginWait }
    else s.takeStep s.chip.keypad.beginWait
  | .awaiting wait => s.takeStep wait
  | .showing =>
    { s with phase := .checking, frames := s.frames + 1 }.emit (.frame s.chip.screen s.chip.timers)
  | .stopping e => { s with clockGoing := false, phase := .silencing e }.emit .clockStopped
  | .silencing e =>
    if s.toneOn then { s with toneOn := false, phase := .clearing e }.emit .toneStopped
    else { s with phase := .clearing e }
  | .clearing e => { s with quitRequested := false, phase := .reopening e }
  | .reopening e => { s with chip := s.chip.after (.key .reopen), phase := .idle (some e) }

/-- One atomic move: the run goes on, a run begins, or the outside does something. -/
inductive Move where
  | begin
  | proceed
  | outside (event : Event)
  deriving DecidableEq, Repr

/-- The session after a move. A run begins only when none is going on. -/
def move (s : Session) : Move → Session
  | .begin => match s.phase with
    | .idle _ => s.begin
    | _ => s
  | .proceed => s.proceed
  | .outside event => s.after event

def moves (s : Session) (ms : List Move) : Session := ms.foldl move s

end Session
end ChipEight
