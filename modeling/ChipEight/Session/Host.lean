import ChipEight.Session

/-! A session run to its end against a host that does fixed things at fixed places: while a picture is
shown, before a step, and while a key wait goes on. -/
namespace ChipEight

structure Host where
  /-- What is done while the picture with this number in the run is shown, counted from zero. -/
  onFrame : Nat → List Event
  /-- What is done before the step with this number in the run, counted from zero. -/
  beforeStep : Nat → List Event
  /-- What is done again and again while a key wait goes on. -/
  whileWaiting : List Event

/-- What a host does in one run, written down beforehand. -/
structure Script where
  /-- What is done while each picture is shown; one more picture makes the host quit. -/
  frames : List (List Event)
  /-- A key that goes down again and again and is never let go. -/
  held : Option Nat
  /-- Steps between two ticks of a clock that the host itself keeps going, if it does. -/
  stepsPerTick : Option Nat

namespace Script

/-- One more press of the key that is held. -/
def presses (script : Script) : List Event := script.held.toList.map fun k => .stimulus (.key (.press k))

/-- The tick that falls before the step with this number, if one does. -/
def ticks (script : Script) (step : Nat) : List Event :=
  match script.stepsPerTick with
  | some n => if 0 < step ∧ step % n = 0 then [.stimulus .tick] else []
  | none => []

def host (script : Script) : Host where
  onFrame k := script.frames.getD k Event.quit
  beforeStep step := script.presses ++ script.ticks step
  whileWaiting := script.presses

end Script

namespace Session

/-- The run's next atomic action together with what the host does at that place. -/
def advance (host : Host) (s : Session) : Session :=
  match s.phase with
  | .showing => s.proceed.afterAll (host.onFrame s.frames)
  | .stepping => (s.afterAll (host.beforeStep s.steps)).proceed
  | .awaiting _ => (s.afterAll host.whileWaiting).proceed
  | _ => s.proceed

/-- Goes on until the run is over, for at most so many atomic actions. -/
def finish (host : Host) : Nat → Session → Session
  | 0, s => s
  | fuel + 1, s =>
    match s.phase with
    | .idle _ => s
    | _ => finish host fuel (s.advance host)

/-- A run from beginning to end, within `fuel` atomic actions. -/
def run (host : Host) (fuel : Nat) (s : Session) : Session := finish host fuel s.begin

/-- A run that follows a script; the key that is held stays down after it. -/
def follow (script : Script) (fuel : Nat) (s : Session) : Session :=
  ((s.afterAll script.presses).run script.host fuel).afterAll script.presses

/-- How the last run ended, if there was one and it is over. -/
def ending? (s : Session) : Option Ending :=
  match s.phase with
  | .idle last => last
  | _ => none

end Session
end ChipEight
