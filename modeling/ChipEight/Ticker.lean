/-! A callback that a thread of its own runs again and again until it is told to stop. The handle and
every thread that was ever started move in atomic actions; an action that is not possible changes
nothing. Telling a thread to stop is a message into a channel with room for one. Time is modeled only
as the right of a resting thread to begin the callback. -/
namespace ChipEight

inductive Activity where
  /-- Waiting for a message or for the interval to pass. -/
  | resting
  | calling
  /-- Nothing any more; `failed` tells whether the callback brought it down. -/
  | over (failed : Bool)
  deriving DecidableEq, Repr

structure Thread where
  activity : Activity
  sent : Nat
  received : Nat
  calls : Nat
  /-- The run of the callback that fails, if one does. -/
  failsAt : Option Nat
  deriving DecidableEq, Repr

namespace Thread

def fresh (failsAt : Option Nat) : Thread := ⟨.resting, 0, 0, 0, failsAt⟩

def isAlive (t : Thread) : Bool :=
  match t.activity with
  | .over _ => false
  | _ => true

/-- One more message; a thread that has ended has no channel any more. -/
def send (t : Thread) : Thread := if t.isAlive then { t with sent := t.sent + 1 } else t

/-- The interval has passed and the callback begins. -/
def beginCall (t : Thread) : Thread :=
  match t.activity with
  | .resting => { t with activity := .calling }
  | _ => t

/-- The callback returns, or fails and takes the thread with it. -/
def endCall (t : Thread) : Thread :=
  match t.activity with
  | .calling =>
    { t with
      calls := t.calls + 1
      activity := if t.failsAt = some (t.calls + 1) then .over true else .resting }
  | _ => t

/-- The thread takes a message out of its channel and ends. -/
def receive (t : Thread) : Thread :=
  if t.activity = .resting ∧ t.received < t.sent then
    { t with received := t.received + 1, activity := .over false }
  else t

end Thread

inductive Request where
  | start (failsAt : Option Nat)
  | stop
  /-- The handle is given up for good. -/
  | discard
  deriving DecidableEq, Repr

/-- What the handle holds. -/
inductive Holding where
  | nothing
  /-- The newest thread, not yet told to stop. -/
  | thread
  /-- The newest thread, told to stop; the request goes on once it has ended. -/
  | joining (request : Request)
  | gone
  deriving DecidableEq, Repr

structure Ticker where
  holding : Holding
  /-- Every thread that was ever started, newest first. -/
  threads : List Thread
  deriving DecidableEq, Repr

namespace Ticker

/-- One atomic action of the handle, or of the thread with the given place in `threads`. -/
inductive Action where
  | request (request : Request)
  /-- The handle sees that the thread it waits for has ended. -/
  | join
  | beginCall (thread : Nat)
  | endCall (thread : Nat)
  | receive (thread : Nat)
  deriving DecidableEq, Repr

def unstarted : Ticker := ⟨.nothing, []⟩

def isAlive (t : Ticker) : Bool := t.threads.any Thread.isAlive

def newestOver (t : Ticker) : Bool := t.threads.head?.all fun thread => !thread.isAlive

/-- Completes a request once no thread is held any more. -/
def complete (t : Ticker) : Request → Ticker
  | .start failsAt => ⟨.thread, .fresh failsAt :: t.threads⟩
  | .stop => { t with holding := .nothing }
  | .discard => { t with holding := .gone }

/-- The ticker after an action. A thread that is held is told to stop before anything else is done,
so a start on a running ticker never leaves the old thread behind. -/
def act (t : Ticker) : Action → Ticker
  | .request request =>
    match t.holding with
    | .nothing => t.complete request
    | .thread => ⟨.joining request, t.threads.modifyHead Thread.send⟩
    | .joining _ | .gone => t
  | .join =>
    match t.holding with
    | .joining request => if t.newestOver then t.complete request else t
    | _ => t
  | .beginCall k => { t with threads := t.threads.modify k Thread.beginCall }
  | .endCall k => { t with threads := t.threads.modify k Thread.endCall }
  | .receive k => { t with threads := t.threads.modify k Thread.receive }

def actAll (t : Ticker) (actions : List Action) : Ticker := actions.foldl act t

/-- A request carried through, with the newest thread taking its message at once. -/
def carryOut (t : Ticker) (request : Request) : Ticker :=
  t.actAll [.request request, .receive 0, .join]

/-- Time passes in which the newest thread runs its callback up to `n` times. -/
def elapse (t : Ticker) (n : Nat) : Ticker :=
  t.actAll (List.replicate n [.beginCall 0, .endCall 0]).flatten

def calls (t : Ticker) : Nat := (t.threads.head?.map Thread.calls).getD 0

/-- Time passes until the newest thread's callback has run at least `n` times or never will. -/
def elapseTo (t : Ticker) (n : Nat) : Ticker := t.elapse (n - t.calls)

/-- Time passes until the newest thread has failed, if it ever does. -/
def elapseToEnd (t : Ticker) : Ticker := t.elapseTo ((t.threads.head?.bind Thread.failsAt).getD 0)

end Ticker
end ChipEight
