import ChipEight.Fault

/-! The sixteen keys. Presses are counted, so that a wait for a key can tell a press that happened
during the wait from a key that was held before. Closing the keypad ends every wait until it is
opened again. Key numbers of events may be of any size; one that names no key is ignored. -/
namespace ChipEight

abbrev Key := Fin 16

/-- The number of a key as a register holds it. -/
def Key.toByte (k : Key) : UInt8 := UInt8.ofNat k.val

structure Keypad where
  held : Vector Bool 16
  /-- Presses so far, modulo the width of the counter. -/
  presses : UInt64
  last : Option Key
  closed : Bool
  deriving DecidableEq

/-- What can happen to the keypad from outside. -/
inductive KeyEvent where
  | press (k : Nat)
  | release (k : Nat)
  | releaseAll
  | close
  | reopen
  deriving DecidableEq, Repr

namespace Keypad

def initial : Keypad := ⟨Vector.replicate _ false, 0, none, false⟩

def press (p : Keypad) (k : Nat) : Keypad :=
  if h : k < 16 then
    { p with held := p.held.set k true, presses := p.presses + 1, last := some ⟨k, h⟩ }
  else p

def release (p : Keypad) (k : Nat) : Keypad :=
  if h : k < 16 then { p with held := p.held.set k false } else p

def releaseAll (p : Keypad) : Keypad := { p with held := Vector.replicate _ false }

def close (p : Keypad) : Keypad := { p with closed := true }

def reopen (p : Keypad) : Keypad := { p with closed := false }

def after (p : Keypad) : KeyEvent → Keypad
  | .press k => p.press k
  | .release k => p.release k
  | .releaseAll => p.releaseAll
  | .close => p.close
  | .reopen => p.reopen

def afterAll (p : Keypad) (events : List KeyEvent) : Keypad := events.foldl after p

def isHeld (p : Keypad) (k : Key) : Bool := p.held[k]

/-- Whether the key with number `k` is held, if there is one. -/
def isPressed (p : Keypad) (k : Nat) : Except Violation Bool :=
  if h : k < 16 then .ok (p.isHeld ⟨k, h⟩) else .error (.noKey k)

def heldKeys (p : Keypad) : List Key := (List.finRange 16).filter p.isHeld

theorem mem_heldKeys {p : Keypad} {k : Key} : k ∈ p.heldKeys ↔ p.held.get k = true := by
  rw [heldKeys, List.mem_filter]
  exact and_iff_right (List.mem_finRange k)

/-- The keys are told in order, each of them once. -/
theorem pairwise_heldKeys (p : Keypad) : p.heldKeys.Pairwise (· < ·) :=
  (List.pairwise_lt_finRange 16).filter _

end Keypad

/-- A wait for a key, which remembers how many presses it must not count. -/
structure KeyWait where
  seen : UInt64
  deriving DecidableEq, Repr

inductive KeyReply where
  | key (k : Key)
  | cancelled
  | pending
  deriving DecidableEq, Repr

def Keypad.beginWait (p : Keypad) : KeyWait := ⟨p.presses⟩

/-- How the wait stands when it looks at the keypad; a closed keypad is seen first. -/
def KeyWait.poll (w : KeyWait) (p : Keypad) : KeyReply :=
  if p.closed then .cancelled
  else if p.presses = w.seen then .pending
  else match p.last with
    | some k => .key k
    | none => .cancelled

/-- A wait that lasts while the events happen, and the keypad after it. A wait on a closed keypad is
over before anything can happen. -/
def Keypad.await (p : Keypad) (events : List KeyEvent) : Keypad × KeyReply :=
  let wait := p.beginWait
  match wait.poll p with
  | .pending => (p.afterAll events, wait.poll (p.afterAll events))
  | reply => (p, reply)

end ChipEight
