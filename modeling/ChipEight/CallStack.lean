import ChipEight.Fault

/-! The return addresses of the subroutines that are running, newest first. A stack never holds more
than it has room for, so a push may be refused. -/
namespace ChipEight

/-- How many return addresses a stack has room for. -/
def CallStack.capacity : Nat := 16

@[ext] structure CallStack where
  frames : List UInt16
  bounded : frames.length ≤ CallStack.capacity
  deriving DecidableEq

namespace CallStack

def empty : CallStack := ⟨[], Nat.zero_le _⟩

def depth (s : CallStack) : Nat := s.frames.length

def push (s : CallStack) (a : UInt16) : Except StackFault CallStack :=
  if room : s.depth < capacity then .ok ⟨a :: s.frames, room⟩ else .error .overflow

/-- The newest return address and the stack without it. -/
def pop (s : CallStack) : Except StackFault (UInt16 × CallStack) :=
  match s with
  | ⟨[], _⟩ => .error .underflow
  | ⟨a :: rest, bounded⟩ => .ok (a, ⟨rest, Nat.le_of_succ_le bounded⟩)

def toList (s : CallStack) : List UInt16 := s.frames.reverse

theorem depth_le (s : CallStack) : s.depth ≤ capacity := s.bounded

end CallStack
end ChipEight
