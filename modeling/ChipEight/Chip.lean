import ChipEight.CallStack
import ChipEight.Config
import ChipEight.Keypad
import ChipEight.Memory
import ChipEight.PcMove
import ChipEight.RandomStream
import ChipEight.Registers
import ChipEight.Rom
import ChipEight.Screen
import ChipEight.Timers

/-! The machine as one value. Everything that an instruction can read or change is a field, the
outside world included: the keypad, the timers and the bytes still to be drawn. The outside reaches a
machine between two steps through a `Stimulus` only. -/
namespace ChipEight

/-- What the outside does to a machine. -/
inductive Stimulus where
  | tick
  | setDelay (b : UInt8)
  | setSound (b : UInt8)
  | key (event : KeyEvent)
  deriving DecidableEq, Repr

structure Chip where
  name : String
  /-- The word that was fetched last. -/
  opcode : Opcode
  memory : Memory
  registers : Registers
  stack : CallStack
  timers : Timers
  screen : Screen
  keypad : Keypad
  random : RandomStream
  dialect : Dialect

namespace Chip

/-- The memory of a machine that is about to start. -/
def startImage (rom : Rom) (font : Font) : Except ConfigFault Memory :=
  (Memory.zero.loadFont font).loadProgram rom.data

def start (rom : Rom) (config : Config) (random : RandomStream) : Except ConfigFault Chip := do
  let memory ← startImage rom config.font
  return {
    name := rom.name
    opcode := 0
    memory
    registers := .initial
    stack := .empty
    timers := .zero
    screen := .blank
    keypad := .initial
    random
    dialect := config.dialect }

def v (c : Chip) (x : Register) : UInt8 := c.registers.get x

def setV (c : Chip) (x : Register) (b : UInt8) : Chip :=
  { c with registers := c.registers.set x b }

def setFlag (c : Chip) (b : Bool) : Chip := { c with registers := c.registers.setFlag b }

def setIndex (c : Chip) (a : UInt16) : Chip := { c with registers := c.registers.setIndex a }

def setPc (c : Chip) (a : UInt16) : Chip := { c with registers := c.registers.setPc a }

def move (c : Chip) (m : PcMove) : Chip := c.setPc (m.apply c.registers.pc)

def after (c : Chip) : Stimulus → Chip
  | .tick => { c with timers := c.timers.tick }
  | .setDelay b => { c with timers := c.timers.setDelay b }
  | .setSound b => { c with timers := c.timers.setSound b }
  | .key event => { c with keypad := c.keypad.after event }

def afterAll (c : Chip) (stimuli : List Stimulus) : Chip := stimuli.foldl after c

end Chip
end ChipEight
