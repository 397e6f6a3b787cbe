import ChipEight.Chip
import ChipEight.Dump
import ChipEight.Text

/-! The state of a machine as text: a heading per part, the values below it two tabs in. Every value
is a word of four digits; tables hold eight values a line behind their index range. The font region,
the picture and the keypad are left out. -/
namespace ChipEight.Report

def indent (line : String) : String := "\t\t" ++ line

/-- A table of values, eight a line, numbered from `first` on. -/
def table (first : Nat) : Nat → List UInt16 → List String
  | 0, _ => []
  | lines + 1, values =>
    indent (Dump.range first (first + 7) ++ Dump.entries (values.take 8)) ::
      table (first + 8) lines (values.drop 8)

/-- The return addresses, oldest first, filled up with zeros. -/
def stackValues (s : CallStack) : List UInt16 :=
  s.toList ++ List.replicate (CallStack.capacity - s.depth) 0

def timerLine (t : Timers) : String :=
  "delay " ++ Hex.word t.delay.toUInt16 ++ " sound " ++ Hex.word t.sound.toUInt16

def lines (c : Chip) : List String :=
  ["Chipset \x7b", "\tProgram Name :", indent c.name, "\tOpcode :", indent (Hex.word c.opcode),
    "\tProgram Counter :", indent (Hex.word c.registers.pc),
    "\tIndex :", indent (Hex.word c.registers.i), "\tTimers :", indent (timerLine c.timers),
    "\tRegister :"] ++
  table 0 2 (c.registers.v.toList.map UInt8.toUInt16) ++
  ["\tStack (depth " ++ toString c.stack.depth ++ ") :"] ++
  table 0 2 (stackValues c.stack) ++
  ["\tMemory :"] ++
  (Dump.rows c.memory).map (fun row => indent row.text) ++
  ["\x7d"]

end Report

def Chip.report (c : Chip) : String := Text.unlines (Report.lines c)

end ChipEight
