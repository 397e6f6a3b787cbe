import ChipEight.Arithmetic
import ChipEight.Chip

/-! What each instruction does, with the program counter already behind the instruction's word. An
instruction looks at all its registers before it changes anything, so one that does not complete
leaves the machine as it was; the drawing of a random byte is the one exception. -/
namespace ChipEight

/-- What an instruction tells whoever drives the machine. -/
inductive Signal where
  | quiet
  /-- The picture may have changed and is to be shown. -/
  | drawn
  | interrupted
  deriving DecidableEq, Repr

/-- The effect of an instruction that completes. -/
structure Effect where
  chip : Chip
  move : PcMove := .stay
  signal : Signal := .quiet

/-- The machine afterwards and how the instruction ended. -/
structure Outcome (α : Type) where
  chip : Chip
  result : Except Halt α

namespace Chip

/-- The register with number `x`, or the report that there is none. -/
def register (x : Nat) : Except Halt Register := (Register.ofNat x).mapError .violation

/-- Whether the key that the register names is held; only the low nibble of the register counts. -/
def keyHeld (c : Chip) (x : Register) : Except Halt Bool :=
  (c.keypad.isPressed ((c.v x).toNat % 16)).mapError .violation

def holds (c : Chip) : Condition → Except Halt Bool
  | .equal x nn => do
    let x ← register x
    return decide (c.v x = nn)
  | .notEqual x nn => do
    let x ← register x
    return decide (c.v x ≠ nn)
  | .sameRegister x y => do
    let x ← register x
    let y ← register y
    return decide (c.v x = c.v y)
  | .otherRegister x y => do
    let x ← register x
    let y ← register y
    return decide (c.v x ≠ c.v y)
  | .keyHeld x => do
    let x ← register x
    c.keyHeld x
  | .keyUp x => do
    let x ← register x
    return !(← c.keyHeld x)

/-- Arithmetic `8XYT`; the flag is written last and wins over the result in `VF`. -/
def combine (c : Chip) (op : AluOp) (x y : Register) : Chip :=
  match op.eval c.dialect.shiftsVy (c.v x) (c.v y) with
  | (b, none) => c.setV x b
  | (b, some flag) => (c.setV x b).setFlag flag

/-- Drawing `DXYN`; the flag tells whether a lit pixel went out. -/
def drawSprite (c : Chip) (x y : Register) (n : UInt8) : Chip :=
  let (screen, erased) :=
    c.screen.draw (c.v x) (c.v y) (c.memory.readRange c.registers.i n.toNat)
  { c with screen }.setFlag erased

/-- Sum `FX1E`; the index keeps all sixteen bits of the sum. -/
def addIndex (c : Chip) (x : Register) : Chip :=
  let sum := c.registers.i + (c.v x).toUInt16
  if c.dialect.indexSetsFlag then (c.setIndex sum).setFlag (decide (0x1000 ≤ sum))
  else c.setIndex sum

/-- Glyph address `FX29`; only the low nibble of the register names a glyph. -/
def pointAtGlyph (c : Chip) (x : Register) : Chip :=
  c.setIndex (Layout.fontStart + Font.glyphRows * (c.v x % 16).toUInt16)

/-- Index after a block of the registers up to `x`. -/
def passBlock (c : Chip) (x : Register) : Chip :=
  if c.dialect.blockMovesIndex then c.setIndex (c.registers.i + UInt16.ofNat (x + 1)) else c

def store (c : Chip) (bytes : List UInt8) : Chip :=
  { c with memory := c.memory.writeAll c.registers.i bytes }

/-- Block load `FX65` without the move of `I`. -/
def fill (c : Chip) (x : Register) : Chip :=
  { c with registers :=
      c.registers.fillUpTo x fun k => c.memory.read (c.registers.i + UInt16.ofNat k) }

/-- The effect of an instruction; `wait` is the key wait that `FX0A` looks at. -/
def effect (wait : KeyWait) (c : Chip) : Instruction → Except Halt Effect
  | .clear => .ok { chip := { c with screen := .blank }, signal := .drawn }
  | .ret => do
    let (a, stack) ← c.stack.pop.mapError .stack
    return { chip := { c with stack }, move := .jump a }
  | .jump nnn => .ok { chip := c, move := .jump nnn }
  | .call nnn => do
    let stack ← (c.stack.push c.registers.pc).mapError .stack
    return { chip := { c with stack }, move := .jump nnn }
  | .skip condition => do
    let holds ← c.holds condition
    return { chip := c, move := .skipIf holds }
  | .load x nn => do
    let x ← register x
    return { chip := c.setV x nn }
  | .add x nn => do
    let x ← register x
    return { chip := c.setV x (c.v x + nn) }
  | .alu op x y => do
    let x ← register x
    let y ← register y
    return { chip := c.combine op x y }
  | .setIndex nnn => .ok { chip := c.setIndex nnn }
  | .jumpOffset nnn x => do
    let x ← register (if c.dialect.jumpAddsVx then x else 0)
    return { chip := c, move := .jump (nnn + (c.v x).toUInt16) }
  | .random x nn => do
    let x ← register x
    return { chip := { c with random := c.random.next }.setV x (c.random.byte ^^^ nn) }
  | .draw x y n => do
    let x ← register x
    let y ← register y
    return { chip := c.drawSprite x y n, signal := .drawn }
  | .readDelay x => do
    let x ← register x
    return { chip := c.setV x c.timers.delay }
  | .awaitKey x => do
    let x ← register x
    match wait.poll c.keypad with
    | .key k => return { chip := c.setV x k.toByte }
    | .cancelled =>
      return { chip := c, move := .jump (c.registers.pc - Opcode.bytes), signal := .interrupted }
    | .pending => throw .waiting
  | .setDelay x => do
    let x ← register x
    return { chip := { c with timers := c.timers.setDelay (c.v x) } }
  | .setSound x => do
    let x ← register x
    return { chip := { c with timers := c.timers.setSound (c.v x) } }
  | .addIndex x => do
    let x ← register x
    return { chip := c.addIndex x }
  | .pointAtGlyph x => do
    let x ← register x
    return { chip := c.pointAtGlyph x }
  | .storeDecimal x => do
    let x ← register x
    return { chip := c.store (decimalDigits (c.v x)) }
  | .storeBlock x => do
    let x ← register x
    return { chip := (c.store (c.registers.upTo x)).passBlock x }
  | .loadBlock x => do
    let x ← register x
    return { chip := (c.fill x).passBlock x }
  | .unknown _ => .ok { chip := c }

/-- What is left when the instruction does not complete: a random byte is drawn before the register
is looked at, and nothing else has happened. -/
def afterHalt (c : Chip) : Instruction → Chip
  | .random .. => { c with random := c.random.next }
  | _ => c

/-- Performs the instruction, with its move of the program counter still to be made. -/
def perform (wait : KeyWait) (i : Instruction) (c : Chip) : Outcome (PcMove × Signal) :=
  match c.effect wait i with
  | .ok e => ⟨e.chip, .ok (e.move, e.signal)⟩
  | .error h => ⟨c.afterHalt i, .error h⟩

def execute (wait : KeyWait) (i : Instruction) (c : Chip) : Outcome Signal :=
  match c.perform wait i with
  | ⟨c', .ok (m, s)⟩ => ⟨c'.move m, .ok s⟩
  | ⟨c', .error h⟩ => ⟨c', .error h⟩

end Chip
end ChipEight
