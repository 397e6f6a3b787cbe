import ChipEight.Proofs.Guard.Machine

/-! Instructions access by access. Each instruction is taken apart into what it looks at and what it writes,
in its order, every access under guard and on the machine that the one before left. An access that is refused
ends the instruction, and what was written before it stays written. Taken as a whole the instruction comes to
the same: all its refusals come before its first write, but for the random byte. -/
namespace ChipEight

/-- What ends an instruction early. -/
inductive Stop where
  | breach (breach : Breach)
  | stack (fault : StackFault)
  | waiting
  deriving DecidableEq, Repr

/-- A violation is a breach. -/
def Stop.ofHalt : Halt → Stop
  | .stack fault => .stack fault
  | .violation v => .breach (.violation v)
  | .waiting => .waiting

/-- Accesses one after the other. The machine stays as it is when one of them is refused. -/
abbrev Procedure (α : Type) := EStateM Stop Chip α

/-- The outcome of an instruction in the form of a procedure's. -/
def Outcome.asResult {α : Type} (o : Outcome α) : EStateM.Result Stop Chip α :=
  match o.result with
  | .ok a => .ok a o.chip
  | .error h => .error (.ofHalt h) o.chip

namespace Procedure

/-- A guarded look at the machine. -/
def access {α : Type} (look : Chip → Guarded α) : Procedure α := do
  match look (← get) with
  | .ok a => return a
  | .error b => throw (.breach b)

/-! ### Registers -/

def value (x : Nat) : Procedure UInt8 := access fun c => c.v <$> Guard.register x

def setValue (x : Nat) (b : UInt8) : Procedure Unit := do
  let x ← access fun _ => Guard.register x
  modify (·.setV x b)

def setFlag (b : Bool) : Procedure Unit := modify (·.setFlag b)

def index : Procedure UInt16 := return (← get).registers.i

def setIndex (a : UInt16) : Procedure Unit := modify (·.setIndex a)

/-- The values of the registers up to `x`. -/
def valuesUpTo (x : Nat) : Procedure (List UInt8) :=
  access fun c => c.registers.upTo <$> Guard.register x

/-- Replaces the registers up to `x` by a block that is as long as they are. -/
def fillUpTo (x : Nat) (bytes : List UInt8) : Procedure Unit := do
  let x ← access fun _ => Guard.register x
  let bytes ← access fun c => Guard.block (c.registers.upTo x).length bytes
  modify fun c => { c with registers := c.registers.fillUpTo x fun k => bytes[k]?.getD 0 }

/-- Moves the index behind a block of the registers up to `x`, if the dialect has it so. -/
def passBlock (start : UInt16) (x : Nat) : Procedure Unit := do
  if (← get).dialect.blockMovesIndex then
    let length ← access fun _ => Guard.fit 16 (x + 1)
    setIndex (start + UInt16.ofNat length)

/-! ### The other parts -/

def pop : Procedure UInt16 := do
  match (← get).stack.pop with
  | .ok (a, stack) =>
    modify ({ · with stack })
    return a
  | .error fault => throw (.stack fault)

def push (a : UInt16) : Procedure Unit := do
  match (← get).stack.push a with
  | .ok stack => modify ({ · with stack })
  | .error fault => throw (.stack fault)

def drawByte : Procedure UInt8 :=
  modifyGet fun c => (c.random.byte, { c with random := c.random.next })

def isPressed (k : Nat) : Procedure Bool :=
  access fun c => (c.keypad.isPressed k).mapError .violation

def readRange (a : UInt16) (length : Nat) : Procedure (List UInt8) :=
  access fun c => Guard.readRange c.memory a length

def write (a : UInt16) (b : UInt8) : Procedure Unit := do
  let memory ← access fun c => Guard.write c.memory a b
  modify ({ · with memory })

def writeAll (a : UInt16) : List UInt8 → Procedure Unit
  | [] => return
  | b :: rest => do
    write a b
    writeAll (a + 1) rest

/-- Draws and tells whether a lit pixel went out. -/
def draw (x y : UInt8) (sprite : List UInt8) : Procedure Bool := do
  let (screen, erased) ← access fun c => Guard.draw c.screen x y sprite
  modify ({ · with screen })
  return erased

/-! ### Instructions -/

def holds : Condition → Procedure Bool
  | .equal x nn => return decide ((← value x) = nn)
  | .notEqual x nn => return decide ((← value x) ≠ nn)
  | .sameRegister x y => do
    let vx ← value x
    let vy ← value y
    return decide (vx = vy)
  | .otherRegister x y => do
    let vx ← value x
    let vy ← value y
    return decide (vx ≠ vy)
  | .keyHeld x => do
    let vx ← value x
    isPressed (vx.toNat % 16)
  | .keyUp x => do
    let vx ← value x
    return !(← isPressed (vx.toNat % 16))

/-- The accesses of an instruction, with its move of the program counter still to be made. -/
def perform (wait : KeyWait) : Instruction → Procedure (PcMove × Signal)
  | .clear => do
    modify ({ · with screen := .blank })
    return (.stay, .drawn)
  | .ret => do
    let a ← pop
    return (.jump a, .quiet)
  | .jump nnn => return (.jump nnn, .quiet)
  | .call nnn => do
    push (← get).registers.pc
    return (.jump nnn, .quiet)
  | .skip condition => do
    let told ← holds condition
    return (.skipIf told, .quiet)
  | .load x nn => do
    setValue x nn
    return (.stay, .quiet)
  | .add x nn => do
    let vx ← value x
    setValue x (vx + nn)
    return (.stay, .quiet)
  | .alu op x y => do
    let vx ← value x
    let vy ← value y
    match op.eval (← get).dialect.shiftsVy vx vy with
    | (b, none) => setValue x b
    | (b, some flag) =>
      setValue x b
      setFlag flag
    return (.stay, .quiet)
  | .setIndex nnn => do
    setIndex nnn
    return (.stay, .quiet)
  | .jumpOffset nnn x => do
    let offset ← value (if (← get).dialect.jumpAddsVx then x else 0)
    return (.jump (nnn + offset.toUInt16), .quiet)
  | .random x nn => do
    let b ← drawByte
    setValue x (b ^^^ nn)
    return (.stay, .quiet)
  | .draw x y n => do
    let sprite ← readRange (← index) n.toNat
    let vx ← value x
    let vy ← value y
    let erased ← draw vx vy sprite
    setFlag erased
    return (.stay, .drawn)
  | .readDelay x => do
    let _ ← value x
    setValue x (← get).timers.delay
    return (.stay, .quiet)
  | .awaitKey x => do
    let _ ← value x
    match wait.poll (← get).keypad with
    | .key k =>
      setValue x k.toByte
      return (.stay, .quiet)
    | .cancelled => return (.jump ((← get).registers.pc - Opcode.bytes), .interrupted)
    | .pending => throw .waiting
  | .setDelay x => do
    let vx ← value x
    modify fun c => { c with timers := c.timers.setDelay vx }
    return (.stay, .quiet)
  | .setSound x => do
    let vx ← value x
    modify fun c => { c with timers := c.timers.setSound vx }
    return (.stay, .quiet)
  | .addIndex x => do
    let vx ← value x
    let sum := (← index) + vx.toUInt16
    setIndex sum
    if (← get).dialect.indexSetsFlag then setFlag (decide (0x1000 ≤ sum))
    return (.stay, .quiet)
  | .pointAtGlyph x => do
    let vx ← value x
    let rows ← access fun _ => Guard.fit 16 (Font.glyphRows.toNat * (vx % 16).toNat)
    let a ← access fun _ => Guard.fit 16 (Layout.fontStart.toNat + rows)
    setIndex (UInt16.ofNat a)
    return (.stay, .quiet)
  | .storeDecimal x => do
    let vx ← value x
    writeAll (← index) (decimalDigits vx)
    return (.stay, .quiet)
  | .storeBlock x => do
    let _ ← value x
    let start ← index
    writeAll start (← valuesUpTo x)
    passBlock start x
    return (.stay, .quiet)
  | .loadBlock x => do
    let _ ← value x
    let start ← index
    let length ← access fun _ => Guard.fit 64 (x + 1)
    fillUpTo x (← readRange start length)
    passBlock start x
    return (.stay, .quiet)
  | .unknown _ => return (.stay, .quiet)

def execute (wait : KeyWait) (i : Instruction) : Procedure Signal := do
  let (move, signal) ← perform wait i
  modify (·.move move)
  return signal

/-! ### What the accesses come to -/

variable {α : Type} {c : Chip} {wait : KeyWait} {i : Instruction}

theorem run_access {look : Chip → Guarded α} {a : α} (found : look c = .ok a) :
    (access look).run c = .ok a c := by
  rw [access, run_bind (EStateM.run_get c), found]
  rfl

theorem run_access_error {look : Chip → Guarded α} {b : Breach} (refused : look c = .error b) :
    (access look).run c = .error (.breach b) c := by
  rw [access, run_bind (EStateM.run_get c), refused]
  rfl

section
variable (x : Register) (c : Chip)

theorem run_value : (value x).run c = .ok (c.v x) c :=
  run_access (by rw [Guard.register_of_lt x.isLt]; rfl)

theorem run_valuesUpTo : (valuesUpTo x).run c = .ok (c.registers.upTo x) c :=
  run_access (by rw [Guard.register_of_lt x.isLt]; rfl)

theorem run_setValue (b : UInt8) : (setValue x b).run c = .ok () (c.setV x b) := by
  rw [setValue, run_bind (run_access (Guard.register_of_lt x.isLt))]
  rfl

theorem run_fillUpTo {bytes : List UInt8} (long : bytes.length = x + 1) :
    (fillUpTo x bytes).run c = .ok () { c with
      registers := c.registers.fillUpTo x fun k => bytes[k]?.getD 0 } := by
  have fits : bytes.length = (c.registers.upTo x).length := long.trans (c.registers.length_upTo x).symm
  rw [fillUpTo, run_bind (run_access (Guard.register_of_lt x.isLt)),
    run_bind (run_access (Guard.block_of_length fits))]
  rfl

theorem run_passBlock : (passBlock c.registers.i x).run c = .ok () (c.passBlock x) := by
  have narrow : x.val + 1 < 2 ^ 16 := by omega
  unfold Chip.passBlock
  rw [passBlock, run_bind (EStateM.run_get c)]
  split
  · rw [run_bind (run_access (Guard.fit_of_lt narrow))]
    rfl
  · rfl

end

theorem run_isPressed {x : Register} {held : Bool} (told : c.keyHeld x = .ok held) :
    (isPressed ((c.v x).toNat % 16)).run c = .ok held c :=
  run_access (mapError_eq_ok.mpr (mapError_eq_ok.mp told))

theorem run_index (c : Chip) : index.run c = .ok c.registers.i c := rfl

theorem run_readRange (c : Chip) (a : UInt16) (length : Nat) :
    (readRange a length).run c = .ok (c.memory.readRange a length) c :=
  run_access (Guard.readRange_eq c.memory a length)

theorem run_writeAll (c : Chip) (a : UInt16) (bytes : List UInt8) :
    (writeAll a bytes).run c = .ok () { c with memory := c.memory.writeAll a bytes } := by
  induction bytes generalizing a c with
  | nil => rfl
  | cons b rest ih =>
    have first : (write a b).run c = .ok () { c with memory := c.memory.write a b } := by
      rw [write, run_bind (run_access (Guard.write_eq c.memory a b))]
      rfl
    rw [writeAll, run_bind first]
    exact ih _ _

theorem run_draw (c : Chip) (x y : UInt8) (sprite : List UInt8) : (draw x y sprite).run c =
    .ok (c.screen.draw x y sprite).2 { c with screen := (c.screen.draw x y sprite).1 } := by
  rw [draw, run_bind (run_access (Guard.draw_eq c.screen x y sprite))]
  rfl

theorem run_pop {a : UInt16} {rest : CallStack} (top : c.stack.frames = a :: rest.frames) :
    pop.run c = .ok a { c with stack := rest } := by
  rw [pop, run_bind (EStateM.run_get c), CallStack.pop_eq_ok.mpr top]
  rfl

theorem run_push (a : UInt16) (room : c.stack.depth < CallStack.capacity) :
    (push a).run c = .ok () { c with stack := ⟨a :: c.stack.frames, room⟩ } := by
  have pushed : c.stack.push a = .ok ⟨a :: c.stack.frames, room⟩ :=
    CallStack.push_eq_ok.mpr ⟨room, rfl⟩
  rw [push, run_bind (EStateM.run_get c), pushed]
  rfl

theorem run_holds {condition : Condition} {told : Bool} (found : c.holds condition = .ok told) :
    (holds condition).run c = .ok told c := by
  cases condition with
  | equal x nn | notEqual x nn =>
    simp only [Chip.holds, bind_eq_ok, pure_eq_ok, Chip.register_eq_ok] at found
    obtain ⟨x, rfl, rfl⟩ := found
    exact run_bind (run_value x c) _
  | sameRegister x y | otherRegister x y =>
    simp only [Chip.holds, bind_eq_ok, pure_eq_ok, Chip.register_eq_ok] at found
    obtain ⟨x, rfl, y, rfl, rfl⟩ := found
    rw [holds, run_bind (run_value x c)]
    exact run_bind (run_value y c) _
  | keyHeld x =>
    simp only [Chip.holds, bind_eq_ok, Chip.register_eq_ok] at found
    obtain ⟨x, rfl, held⟩ := found
    rw [holds, run_bind (run_value x c)]
    exact run_isPressed held
  | keyUp x =>
    simp only [Chip.holds, bind_eq_ok, pure_eq_ok, Chip.register_eq_ok] at found
    obtain ⟨x, rfl, held, up, rfl⟩ := found
    rw [holds, run_bind (run_value x c)]
    exact run_bind (run_isPressed up) _

/-- An instruction that completes does so access by access, with the same effect. -/
theorem perform_of_completes {e : Effect} (rule : Chip.Completes wait c i e) :
    (perform wait i).run c = .ok (e.move, e.signal) e.chip := by
  cases rule with
  | clear | jump | setIndex | unknown => rfl
  | ret top => exact run_bind (run_pop top) _
  | call nnn room => exact run_bind (run_push c.registers.pc room) _
  | skip told => exact run_bind (run_holds told) _
  | load x nn => exact run_bind (run_setValue x c nn) _
  | add x nn | readDelay x =>
    rw [perform, run_bind (run_value x c)]
    exact run_bind (run_setValue x c _) _
  | setDelay x | setSound x => exact run_bind (run_value x c) _
  | random x nn => exact run_bind (run_setValue x { c with random := c.random.next } _) _
  | alu op x y =>
    rw [perform, run_bind (run_value x c), run_bind (run_value y c), run_bind (EStateM.run_get c),
      Chip.combine]
    obtain ⟨b, _ | flag⟩ := op.eval c.dialect.shiftsVy (c.v x) (c.v y)
    · exact run_bind (run_setValue x c b) _
    · exact run_bind (run_setValue x c b) _
  | @jumpOffset nnn x r chosen =>
    rw [perform, run_bind (EStateM.run_get c), ← chosen]
    exact run_bind (run_value r c) _
  | draw x y n =>
    rw [perform, run_bind (run_index c), run_bind (run_readRange c _ _), run_bind (run_value x c),
      run_bind (run_value y c), run_bind (run_draw c _ _ _)]
    rfl
  | key x reply =>
    rw [perform, run_bind (run_value x c), run_bind (EStateM.run_get c), reply]
    exact run_bind (run_setValue x c _) _
  | cancelled x reply =>
    rw [perform, run_bind (run_value x c), run_bind (EStateM.run_get c), reply]
    rfl
  | addIndex x =>
    let sum := c.registers.i + (c.v x).toUInt16
    have stored : (setIndex sum).run c = .ok () (c.setIndex sum) := rfl
    rw [perform, run_bind (run_value x c), run_bind (run_index c), run_bind stored,
      run_bind (EStateM.run_get _), Chip.addIndex]
    have same : (c.setIndex sum).dialect = c.dialect := rfl
    rw [same]
    split <;> rfl
  | pointAtGlyph x =>
    obtain ⟨rows, sum⟩ := Guard.glyph_fits (c.v x)
    rw [perform, run_bind (run_value x c), run_bind (run_access (Guard.fit_of_lt rows)),
      run_bind (run_access (Guard.fit_of_lt sum)), Guard.ofNat_glyph]
    rfl
  | storeDecimal x =>
    rw [perform, run_bind (run_value x c), run_bind (run_index c)]
    exact run_bind (run_writeAll c _ _) _
  | storeBlock x =>
    rw [perform, run_bind (run_value x c), run_bind (run_index c), run_bind (run_valuesUpTo x c),
      run_bind (run_writeAll c _ _)]
    exact run_bind (run_passBlock x (c.store _)) _
  | loadBlock x =>
    have narrow : x.val + 1 < 2 ^ 64 := by omega
    have long := c.memory.length_readRange c.registers.i (x + 1)
    rw [perform, run_bind (run_value x c), run_bind (run_index c),
      run_bind (run_access (Guard.fit_of_lt narrow)), run_bind (run_readRange c _ _),
      run_bind (run_fillUpTo x c long), Guard.fillUpTo_readRange]
    exact run_bind (run_passBlock x (c.fill x)) _

end Procedure
end ChipEight
