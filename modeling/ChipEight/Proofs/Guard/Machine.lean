import ChipEight.Proofs.Failure
import ChipEight.Proofs.Guard

/-! The machine on guarded parts. Instructions that reach into memory or the screen, or that compute
an address, do so under guard; for the others the only thing to refuse is a register or a key that
does not exist. As long as an instruction names registers that exist, nothing is refused and the
guarded machine does what the plain one does. -/
namespace ChipEight

/-- What can be asked of a machine, and what can happen to it. -/
inductive Operation where
  | turn (turn : Turn)
  /-- An instruction that was not fetched. -/
  | execute (wait : KeyWait) (i : Instruction)
  deriving DecidableEq, Repr

/-- A fetched instruction needs no promise; one that was built by hand has to name registers that
exist. -/
def Operation.Admissible : Operation → Prop
  | .turn _ => True
  | .execute _ i => i.NamesRegisters

/-- The machine after an operation and how the operation ended. -/
def Chip.act (c : Chip) : Operation → Outcome Signal
  | .turn (.step wait) => c.step wait
  | .turn (.outside stimulus) => ⟨c.after stimulus, .ok .quiet⟩
  | .execute wait i => c.execute wait i

def Chip.actAll (c : Chip) (ops : List Operation) : Chip :=
  ops.foldl (fun c op => (c.act op).chip) c

/-- Only the bytes of the block that is filled are looked at. -/
theorem Registers.fillUpTo_congr (r : Registers) (x : Register) {f g : Nat → UInt8}
    (agree : ∀ k ≤ x.val, f k = g k) : r.fillUpTo x f = r.fillUpTo x g := by
  unfold fillUpTo
  congr 2
  funext k
  split
  · next inside => exact agree k inside
  · rfl

namespace Guard

/-- A result that reports a violation is a breach. -/
def settle {α : Type} : Except Halt α → Guarded (Except Halt α)
  | .error (.violation v) => .error (.violation v)
  | result => .ok result

def drawSprite (c : Chip) (x y : Register) (n : UInt8) : Guarded Chip := do
  let sprite ← readRange c.memory c.registers.i n.toNat
  let (screen, erased) ← draw c.screen (c.v x) (c.v y) sprite
  return { c with screen }.setFlag erased

def pointAtGlyph (c : Chip) (x : Register) : Guarded Chip := do
  let rows ← fit 16 (Font.glyphRows.toNat * (c.v x % 16).toNat)
  let a ← fit 16 (Layout.fontStart.toNat + rows)
  return c.setIndex (UInt16.ofNat a)

def passBlock (c : Chip) (x : Register) : Guarded Chip :=
  if c.dialect.blockMovesIndex then do
    let length ← fit 16 (x + 1)
    return c.setIndex (c.registers.i + UInt16.ofNat length)
  else return c

def store (c : Chip) (bytes : List UInt8) : Guarded Chip := do
  let memory ← writeAll c.memory c.registers.i bytes
  return { c with memory }

/-- The registers up to `x` are replaced by a block of memory that is as long as they are. -/
def fill (c : Chip) (x : Register) : Guarded Chip := do
  let length ← fit 64 (x + 1)
  let bytes ← readRange c.memory c.registers.i length
  let bytes ← block (c.registers.upTo x).length bytes
  return { c with registers := c.registers.fillUpTo x fun k => bytes[k]?.getD 0 }

/-- The guarded effect of an instruction. -/
def effect (wait : KeyWait) (c : Chip) : Instruction → Guarded (Except Halt Effect)
  | .draw x y n => do
    let x ← register x
    let y ← register y
    let chip ← drawSprite c x y n
    return .ok { chip, signal := .drawn }
  | .pointAtGlyph x => do
    let x ← register x
    let chip ← pointAtGlyph c x
    return .ok { chip }
  | .storeDecimal x => do
    let x ← register x
    let chip ← store c (decimalDigits (c.v x))
    return .ok { chip }
  | .storeBlock x => do
    let x ← register x
    let chip ← store c (c.registers.upTo x)
    let chip ← passBlock chip x
    return .ok { chip }
  | .loadBlock x => do
    let x ← register x
    let chip ← fill c x
    let chip ← passBlock chip x
    return .ok { chip }
  | i => settle (c.effect wait i)

def execute (wait : KeyWait) (i : Instruction) (c : Chip) : Guarded (Outcome Signal) := do
  match ← effect wait c i with
  | .ok e => return ⟨e.chip.move e.move, .ok e.signal⟩
  | .error h => return ⟨c.afterHalt i, .error h⟩

def step (wait : KeyWait) (c : Chip) : Guarded (Outcome Signal) := do
  let word ← fetch c.memory c.registers.pc
  let fetched := { c with opcode := word }.setPc (c.registers.pc + Opcode.bytes)
  match ← execute wait (.decode word) fetched with
  | ⟨_, .error .waiting⟩ => return ⟨c, .error .waiting⟩
  | outcome => return outcome

def after (c : Chip) : Stimulus → Guarded Chip
  | .key event => do
    let keypad ← keyEvent c.keypad event
    return { c with keypad }
  | stimulus => .ok (c.after stimulus)

/-- The guarded operations of a machine. -/
def act (c : Chip) : Operation → Guarded (Outcome Signal)
  | .turn (.step wait) => step wait c
  | .turn (.outside stimulus) => do
    let chip ← after c stimulus
    return ⟨chip, .ok .quiet⟩
  | .execute wait i => execute wait i c

/-- A run in which every operation is guarded. -/
def actAll (c : Chip) (ops : List Operation) : Guarded Chip :=
  ops.foldlM (fun c op => do return (← act c op).chip) c

theorem settle_eq {α : Type} {result : Except Halt α} (h : ∀ v, result ≠ .error (.violation v)) :
    settle result = .ok result := by
  unfold settle
  split
  · next v => exact absurd rfl (h v)
  · rfl

theorem drawSprite_eq (c : Chip) (x y : Register) (n : UInt8) :
    drawSprite c x y n = .ok (c.drawSprite x y n) := by
  rw [drawSprite, readRange_eq, ok_bind, draw_eq]
  rfl

/-- The address of a glyph and the rows in front of it fit a word. -/
theorem glyph_fits (b : UInt8) : Font.glyphRows.toNat * (b % 16).toNat < 2 ^ 16 ∧
    Layout.fontStart.toNat + Font.glyphRows.toNat * (b % 16).toNat < 2 ^ 16 := by
  have nibble : (b % 16).toNat < 16 := by
    rw [UInt8.toNat_mod]
    exact Nat.mod_lt _ (by decide)
  simp only [Font.glyphRows, Layout.fontStart, UInt16.reduceToNat]
  omega

theorem ofNat_glyph (b : UInt8) :
    UInt16.ofNat (Layout.fontStart.toNat + Font.glyphRows.toNat * (b % 16).toNat) =
      Layout.fontStart + Font.glyphRows * (b % 16).toUInt16 := by
  apply UInt16.toNat_inj.mp
  rw [UInt16.toNat_add, UInt16.toNat_mul, UInt8.toNat_toUInt16, Nat.mod_eq_of_lt (glyph_fits b).1]
  rfl

theorem pointAtGlyph_eq (c : Chip) (x : Register) :
    pointAtGlyph c x = .ok (c.pointAtGlyph x) := by
  obtain ⟨rows, sum⟩ := glyph_fits (c.v x)
  rw [pointAtGlyph, fit_of_lt rows, ok_bind, fit_of_lt sum, ok_bind, ofNat_glyph]
  rfl

theorem passBlock_eq (c : Chip) (x : Register) : passBlock c x = .ok (c.passBlock x) := by
  unfold passBlock Chip.passBlock
  split
  · rw [fit_of_lt (by omega)]
    rfl
  · rfl

theorem store_eq (c : Chip) (bytes : List UInt8) : store c bytes = .ok (c.store bytes) := by
  rw [store, writeAll_eq]
  rfl

/-- A block that is read is as long as it has to be, and every byte of it is used. -/
theorem fillUpTo_readRange (c : Chip) (x : Register) :
    c.registers.fillUpTo x (fun k => (c.memory.readRange c.registers.i (x + 1))[k]?.getD 0) =
      c.registers.fillUpTo x fun k => c.memory.read (c.registers.i + UInt16.ofNat k) := by
  apply Registers.fillUpTo_congr
  intro k inside
  simp [Memory.readRange, List.getElem?_range (Nat.lt_succ_of_le inside)]

theorem fill_eq (c : Chip) (x : Register) : fill c x = .ok (c.fill x) := by
  have long : (c.memory.readRange c.registers.i (x + 1)).length = (c.registers.upTo x).length := by
    rw [Memory.length_readRange, Registers.length_upTo]
  rw [fill, fit_of_lt (by omega), ok_bind, readRange_eq, ok_bind, block_of_length long, ok_bind,
    fillUpTo_readRange]
  rfl

variable {i : Instruction}

theorem effect_eq (wait : KeyWait) (c : Chip) (named : i.NamesRegisters) :
    effect wait c i = .ok (c.effect wait i) := by
  have settled := settle_eq (c.effect_ne_violation wait named)
  cases i with
  | draw x y n =>
    have hx : x < 16 := named x (by simp [Instruction.registers])
    have hy : y < 16 := named y (by simp [Instruction.registers])
    rw [effect, register_of_lt hx, register_of_lt hy, ok_bind, ok_bind, drawSprite_eq, Chip.effect,
      Chip.register_of_lt hx, Chip.register_of_lt hy]
    rfl
  | pointAtGlyph x =>
    have hx : x < 16 := named x (by simp [Instruction.registers])
    rw [effect, register_of_lt hx, ok_bind, pointAtGlyph_eq, Chip.effect, Chip.register_of_lt hx]
    rfl
  | storeDecimal x =>
    have hx : x < 16 := named x (by simp [Instruction.registers])
    rw [effect, register_of_lt hx, ok_bind, store_eq, Chip.effect, Chip.register_of_lt hx]
    rfl
  | storeBlock x =>
    have hx : x < 16 := named x (by simp [Instruction.registers])
    rw [effect, register_of_lt hx, ok_bind, store_eq, ok_bind, passBlock_eq, Chip.effect,
      Chip.register_of_lt hx]
    rfl
  | loadBlock x =>
    have hx : x < 16 := named x (by simp [Instruction.registers])
    rw [effect, register_of_lt hx, ok_bind, fill_eq, ok_bind, passBlock_eq, Chip.effect,
      Chip.register_of_lt hx]
    rfl
  | _ => exact settled

theorem execute_eq (wait : KeyWait) (c : Chip) (named : i.NamesRegisters) :
    execute wait i c = .ok (c.execute wait i) := by
  rw [execute, effect_eq wait c named, ok_bind]
  unfold Chip.execute Chip.perform
  cases c.effect wait i <;> rfl

theorem step_eq (wait : KeyWait) (c : Chip) : step wait c = .ok (c.step wait) := by
  -- Whatever the word, its fields are nibbles.
  have named := Instruction.namesRegisters_decode c.nextOpcode
  have executed := execute_eq wait c.fetched named
  rw [step, fetch_eq, ok_bind]
  change (execute wait (.decode c.nextOpcode) c.fetched >>= _) = _
  rw [executed, ok_bind, Chip.step]
  obtain ⟨chip, result⟩ := c.fetched.execute wait (.decode c.nextOpcode)
  cases result with
  | ok s => rfl
  | error h => cases h <;> rfl

theorem after_eq (c : Chip) (stimulus : Stimulus) : after c stimulus = .ok (c.after stimulus) := by
  cases stimulus with
  | key event =>
    rw [after, keyEvent_eq]
    rfl
  | tick | setDelay b | setSound b => rfl

theorem act_eq (c : Chip) {op : Operation} (admissible : op.Admissible) :
    act c op = .ok (c.act op) := by
  cases op with
  | turn t =>
    cases t with
    | step wait => exact step_eq wait c
    | outside stimulus =>
      rw [act, after_eq]
      rfl
  | execute wait i => exact execute_eq wait c admissible

theorem actAll_eq (c : Chip) {ops : List Operation} (admissible : ∀ op ∈ ops, op.Admissible) :
    actAll c ops = .ok (c.actAll ops) := by
  induction ops generalizing c with
  | nil => rfl
  | cons op rest ih =>
    have first : op.Admissible := admissible op (by simp)
    have later := ih (c.act op).chip (fun o member => admissible o (by simp [member]))
    rw [actAll, List.foldlM_cons, act_eq c first]
    exact later

end Guard
end ChipEight
