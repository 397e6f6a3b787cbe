import ChipEight.Chip.Step
import ChipEight.Proofs.Decoding

/-! What each instruction does when it completes, as one rule per case. The rules give exactly the
effects that are computed, so that a statement about all instructions is a case analysis on a rule
and does not look at how registers are checked on the way. Below the rules stands, part by part, what
they change of a machine. -/
namespace ChipEight

namespace CallStack

theorem push_eq_ok {s t : CallStack} {a : UInt16} :
    s.push a = .ok t ↔ s.depth < capacity ∧ t.frames = a :: s.frames := by
  unfold push
  split
  · next room => simp [room, CallStack.ext_iff, eq_comm]
  · next full => simp [full]

theorem pop_eq_ok {s t : CallStack} {a : UInt16} :
    s.pop = .ok (a, t) ↔ s.frames = a :: t.frames := by
  obtain ⟨frames, bounded⟩ := s
  cases frames <;> simp [pop, CallStack.ext_iff]

theorem push_of_full {s : CallStack} (full : capacity ≤ s.depth) (a : UInt16) :
    s.push a = .error .overflow := dif_neg (Nat.not_lt.mpr full)

theorem pop_of_empty {s : CallStack} (empty : s.frames = []) : s.pop = .error .underflow := by
  obtain ⟨frames, bounded⟩ := s
  subst empty
  rfl

end CallStack

namespace Chip

theorem register_eq_ok {x : Nat} {r : Register} : register x = .ok r ↔ r.val = x := by
  unfold register
  rw [mapError_eq_ok]
  by_cases h : x < 16
  · simp [Register.ofNat_of_lt h, Fin.ext_iff, eq_comm]
  · simp [Register.ofNat_of_le (Nat.le_of_not_lt h)]
    omega

/-- The instructions that complete, each with its effect. -/
inductive Completes (wait : KeyWait) (c : Chip) : Instruction → Effect → Prop where
  | clear : Completes wait c .clear { chip := { c with screen := .blank }, signal := .drawn }
  | ret {a : UInt16} {rest : CallStack} (top : c.stack.frames = a :: rest.frames) :
      Completes wait c .ret { chip := { c with stack := rest }, move := .jump a }
  | jump (nnn : UInt16) : Completes wait c (.jump nnn) { chip := c, move := .jump nnn }
  | call (nnn : UInt16) (room : c.stack.depth < CallStack.capacity) :
      Completes wait c (.call nnn)
        { chip := { c with stack := ⟨c.registers.pc :: c.stack.frames, room⟩ }, move := .jump nnn }
  | skip {condition : Condition} {holds : Bool} (told : c.holds condition = .ok holds) :
      Completes wait c (.skip condition) { chip := c, move := .skipIf holds }
  | load (x : Register) (nn : UInt8) : Completes wait c (.load x nn) { chip := c.setV x nn }
  | add (x : Register) (nn : UInt8) :
      Completes wait c (.add x nn) { chip := c.setV x (c.v x + nn) }
  | alu (op : AluOp) (x y : Register) :
      Completes wait c (.alu op x y) { chip := c.combine op x y }
  | setIndex (nnn : UInt16) : Completes wait c (.setIndex nnn) { chip := c.setIndex nnn }
  | jumpOffset (nnn : UInt16) {x : Nat} {r : Register}
      (chosen : r.val = if c.dialect.jumpAddsVx then x else 0) :
      Completes wait c (.jumpOffset nnn x) { chip := c, move := .jump (nnn + (c.v r).toUInt16) }
  | random (x : Register) (nn : UInt8) :
      Completes wait c (.random x nn)
        { chip := { c with random := c.random.next }.setV x (c.random.byte ^^^ nn) }
  | draw (x y : Register) (n : UInt8) :
      Completes wait c (.draw x y n) { chip := c.drawSprite x y n, signal := .drawn }
  | readDelay (x : Register) : Completes wait c (.readDelay x) { chip := c.setV x c.timers.delay }
  | key (x : Register) {k : Key} (pressed : wait.poll c.keypad = .key k) :
      Completes wait c (.awaitKey x) { chip := c.setV x k.toByte }
  | cancelled (x : Register) (closed : wait.poll c.keypad = .cancelled) :
      Completes wait c (.awaitKey x)
        { chip := c, move := .jump (c.registers.pc - Opcode.bytes), signal := .interrupted }
  | setDelay (x : Register) :
      Completes wait c (.setDelay x) { chip := { c with timers := c.timers.setDelay (c.v x) } }
  | setSound (x : Register) :
      Completes wait c (.setSound x) { chip := { c with timers := c.timers.setSound (c.v x) } }
  | addIndex (x : Register) : Completes wait c (.addIndex x) { chip := c.addIndex x }
  | pointAtGlyph (x : Register) : Completes wait c (.pointAtGlyph x) { chip := c.pointAtGlyph x }
  | storeDecimal (x : Register) :
      Completes wait c (.storeDecimal x) { chip := c.store (decimalDigits (c.v x)) }
  | storeBlock (x : Register) :
      Completes wait c (.storeBlock x) { chip := (c.store (c.registers.upTo x)).passBlock x }
  | loadBlock (x : Register) : Completes wait c (.loadBlock x) { chip := (c.fill x).passBlock x }
  | unknown (w : Opcode) : Completes wait c (.unknown w) { chip := c }

variable {wait : KeyWait} {c : Chip} {i : Instruction} {e : Effect}

theorem completes_of_effect (h : c.effect wait i = .ok e) : Completes wait c i e := by
  cases i with
  | clear => cases h; exact .clear
  | ret =>
    simp only [effect, bind_eq_ok, mapError_eq_ok, pure_eq_ok] at h
    obtain ⟨⟨a, rest⟩, popped, rfl⟩ := h
    exact .ret (CallStack.pop_eq_ok.mp popped)
  | jump nnn => cases h; exact .jump nnn
  | call nnn =>
    simp only [effect, bind_eq_ok, mapError_eq_ok, pure_eq_ok] at h
    obtain ⟨stack, pushed, rfl⟩ := h
    obtain ⟨room, frames⟩ := CallStack.push_eq_ok.mp pushed
    obtain rfl : stack = ⟨c.registers.pc :: c.stack.frames, room⟩ := CallStack.ext frames
    exact .call nnn room
  | skip condition =>
    simp only [effect, bind_eq_ok, pure_eq_ok] at h
    obtain ⟨holds, told, rfl⟩ := h
    exact .skip told
  | setIndex nnn => cases h; exact .setIndex nnn
  | jumpOffset nnn x =>
    simp only [effect, bind_eq_ok, pure_eq_ok, register_eq_ok] at h
    obtain ⟨r, chosen, rfl⟩ := h
    exact .jumpOffset nnn chosen
  | awaitKey x =>
    simp only [effect, bind_eq_ok, register_eq_ok] at h
    obtain ⟨x, rfl, h⟩ := h
    cases reply : wait.poll c.keypad with
    | key k =>
      rw [reply] at h
      cases h
      exact .key x reply
    | cancelled =>
      rw [reply] at h
      cases h
      exact .cancelled x reply
    | pending =>
      rw [reply] at h
      cases h
  | unknown w => cases h; exact .unknown w
  | alu op x y =>
    simp only [effect, bind_eq_ok, pure_eq_ok, register_eq_ok] at h
    obtain ⟨x, rfl, y, rfl, rfl⟩ := h
    exact .alu op x y
  | draw x y n =>
    simp only [effect, bind_eq_ok, pure_eq_ok, register_eq_ok] at h
    obtain ⟨x, rfl, y, rfl, rfl⟩ := h
    exact .draw x y n
  | _ =>
    simp only [effect, bind_eq_ok, pure_eq_ok, register_eq_ok] at h
    obtain ⟨x, rfl, rfl⟩ := h
    constructor

theorem effect_of_completes (h : Completes wait c i e) : c.effect wait i = .ok e := by
  cases h with
  | clear | jump | setIndex | unknown => rfl
  | ret top =>
    simp only [effect, bind_eq_ok, mapError_eq_ok, pure_eq_ok]
    exact ⟨_, CallStack.pop_eq_ok.mpr top, rfl⟩
  | call nnn room =>
    simp only [effect, bind_eq_ok, mapError_eq_ok, pure_eq_ok]
    exact ⟨_, CallStack.push_eq_ok.mpr ⟨room, rfl⟩, rfl⟩
  | skip told =>
    simp only [effect, bind_eq_ok, pure_eq_ok]
    exact ⟨_, told, rfl⟩
  | jumpOffset nnn chosen =>
    simp only [effect, bind_eq_ok, pure_eq_ok, register_eq_ok]
    exact ⟨_, chosen, rfl⟩
  | key x reply | cancelled x reply =>
    simp only [effect, bind_eq_ok, register_eq_ok]
    exact ⟨x, rfl, by rw [reply]; rfl⟩
  | alu op x y | draw x y n =>
    simp only [effect, bind_eq_ok, pure_eq_ok, register_eq_ok]
    exact ⟨x, rfl, y, rfl, rfl⟩
  | _ =>
    simp only [effect, bind_eq_ok, pure_eq_ok, register_eq_ok]
    exact ⟨_, rfl, rfl⟩

end Chip

namespace Registers

/-- The registers after an arithmetic instruction under the rule for shifts that is given. -/
def combine (r : Registers) (shiftsVy : Bool) (op : AluOp) (x y : Register) : Registers :=
  match op.eval shiftsVy (r.get x) (r.get y) with
  | (b, none) => r.set x b
  | (b, some flag) => (r.set x b).setFlag flag

def addIndex (r : Registers) (setsFlag : Bool) (x : Register) : Registers :=
  let sum := r.i + (r.get x).toUInt16
  if setsFlag then (r.setIndex sum).setFlag (decide (0x1000 ≤ sum)) else r.setIndex sum

def passBlock (r : Registers) (moves : Bool) (x : Register) : Registers :=
  if moves then r.setIndex (r.i + UInt16.ofNat (x + 1)) else r

end Registers

namespace Chip

variable {wait : KeyWait} {c : Chip} {i : Instruction} {e : Effect}

/-- Arithmetic reads the registers and one rule of the dialect, and changes registers only. -/
theorem combine_registers (c : Chip) (op : AluOp) (x y : Register) : c.combine op x y =
    { c with registers := c.registers.combine c.dialect.shiftsVy op x y } := by
  unfold combine Registers.combine v
  obtain ⟨b, flag⟩ := op.eval c.dialect.shiftsVy (c.registers.get x) (c.registers.get y)
  cases flag <;> rfl

theorem addIndex_registers (c : Chip) (x : Register) : c.addIndex x =
    { c with registers := c.registers.addIndex c.dialect.indexSetsFlag x } := by
  unfold addIndex Registers.addIndex v
  cases c.dialect.indexSetsFlag <;> rfl

theorem passBlock_registers (c : Chip) (x : Register) : c.passBlock x =
    { c with registers := c.registers.passBlock c.dialect.blockMovesIndex x } := by
  unfold passBlock Registers.passBlock
  cases c.dialect.blockMovesIndex <;> rfl

/-- Nothing but the registers `V0` to `VF` and `I` differs. -/
structure OnlyRegisters (c d : Chip) : Prop where
  name : d.name = c.name
  opcode : d.opcode = c.opcode
  memory : d.memory = c.memory
  pc : d.registers.pc = c.registers.pc
  stack : d.stack = c.stack
  timers : d.timers = c.timers
  screen : d.screen = c.screen
  keypad : d.keypad = c.keypad
  random : d.random = c.random
  dialect : d.dialect = c.dialect

theorem combine_only (c : Chip) (op : AluOp) (x y : Register) :
    OnlyRegisters c (c.combine op x y) := by
  unfold combine
  split <;> constructor <;> rfl

theorem drawSprite_only (c : Chip) (x y : Register) (n : UInt8) :
    OnlyRegisters { c with screen := (c.drawSprite x y n).screen } (c.drawSprite x y n) := by
  unfold drawSprite setFlag
  constructor <;> rfl

theorem addIndex_only (c : Chip) (x : Register) : OnlyRegisters c (c.addIndex x) := by
  unfold addIndex
  dsimp only
  split <;> constructor <;> rfl

theorem passBlock_only (c : Chip) (x : Register) : OnlyRegisters c (c.passBlock x) := by
  unfold passBlock
  split <;> constructor <;> rfl

theorem fill_only (c : Chip) (x : Register) : OnlyRegisters c (c.fill x) := by
  unfold fill Registers.fillUpTo
  constructor <;> rfl

theorem Completes.pc (h : Completes wait c i e) : e.chip.registers.pc = c.registers.pc := by
  cases h with
  | alu op x y => exact (c.combine_only op x y).pc
  | draw x y n => exact (c.drawSprite_only x y n).pc
  | addIndex x => exact (c.addIndex_only x).pc
  | storeBlock x => exact ((c.store _).passBlock_only x).pc
  | loadBlock x => exact ((c.fill x).passBlock_only x).pc.trans (c.fill_only x).pc
  | _ => rfl

theorem Completes.dialect (h : Completes wait c i e) : e.chip.dialect = c.dialect := by
  cases h with
  | alu op x y => exact (c.combine_only op x y).dialect
  | draw x y n => exact (c.drawSprite_only x y n).dialect
  | addIndex x => exact (c.addIndex_only x).dialect
  | storeBlock x => exact ((c.store _).passBlock_only x).dialect
  | loadBlock x => exact ((c.fill x).passBlock_only x).dialect.trans (c.fill_only x).dialect
  | _ => rfl

/-- The stack grows by the program counter, loses the address that is jumped to, or stays. -/
theorem Completes.stack (h : Completes wait c i e) :
    e.chip.stack = c.stack ∨
    (c.stack.depth < CallStack.capacity ∧
      e.chip.stack.frames = c.registers.pc :: c.stack.frames) ∨
    ∃ a, i = .ret ∧ c.stack.frames = a :: e.chip.stack.frames ∧ e.move = .jump a := by
  cases h with
  | ret top => exact .inr (.inr ⟨_, rfl, top, rfl⟩)
  | call nnn room => exact .inr (.inl ⟨room, rfl⟩)
  | alu op x y => exact .inl (c.combine_only op x y).stack
  | draw x y n => exact .inl (c.drawSprite_only x y n).stack
  | addIndex x => exact .inl (c.addIndex_only x).stack
  | storeBlock x => exact .inl ((c.store _).passBlock_only x).stack
  | loadBlock x => exact .inl (((c.fill x).passBlock_only x).stack.trans (c.fill_only x).stack)
  | _ => exact .inl rfl

theorem Completes.screen (h : Completes wait c i e) (other : i.draws = false) :
    e.chip.screen = c.screen := by
  cases h with
  | clear => contradiction
  | draw => contradiction
  | alu op x y => exact (c.combine_only op x y).screen
  | addIndex x => exact (c.addIndex_only x).screen
  | storeBlock x => exact ((c.store _).passBlock_only x).screen
  | loadBlock x => exact ((c.fill x).passBlock_only x).screen.trans (c.fill_only x).screen
  | _ => rfl

/-- The instructions that touch the picture are those that ask for it to be shown. -/
theorem Completes.drawn_iff (h : Completes wait c i e) : e.signal = .drawn ↔ i.draws = true := by
  cases h <;> simp [Instruction.draws]

end Chip
end ChipEight
