import ChipEight.Proofs.Start
import ChipEight.Proofs.Turn

/-! What an instruction may write. A table says for each instruction, and another for each word, which
parts of a machine it may change besides the program counter and the word fetched last; a step that
completes leaves every other part as it was. A block that runs past the end of memory goes on at its
beginning, so its places are told modulo the size of memory. -/
namespace ChipEight

inductive Part where
  | byte (a : UInt16)
  | register (k : Register)
  | index
  | stack
  | screen
  | delay
  | sound
  | random
  | opcode
  | keypad
  | dialect
  | name

/-- The part is the same in both machines. -/
def Chip.Same (c d : Chip) : Part → Prop
  | .byte a => d.memory.read a = c.memory.read a
  | .register k => d.v k = c.v k
  | .index => d.registers.i = c.registers.i
  | .stack => d.stack = c.stack
  | .screen => d.screen = c.screen
  | .delay => d.timers.delay = c.timers.delay
  | .sound => d.timers.sound = c.timers.sound
  | .random => d.random = c.random
  | .opcode => d.opcode = c.opcode
  | .keypad => d.keypad = c.keypad
  | .dialect => d.dialect = c.dialect
  | .name => d.name = c.name

namespace Memory

variable {m : Memory} {start a : UInt16}

/-- The address `a` selects one of so many places from `start` on. -/
def InBlock (start : UInt16) (length : Nat) (a : UInt16) : Prop :=
  ∃ k < length, a.toNat % 0x1000 = (start.toNat + k) % 0x1000

theorem read_writeAll_outside {bytes : List UInt8} (outside : ¬InBlock start bytes.length a) :
    (m.writeAll start bytes).read a = m.read a := by
  induction bytes generalizing m start with
  | nil => rfl
  | cons b rest ih =>
    have later : ¬InBlock (start + 1) rest.length a := by
      rintro ⟨k, room, same⟩
      refine outside ⟨k + 1, Nat.succ_lt_succ room, ?_⟩
      simp only [UInt16.toNat_add, UInt16.reduceToNat] at same
      omega
    have other : place start ≠ place a := by
      intro same
      exact outside ⟨0, Nat.zero_lt_succ _, (Fin.val_eq_of_eq same).symm⟩
    rw [writeAll, ih later, read_write, if_neg other]

end Memory

/-- The operations that write a flag. -/
def AluOp.setsFlag : AluOp → Bool
  | .add | .sub | .subReverse | .shiftRight | .shiftLeft => true
  | .assign | .or | .and | .xor => false

theorem AluOp.eval_of_not_setsFlag {op : AluOp} (h : op.setsFlag = false) (shiftsVy : Bool)
    (vx vy : UInt8) : (op.eval shiftsVy vx vy).2 = none := by
  cases op with
  | assign | or | and | xor => rfl
  | _ => contradiction

/-- What an instruction may change of a machine with the given dialect and index. -/
def Instruction.Writes (dialect : Dialect) (index : UInt16) : Instruction → Part → Prop
  | .clear, .screen => True
  | .ret, .stack => True
  | .call _, .stack => True
  | .load x _, .register k => k.val = x
  | .add x _, .register k => k.val = x
  | .alu op x _, .register k => k.val = x ∨ op.setsFlag = true ∧ k = .flag
  | .setIndex _, .index => True
  | .random x _, .register k => k.val = x
  | .random .., .random => True
  | .draw .., .screen => True
  | .draw .., .register k => k = .flag
  | .readDelay x, .register k => k.val = x
  | .awaitKey x, .register k => k.val = x
  | .setDelay _, .delay => True
  | .setSound _, .sound => True
  | .addIndex _, .index => True
  | .addIndex _, .register k => dialect.indexSetsFlag = true ∧ k = .flag
  | .pointAtGlyph _, .index => True
  | .storeDecimal _, .byte a => Memory.InBlock index 3 a
  | .storeBlock x, .byte a => Memory.InBlock index (x + 1) a
  | .storeBlock _, .index => dialect.blockMovesIndex = true
  | .loadBlock x, .register k => k.val ≤ x
  | .loadBlock _, .index => dialect.blockMovesIndex = true
  | _, _ => False

/-- What a word may change of a machine with the given dialect and index. -/
def Opcode.Writes (dialect : Dialect) (index : UInt16) (w : Opcode) : Part → Prop
  | .byte a =>
    w.IsMisc 0x33 ∧ Memory.InBlock index 3 a ∨
    w.IsMisc 0x55 ∧ Memory.InBlock index (w.x + 1) a
  | .register k =>
    (k.val = w.x ∧
      (w.family ∈ [0x6, 0x7, 0x8, 0xC] ∨ w.IsMisc 0x07 ∨ w.IsMisc 0x0A)) ∨
    (k.val ≤ w.x ∧ w.IsMisc 0x65) ∨
    (k = .flag ∧
      (w.family = 0x8 ∧ w.n ∈ [0x4, 0x5, 0x6, 0x7, 0xE] ∨ w.family = 0xD ∨
        w.IsMisc 0x1E ∧ dialect.indexSetsFlag = true))
  | .index =>
    w.family = 0xA ∨ w.IsMisc 0x1E ∨ w.IsMisc 0x29 ∨
      (w.IsMisc 0x55 ∨ w.IsMisc 0x65) ∧ dialect.blockMovesIndex = true
  | .stack => w.family = 0x2 ∨ w = 0x00EE
  | .screen => w = 0x00E0 ∨ w.family = 0xD
  | .delay => w.IsMisc 0x15
  | .sound => w.IsMisc 0x18
  | .random => w.family = 0xC
  | .opcode => True
  | .keypad | .dialect | .name => False

theorem AluOp.selects_flag {n : UInt8} {op : AluOp} (decoded : AluOp.decode? n = some op)
    (sets : op.setsFlag = true) : n ∈ [0x4, 0x5, 0x6, 0x7, 0xE] := by
  unfold AluOp.decode? at decoded
  split at decoded
  all_goals first | contradiction | (cases decoded; first | contradiction | decide)

/-- The two tables agree: a word may write what its instruction may. -/
theorem Opcode.writes_of_fits {w : Opcode} {i : Instruction} {dialect : Dialect} {index : UInt16}
    {part : Part} (fits : i.Fits w) (writes : i.Writes dialect index part) :
    w.Writes dialect index part := by
  cases i with
  | alu op x y =>
    obtain ⟨family, decoded, rfl, rfl⟩ := fits
    cases part with
    | register k =>
      rcases writes with target | ⟨sets, flag⟩
      · exact .inl ⟨target, .inl (by simp [family])⟩
      · exact .inr (.inr ⟨flag, .inl ⟨family, AluOp.selects_flag decoded sets⟩⟩)
    | _ => contradiction
  | _ => cases part <;> simp_all [Instruction.Writes, Instruction.Fits, Opcode.Writes]

namespace Chip

variable {wait : KeyWait} {c d : Chip} {i : Instruction} {e : Effect}

theorem v_setV (c : Chip) (x k : Register) (b : UInt8) :
    (c.setV x b).v k = if x = k then b else c.v k := Registers.get_set _ _ _ _

theorem same_setV {x : Register} {b : UInt8} {part : Part} (other : part ≠ .register x) :
    c.Same (c.setV x b) part := by
  cases part with
  | register k =>
    have differs : x ≠ k := by
      rintro rfl
      exact other rfl
    exact (v_setV c x k b).trans (if_neg differs)
  | _ => rfl

theorem same_setIndex {a : UInt16} {part : Part} (other : part ≠ .index) :
    c.Same (c.setIndex a) part := by
  cases part with
  | index => contradiction
  | _ => rfl

theorem Same.trans {b : Chip} {part : Part} (first : b.Same c part) (second : c.Same d part) :
    b.Same d part := by
  cases part <;> exact Eq.trans second first

theorem same_combine {op : AluOp} {x y : Register} {part : Part} (other : part ≠ .register x)
    (flag : op.setsFlag = true → part ≠ .register .flag) : c.Same (c.combine op x y) part := by
  unfold combine
  split
  · exact same_setV other
  · next result =>
    have sets : op.setsFlag = true := by
      by_cases sets : op.setsFlag = true
      · exact sets
      · have none := op.eval_of_not_setsFlag (Bool.eq_false_iff.mpr sets) c.dialect.shiftsVy
          (c.v x) (c.v y)
        rw [result] at none
        contradiction
    exact (same_setV other).trans (same_setV (flag sets))

theorem same_drawSprite {x y : Register} {n : UInt8} {part : Part} (screen : part ≠ .screen)
    (flag : part ≠ .register .flag) : c.Same (c.drawSprite x y n) part := by
  have drawn : c.Same { c with screen := (c.drawSprite x y n).screen } part := by
    cases part with
    | screen => contradiction
    | _ => rfl
  exact drawn.trans (same_setV flag)

theorem same_addIndex {x : Register} {part : Part} (index : part ≠ .index)
    (flag : c.dialect.indexSetsFlag = true → part ≠ .register .flag) :
    c.Same (c.addIndex x) part := by
  unfold addIndex
  dsimp only
  split
  · next sets => exact (same_setIndex index).trans (same_setV (flag sets))
  · exact same_setIndex index

theorem same_store {bytes : List UInt8} {part : Part}
    (outside : ∀ a, part = .byte a → ¬Memory.InBlock c.registers.i bytes.length a) :
    c.Same (c.store bytes) part := by
  cases part with
  | byte a => exact Memory.read_writeAll_outside (outside a rfl)
  | _ => rfl

theorem same_passBlock {x : Register} {part : Part}
    (index : c.dialect.blockMovesIndex = true → part ≠ .index) : c.Same (c.passBlock x) part := by
  unfold passBlock
  split
  · next moves => exact same_setIndex (index moves)
  · cases part <;> rfl

theorem same_fill {x : Register} {part : Part}
    (outside : ∀ k : Register, k ≤ x → part ≠ .register k) : c.Same (c.fill x) part := by
  unfold fill
  cases part with
  | register k =>
    have past : ¬k ≤ x := fun within => outside k within rfl
    simp only [Same, v, Registers.get_fillUpTo, if_neg past]
  | index => simp only [Same, Registers.fillUpTo]
  | _ => rfl

/-- An instruction leaves the parts that it does not write. -/
theorem Completes.same (rule : Completes wait c i e) {part : Part}
    (other : ¬i.Writes c.dialect c.registers.i part) : c.Same e.chip part := by
  have elsewhere {p : Part} (writes : i.Writes c.dialect c.registers.i p) : part ≠ p := by
    rintro rfl
    exact other writes
  cases rule with
  | load x nn | add x nn | readDelay x | key x pressed => exact same_setV (elsewhere rfl)
  | random x nn =>
    have drawn : c.Same { c with random := c.random.next } part := by
      have untouched := elsewhere (p := .random) trivial
      cases part <;> first | contradiction | rfl
    exact drawn.trans (same_setV (elsewhere rfl))
  | alu op x y =>
    exact same_combine (elsewhere (.inl rfl)) fun sets => elsewhere (.inr ⟨sets, rfl⟩)
  | setIndex nnn | pointAtGlyph x => exact same_setIndex (elsewhere trivial)
  | draw x y n => exact same_drawSprite (elsewhere trivial) (elsewhere rfl)
  | addIndex x => exact same_addIndex (elsewhere trivial) fun sets => elsewhere ⟨sets, rfl⟩
  | storeDecimal x =>
    refine same_store ?_
    rintro a rfl within
    exact other within
  | storeBlock x =>
    have stored : c.Same (c.store (c.registers.upTo x)) part := by
      refine same_store ?_
      rintro a rfl within
      rw [c.registers.length_upTo x] at within
      exact other within
    exact stored.trans (same_passBlock fun moves => elsewhere (p := .index) moves)
  | loadBlock x =>
    have filled : c.Same (c.fill x) part := same_fill fun k within => elsewhere within
    exact filled.trans (same_passBlock fun moves => elsewhere (p := .index) moves)
  | clear =>
    have untouched := elsewhere (p := .screen) trivial
    cases part <;> first | contradiction | rfl
  | ret | call =>
    have untouched := elsewhere (p := .stack) trivial
    cases part <;> first | contradiction | rfl
  | setDelay x =>
    have untouched := elsewhere (p := .delay) trivial
    cases part <;> first | contradiction | rfl
  | setSound x =>
    have untouched := elsewhere (p := .sound) trivial
    cases part <;> first | contradiction | rfl
  | jump | skip | jumpOffset | cancelled | unknown => cases part <;> rfl

theorem same_afterHalt {part : Part} (other : ¬i.Writes c.dialect c.registers.i part) :
    c.Same (c.afterHalt i) part := by
  cases i with
  | random x nn => cases part <;> first | exact absurd trivial other | rfl
  | _ => cases part <;> rfl

theorem Completes.draws_byte {x : Nat} {nn : UInt8} (rule : Completes wait c (.random x nn) e) :
    e.chip.random.drawn = c.random.drawn + 1 ∧ e.chip.random.byteAt = c.random.byteAt := by
  cases rule
  exact ⟨rfl, rfl⟩

theorem same_setPc {a : UInt16} {part : Part} : c.Same (c.setPc a) part := by
  cases part <;> rfl

theorem same_fetched {part : Part} (other : part ≠ .opcode) : c.Same c.fetched part := by
  cases part with
  | opcode => contradiction
  | _ => rfl

/-- A fetched machine is where an instruction that does nothing leaves it. -/
theorem fetched_stay (c : Chip) : c.fetched.move .stay = c.fetched := by
  have cut : (c.registers.pc + Opcode.bytes) % 0x1000 % 0x1000 =
      (c.registers.pc + Opcode.bytes) % 0x1000 := by
    apply UInt16.toNat_inj.mp
    simp only [UInt16.toNat_mod, UInt16.reduceToNat]
    omega
  simp [fetched, move, setPc, Registers.setPc, PcMove.apply, cut]

/-- However a step ends, it leaves the parts that its word does not write. -/
theorem step_same (wait : KeyWait) {part : Part} (latest : part ≠ .opcode)
    (other : ¬c.nextOpcode.Writes c.dialect c.registers.i part) : c.Same (c.step wait).chip part := by
  have spared : ¬(Instruction.decode c.nextOpcode).Writes c.dialect c.registers.i part :=
    fun writes => other (Opcode.writes_of_fits (Instruction.fits_decode _) writes)
  rcases step_cases wait c with ⟨e, rule, run⟩ | ⟨h, _, run⟩ | run
  · rw [run]
    exact ((same_fetched latest).trans (rule.same spared)).trans same_setPc
  · rw [run]
    exact (same_fetched latest).trans (same_afterHalt spared)
  · rw [run]
    cases part <;> rfl

/-- The write law. A step that completes leaves all parts that its word does not write, draws one random
byte for `CXNN`, and for a word that the table does not list does nothing but fetch it. -/
theorem step_writes {signal : Signal} (done : (c.step wait).result = .ok signal) :
    let d := (c.step wait).chip
    let w := c.nextOpcode
    (∀ part, ¬c.Same d part → w.Writes c.dialect c.registers.i part) ∧
    (w.family = 0xC → d.random.drawn = c.random.drawn + 1 ∧ d.random.byteAt = c.random.byteAt) ∧
    d.opcode = w ∧
    (w.listed = false → ∃ behind : UInt16, behind.toNat = (c.registers.pc.toNat + 2) % 0x1000 ∧
      d = { c with opcode := w, registers := { c.registers with pc := behind } }) := by
  intro d w
  obtain ⟨e, rule, run⟩ : ∃ e, Completes wait c.fetched (.decode w) e ∧
      c.step wait = ⟨e.chip.move e.move, .ok e.signal⟩ := by
    rcases step_cases wait c with completes | ⟨h, _, run⟩ | run
    · exact completes
    · simp [run] at done
    · simp [run] at done
  have after : d = e.chip.move e.move := congrArg Outcome.chip run
  refine ⟨?_, ?_, ?_, ?_⟩
  · intro part changed
    by_cases latest : part = .opcode
    · rw [latest]
      exact trivial
    · by_cases writes : w.Writes c.dialect c.registers.i part
      · exact writes
      · exact absurd (step_same wait latest writes) changed
  · intro family
    rw [after]
    rw [Instruction.decode_of_random family] at rule
    exact rule.draws_byte
  · have latest : c.fetched.Same e.chip .opcode := by
      apply rule.same
      cases Instruction.decode w <;> exact id
    rw [after]
    exact latest
  · intro outside
    obtain ⟨behind, at_behind, fetched⟩ := c.fetched_eq
    refine ⟨behind, at_behind, ?_⟩
    rw [Instruction.decode_of_not_listed outside] at rule
    cases rule
    rw [after, fetched_stay, fetched]

/-- Two registers are stored, the second one in the first place of memory. -/
theorem wrapped_block_writes :
    let c := (boot ⟨"WRAP", [0x60, 0x07, 0x61, 0x09, 0xAF, 0xFF, 0xF1, 0x55]⟩ .standard
      (.cycle [])).turnAll (.replicate 3 (.step ⟨0⟩))
    let d := (c.step ⟨0⟩).chip
    (c.step ⟨0⟩).result = .ok .quiet ∧
    (d.memory.read 0xFFF = 7 ∧ d.memory.read 0 = 9) ∧
    (∀ a, d.memory.read a ≠ c.memory.read a → a.toNat % 0x1000 = 0xFFF ∨ a.toNat % 0x1000 = 0) ∧
    d.registers.i = c.registers.i ∧ d.opcode = 0xF155 := by
  intro c d
  obtain ⟨answer, stored, word, index, dialect⟩ :
      (c.step ⟨0⟩).result.toOption = some .quiet ∧
      (d.memory.read 0xFFF = 7 ∧ d.memory.read 0 = 9) ∧
      c.nextOpcode = 0xF155 ∧ c.registers.i = 0xFFF ∧ c.dialect.blockMovesIndex = false := by
    decide +kernel
  have done : (c.step ⟨0⟩).result = .ok .quiet := by
    cases result : (c.step ⟨0⟩).result with
    | ok signal => simpa [result, Except.toOption] using answer
    | error h => simp [result, Except.toOption] at answer
  obtain ⟨writes, -, latest, -⟩ := step_writes done
  rw [word] at latest
  rw [word, index] at writes
  refine ⟨done, stored, ?_, ?_, latest⟩
  · intro a changed
    have other : ¬Opcode.IsMisc 0xF155 0x33 := by decide
    have last : Opcode.x 0xF155 = 1 := by decide
    rcases writes (.byte a) changed with ⟨decimal, _⟩ | ⟨_, k, room, here⟩
    · exact absurd decimal other
    · rw [last] at room
      match k, room with
      | 0, _ => exact .inl here
      | 1, _ => exact .inr here
  · by_cases kept : d.registers.i = c.registers.i
    · exact kept
    · have never : ¬Opcode.Writes c.dialect 0xFFF 0xF155 .index := by
        rw [Opcode.Writes, dialect]
        decide
      exact absurd (writes .index kept) never

end Chip
end ChipEight
