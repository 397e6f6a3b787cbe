import ChipEight.Proofs.Block
import ChipEight.Proofs.Guard.Machine
import ChipEight.Proofs.Overdraw

/-! Glyphs from memory to the screen. A machine starts with its font in memory, below the program, and only
the two instructions that store bytes could change it. As long as none of them stores into it, the glyph that
a register names is what is drawn. -/
namespace ChipEight

/-- The five rows of a glyph. -/
def Font.glyph (font : Font) (g : Nat) : List UInt8 := (font.rows.toList.drop (5 * g)).take 5

namespace Memory

variable {m n : Memory} {font : Font}

/-- The addresses `0x50` to `0x9F`, wherever they wrap around to. -/
def InFont (a : UInt16) : Prop := 0x50 ≤ a.toNat % 0x1000 ∧ a.toNat % 0x1000 ≤ 0x9F

/-- The address of a row of the font. -/
def fontRow (k : Nat) : UInt16 := Layout.fontStart + UInt16.ofNat k

/-- The font region has the rows of the font. -/
def HoldsFont (m : Memory) (font : Font) : Prop := ∀ k : Fin 80, m.read (fontRow k) = font.rows.get k

theorem toNat_fontRow {k : Nat} (row : k < 80) : (fontRow k).toNat = 0x50 + k := by
  simp only [fontRow, Layout.fontStart, UInt16.toNat_add, UInt16.toNat_ofNat', UInt16.reduceToNat]
  omega

theorem inFont_fontRow {k : Nat} (row : k < 80) : InFont (fontRow k) := by
  rw [InFont, toNat_fontRow row]
  omega

/-- A program lies behind the font. -/
theorem holdsFont_image {program : List UInt8} (fits : program.length ≤ Layout.programRoom) :
    ((m.loadFont font).writeAll Layout.programStart program).HoldsFont font := by
  intro k
  have outside : ¬InBlock Layout.programStart program.length (fontRow k) := by
    rintro ⟨j, room, same⟩
    rw [toNat_fontRow k.isLt] at same
    simp only [Layout.programRoom, Layout.memorySize, Layout.programStart, UInt16.reduceToNat] at fits same
    omega
  have length : font.rows.toList.length = 80 := font.rows.length_toList
  have row : k.val < font.rows.toList.length := by
    rw [length]
    exact k.isLt
  rw [read_writeAll_outside outside, loadFont, fontRow,
    read_writeAll_inside (by rw [length]; decide) _ _ row]
  rfl

/-- Reading from the address of a glyph gives the glyph. -/
theorem HoldsFont.readRange_glyph (h : m.HoldsFont font) {a : UInt16} {g : Nat} (nibble : g < 16)
    (place : a.toNat = 0x50 + 5 * g) : m.readRange a 5 = font.glyph g := by
  apply List.ext_getElem
  · rw [length_readRange, Font.glyph, List.length_take, List.length_drop, Vector.length_toList]
    omega
  · intro k inside within
    rw [length_readRange] at inside
    have row : 5 * g + k < 80 := by omega
    have address : a + UInt16.ofNat k = fontRow (5 * g + k) := by
      apply UInt16.toNat_inj.mp
      rw [toNat_fontRow row, UInt16.toNat_add, UInt16.toNat_ofNat', place]
      omega
    have held := h ⟨5 * g + k, row⟩
    simp only [readRange, Font.glyph, List.getElem_map, List.getElem_range, List.getElem_take,
      List.getElem_drop, address]
    exact held

end Memory

/-- The instruction that an operation carries out, if it carries out one. -/
def Operation.instruction? (c : Chip) : Operation → Option Instruction
  | .turn (.step _) => some (.decode c.nextOpcode)
  | .turn (.outside _) => none
  | .execute _ i => some i

/-- The operation carries out an instruction that stores to `a`. -/
def Operation.Stores (c : Chip) (op : Operation) (a : UInt16) : Prop :=
  ∃ i, op.instruction? c = some i ∧ i.NamesRegisters ∧ i.Writes c.dialect c.registers.i (.byte a)

namespace Chip

/-- No operation of the run stores into the font. -/
def SparesFont : Chip → List Operation → Prop
  | _, [] => True
  | c, op :: rest => (∀ a, Memory.InFont a → ¬op.Stores c a) ∧ SparesFont (c.act op).chip rest

variable {c : Chip} {i : Instruction} {op : Operation} {a : UInt16} {font : Font}

/-! ### Memory that is not stored to -/

theorem Completes.names_of_store {wait : KeyWait} {e : Effect} {dialect : Dialect} {index : UInt16}
    (rule : Completes wait c i e) (stores : i.Writes dialect index (.byte a)) : i.NamesRegisters := by
  cases rule with
  | storeDecimal x | storeBlock x =>
    intro y named
    rw [Instruction.registers, List.mem_singleton] at named
    exact named ▸ x.isLt
  | _ => contradiction

theorem read_execute (wait : KeyWait)
    (spared : ¬(i.NamesRegisters ∧ i.Writes c.dialect c.registers.i (.byte a))) :
    (c.execute wait i).chip.memory.read a = c.memory.read a := by
  rcases execute_cases wait i c with ⟨e, rule, run⟩ | ⟨h, _, run⟩
  · have kept : c.Same e.chip (.byte a) :=
      rule.same fun stores => spared ⟨rule.names_of_store stores, stores⟩
    rw [run]
    exact kept
  · rw [run]
    cases i <;> rfl

theorem read_act (spared : ¬op.Stores c a) : (c.act op).chip.memory.read a = c.memory.read a := by
  cases op with
  | turn t =>
    cases t with
    | step wait =>
      have executed : (c.fetched.execute wait (.decode c.nextOpcode)).chip.memory.read a =
          c.memory.read a :=
        read_execute (c := c.fetched) wait fun stores => spared ⟨_, rfl, stores⟩
      rw [act, step]
      split
      · rfl
      · exact executed
    | outside stimulus => cases stimulus <;> rfl
  | execute wait i => exact read_execute wait fun stores => spared ⟨i, rfl, stores⟩

/-- Two instructions write memory, and no other. -/
theorem memory_act (other : ∀ x, op.instruction? c ≠ some (.storeDecimal x) ∧
    op.instruction? c ≠ some (.storeBlock x)) : (c.act op).chip.memory = c.memory := by
  apply Memory.ext_read
  intro a
  apply read_act
  rintro ⟨i, carried, _, writes⟩
  cases i with
  | storeDecimal x => exact (other x).1 carried
  | storeBlock x => exact (other x).2 carried
  | _ => contradiction

theorem holdsFont_actAll (held : c.memory.HoldsFont font) {ops : List Operation}
    (spared : c.SparesFont ops) : (c.actAll ops).memory.HoldsFont font := by
  induction ops generalizing c with
  | nil => exact held
  | cons op rest ih =>
    refine ih ?_ spared.2
    intro k
    rw [read_act (spared.1 _ (Memory.inFont_fontRow k.isLt))]
    exact held k

/-! ### The two instructions -/

/-- The machine as an operation finds it when it carries out its instruction. -/
def poised (c : Chip) : Operation → Chip
  | .turn (.step _) => c.fetched
  | _ => c

theorem act_of_completes {e : Effect} (carried : op.instruction? c = some i)
    (rule : ∀ wait, Completes wait (c.poised op) i e) :
    c.act op = ⟨e.chip.move e.move, .ok e.signal⟩ := by
  cases op with
  | turn t =>
    cases t with
    | step wait =>
      cases carried
      exact step_of_completes (rule wait)
    | outside stimulus => contradiction
  | execute wait i =>
    cases carried
    exact execute_of_completes (rule wait)

/-- Only the program counter and the latest word may differ from the machine before. -/
theorem poised_eq (c : Chip) (op : Operation) : ∃ opcode pc, c.poised op = { c with
    opcode, registers := { c.registers with pc } } := by
  cases op with
  | turn t => cases t <;> exact ⟨_, _, rfl⟩
  | execute => exact ⟨_, _, rfl⟩

theorem afterAll_eq (c : Chip) (stimuli : List Stimulus) : ∃ timers keypad,
    c.afterAll stimuli = { c with timers, keypad } := by
  induction stimuli generalizing c with
  | nil => exact ⟨_, _, rfl⟩
  | cons stimulus rest ih =>
    obtain ⟨timers, keypad, later⟩ := ih (c.after stimulus)
    refine ⟨timers, keypad, later.trans ?_⟩
    cases stimulus <;> rfl

/-- The address of the glyph that a byte names. -/
def glyphAddress (b : UInt8) : UInt16 := Layout.fontStart + Font.glyphRows * (b % 16).toUInt16

theorem toNat_glyphAddress (b : UInt8) : (glyphAddress b).toNat = 0x50 + 5 * (b.toNat % 16) := by
  rw [glyphAddress, ← Guard.ofNat_glyph, UInt16.toNat_ofNat', Nat.mod_eq_of_lt (Guard.glyph_fits b).2,
    UInt8.toNat_mod]
  rfl

theorem act_pointAtGlyph {x : Register} (carried : op.instruction? c = some (.pointAtGlyph x)) :
    (c.act op).result = .ok .quiet ∧ ∃ opcode pc, (c.act op).chip = { c with
      opcode, registers := { c.registers with i := glyphAddress (c.v x), pc } } := by
  obtain ⟨opcode, pc, poised⟩ := c.poised_eq op
  rw [act_of_completes carried fun wait => .pointAtGlyph x, poised]
  exact ⟨rfl, opcode, _, rfl⟩

theorem act_draw {x y : Register} {n : UInt8} (carried : op.instruction? c = some (.draw x y n)) :
    let drawn := c.screen.draw (c.v x) (c.v y) (c.memory.readRange c.registers.i n.toNat)
    (c.act op).result = .ok .drawn ∧ (c.act op).chip.registers.i = c.registers.i ∧
    (c.act op).chip.screen = drawn.1 ∧ (c.act op).chip.v .flag = if drawn.2 then 1 else 0 := by
  intro drawn
  obtain ⟨opcode, pc, poised⟩ := c.poised_eq op
  rw [act_of_completes carried fun wait => .draw x y n, poised]
  exact ⟨rfl, rfl, rfl, v_setFlag _ _ _⟩

/-- Glyphs end to end. After any run of a machine that has not stored into its font, `FX29` followed by
`DAB5` draws the five font rows of the glyph that the low nibble of `VX` names at the coordinates in `VA` and
`VB`, and `VF` tells whether a lit pixel went out. The font is in memory at the start whatever the program is,
and an instruction that is neither `FX33` nor `FX55` writes no memory at all. -/
theorem glyph_end_to_end {rom : Rom} {config : Config} {random : RandomStream}
    (started : start rom config random = .ok c) {ops : List Operation} (spared : c.SparesFont ops) :
    let d := c.actAll ops
    d.memory.HoldsFont config.font ∧
    (∀ (point draw : Operation) (x a b : Register) (stimuli : List Stimulus),
      point.instruction? d = some (.pointAtGlyph x) →
      let e := (d.act point).chip.afterAll stimuli
      draw.instruction? e = some (.draw a b 5) →
      let g := (d.v x).toNat % 16
      let drawn := d.screen.draw (d.v a) (d.v b) (config.font.glyph g)
      (d.act point).result = .ok .quiet ∧ e.registers.i.toNat = 0x50 + 5 * g ∧
      (e.act draw).result = .ok .drawn ∧ (e.act draw).chip.registers.i = e.registers.i ∧
      (e.act draw).chip.screen = drawn.1 ∧
      (e.act draw).chip.v .flag = if drawn.2 then 1 else 0) ∧
    c.memory.HoldsFont config.font ∧
    ∀ (e : Chip) (op : Operation), (∀ x, op.instruction? e ≠ some (.storeDecimal x) ∧
      op.instruction? e ≠ some (.storeBlock x)) → (e.act op).chip.memory = e.memory := by
  intro d
  obtain ⟨_, fits, rfl⟩ := start_eq_ok_iff.mp started
  have loaded : (boot rom config random).memory.HoldsFont config.font := Memory.holdsFont_image fits
  have held : d.memory.HoldsFont config.font := holdsFont_actAll loaded spared
  refine ⟨held, ?_, loaded, fun e op => memory_act⟩
  intro point draw x a b stimuli pointed e carried g drawn
  obtain ⟨quiet, opcode, pc, after⟩ := act_pointAtGlyph pointed
  obtain ⟨timers, keypad, later⟩ := (d.act point).chip.afterAll_eq stimuli
  have found : e = { d with
      opcode, timers, keypad
      registers := { d.registers with i := glyphAddress (d.v x), pc } } := by
    refine later.trans ?_
    rw [after]
  have index : e.registers.i.toNat = 0x50 + 5 * g := by
    rw [found]
    exact toNat_glyphAddress (d.v x)
  have sprite : e.memory.readRange e.registers.i (5 : UInt8).toNat = config.font.glyph g := by
    have same : e.memory = d.memory := by rw [found]
    rw [same]
    exact held.readRange_glyph (Nat.mod_lt _ (by decide)) index
  obtain ⟨told, kept, screen, flag⟩ := act_draw carried
  have coordinates : e.screen = d.screen ∧ e.v = d.v := by
    rw [found]
    exact ⟨rfl, rfl⟩
  rw [sprite, coordinates.1, coordinates.2] at screen flag
  exact ⟨quiet, index, told, kept, screen, flag⟩

/-- A block is stored in front of the font and a key is pressed between the two instructions. -/
theorem glyph_of_ten_drawn :
    let rom : Rom := ⟨"GLYPH", [0xF0, 0x29, 0xD1, 0x25]⟩
    let c := boot rom .standard (.cycle [])
    let ops : List Operation := [.execute ⟨0⟩ (.load 0 0x1A), .execute ⟨0⟩ (.setIndex 0x4D),
      .execute ⟨0⟩ (.storeBlock 2), .turn (.outside .tick)]
    let d := c.actAll ops
    let e := (d.act (.turn (.step ⟨0⟩))).chip.afterAll [.key (.press 3)]
    let f := e.act (.turn (.step ⟨0⟩))
    (start rom .standard (.cycle []) = .ok c ∧ c.SparesFont ops) ∧
    d.memory.read 0x4D = 0x1A ∧ e.registers.i.toNat = 0x82 ∧ f.result = .ok .drawn ∧
    f.chip.screen = (Screen.blank.draw 0 0 [0xF0, 0x90, 0xF0, 0x90, 0x90]).1 := by
  intro rom c ops d e f
  have started : start rom .standard (.cycle []) = .ok c :=
    start_eq_ok_iff.mpr ⟨by decide, by decide, rfl⟩
  have spared : c.SparesFont ops := by
    refine ⟨?_, ?_, ?_, ?_, trivial⟩
    · rintro a - ⟨i, carried, -, stores⟩
      cases carried
      contradiction
    · rintro a - ⟨i, carried, -, stores⟩
      cases carried
      contradiction
    · rintro a font ⟨i, carried, -, stores⟩
      cases carried
      obtain ⟨k, room, same⟩ := stores
      have last : a.toNat % 0x1000 = (0x4D + k) % 0x1000 := same
      have first := font.1
      omega
    · rintro a - ⟨i, carried, -, stores⟩
      contradiction
  obtain ⟨stored, pointed, carried, v, glyph⟩ : d.memory.read 0x4D = 0x1A ∧
      Operation.instruction? d (.turn (.step ⟨0⟩)) = some (.pointAtGlyph (0 : Register)) ∧
      Operation.instruction? e (.turn (.step ⟨0⟩)) = some (.draw (1 : Register) (2 : Register) 5) ∧
      (d.v 0 = 0x1A ∧ d.v 1 = 0 ∧ d.v 2 = 0) ∧
      Font.builtIn.glyph 0xA = [0xF0, 0x90, 0xF0, 0x90, 0x90] := by
    decide +kernel
  obtain ⟨-, draws, -, -⟩ := glyph_end_to_end started spared
  obtain ⟨-, index, told, -, screen, -⟩ := draws _ _ 0 1 2 [.key (.press 3)] pointed carried
  have nibble : (0x1A : UInt8).toNat % 16 = 0xA := by decide
  rw [v.1, nibble] at index
  rw [v.1, v.2.1, v.2.2, nibble] at screen
  refine ⟨⟨started, spared⟩, stored, index, told, screen.trans ?_⟩
  change (Screen.draw _ _ _ (Font.builtIn.glyph 0xA)).1 = _
  rw [glyph]
  rfl

end Chip
end ChipEight
