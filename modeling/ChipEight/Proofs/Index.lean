import ChipEight.Proofs.Simulation
import ChipEight.Proofs.Start

/-! What of the index reaches memory. Every access goes by the place that an address selects, and every
sum with the index keeps apart what it finds apart, so two machines whose indices select the same place go
the same way. The one instruction that tells the bits above is the sum with its flag. -/
namespace ChipEight

namespace Memory

variable {m : Memory} {a b : UInt16}

/-- Sums wrap at a multiple of the size of memory. -/
theorem place_add (same : place a = place b) (k : UInt16) : place (a + k) = place (b + k) := by
  have parts : a.toNat % 0x1000 = b.toNat % 0x1000 := Fin.val_eq_of_eq same
  apply Fin.eq_of_val_eq
  simp only [place, UInt16.toNat_add]
  omega

theorem read_place (same : place a = place b) : m.read a = m.read b :=
  congrArg (fun p : Fin 0x1000 => m.bytes[p]) same

theorem fetch_place (same : place a = place b) : m.fetch a = m.fetch b := by
  rw [fetch, fetch, read_place same, read_place (place_add same 1)]

theorem place_mod (a : UInt16) : place (a % 0x1000) = place a := by
  apply Fin.eq_of_val_eq
  simp [place]

theorem write_place (same : place a = place b) (byte : UInt8) : m.write a byte = m.write b byte :=
  congrArg (fun p : Fin 0x1000 => Memory.mk (m.bytes.set p byte)) same

theorem readRange_place (same : place a = place b) (length : Nat) :
    m.readRange a length = m.readRange b length := by
  apply List.map_congr_left
  intro k _
  exact read_place (place_add same _)

theorem writeAll_place (same : place a = place b) (bytes : List UInt8) :
    m.writeAll a bytes = m.writeAll b bytes := by
  induction bytes generalizing m a b with
  | nil => rfl
  | cons byte rest ih => rw [writeAll, writeAll, write_place same, ih (place_add same 1)]

end Memory

theorem Registers.combine_setIndex (r : Registers) (shiftsVy : Bool) (op : AluOp) (x y : Register)
    (a : UInt16) :
    (r.setIndex a).combine shiftsVy op x y = (r.combine shiftsVy op x y).setIndex a := by
  rcases found : op.eval shiftsVy (r.get x) (r.get y) with ⟨b, _ | flag⟩
  all_goals
    have same : op.eval shiftsVy ((r.setIndex a).get x) ((r.setIndex a).get y) = _ := found
    rw [combine, combine, found, same]
    rfl

theorem Registers.index_combine (r : Registers) (shiftsVy : Bool) (op : AluOp) (x y : Register) :
    (r.combine shiftsVy op x y).i = r.i := by
  unfold combine
  split <;> rfl

namespace Chip

/-- The same machine but for the index, and the same place in memory. -/
structure SamePlace (c d : Chip) : Prop where
  others : d = c.setIndex d.registers.i
  place : Memory.place c.registers.i = Memory.place d.registers.i

namespace SamePlace

variable {c d : Chip} {a : UInt16}

theorem setIndex (c : Chip) (same : Memory.place c.registers.i = Memory.place a) :
    SamePlace c (c.setIndex a) := ⟨rfl, same⟩

theorem eq_setIndex (h : SamePlace c d) :
    ∃ a, Memory.place c.registers.i = Memory.place a ∧ d = c.setIndex a :=
  ⟨d.registers.i, h.place, h.others⟩

theorem combine (same : Memory.place c.registers.i = Memory.place a) (op : AluOp) (x y : Register) :
    SamePlace (c.combine op x y) ((c.setIndex a).combine op x y) := by
  rw [combine_registers, combine_registers]
  change SamePlace _ { c with
    registers := (c.registers.setIndex a).combine c.dialect.shiftsVy op x y }
  rw [Registers.combine_setIndex]
  refine setIndex _ ?_
  rw [Registers.index_combine]
  exact same

theorem store (same : Memory.place c.registers.i = Memory.place a) (bytes : List UInt8) :
    SamePlace (c.store bytes) ((c.setIndex a).store bytes) := by
  have memory : (c.setIndex a).store bytes = (c.store bytes).setIndex a := by
    unfold Chip.store
    rw [Memory.writeAll_place same]
    rfl
  rw [memory]
  exact setIndex _ same

theorem fill (same : Memory.place c.registers.i = Memory.place a) (x : Register) :
    SamePlace (c.fill x) ((c.setIndex a).fill x) := by
  have registers : (c.setIndex a).fill x = (c.fill x).setIndex a := by
    have bytes (k : UInt16) : c.memory.read (a + k) = c.memory.read (c.registers.i + k) :=
      Memory.read_place (Memory.place_add same k).symm
    unfold Chip.fill
    simp only [Chip.setIndex, Registers.setIndex, Registers.fillUpTo, bytes]
  rw [registers]
  exact setIndex _ same

theorem drawSprite (same : Memory.place c.registers.i = Memory.place a) (x y : Register) (n : UInt8) :
    SamePlace (c.drawSprite x y n) ((c.setIndex a).drawSprite x y n) := by
  have drawn : (c.setIndex a).drawSprite x y n = (c.drawSprite x y n).setIndex a := by
    have sprite := Memory.readRange_place (m := c.memory) same n.toNat
    unfold Chip.drawSprite
    rw [sprite]
    rfl
  rw [drawn]
  exact setIndex _ same

/-- Without its flag the sum keeps the bits above the place to itself. -/
theorem addIndex (same : Memory.place c.registers.i = Memory.place a)
    (off : c.dialect.indexSetsFlag = false) (x : Register) :
    SamePlace (c.addIndex x) ((c.setIndex a).addIndex x) := by
  have plain (k : Chip) (off : k.dialect.indexSetsFlag = false) :
      k.addIndex x = k.setIndex (k.registers.i + (k.v x).toUInt16) := by
    simp [Chip.addIndex, off]
  rw [plain c off, plain (c.setIndex a) off]
  exact setIndex (c.setIndex _) (Memory.place_add same _)

theorem passBlock (h : SamePlace c d) (x : Register) : SamePlace (c.passBlock x) (d.passBlock x) := by
  obtain ⟨a, same, rfl⟩ := h.eq_setIndex
  have dialect : (c.setIndex a).dialect = c.dialect := rfl
  simp only [Chip.passBlock, dialect]
  split
  · exact setIndex (c.setIndex _) (Memory.place_add same _)
  · exact h

theorem tie : Tie SamePlace where
  word h := by
    obtain ⟨a, -, rfl⟩ := h.eq_setIndex
    rfl
  pc h := by
    obtain ⟨a, -, rfl⟩ := h.eq_setIndex
    rfl
  setPc h b := by
    obtain ⟨a, same, rfl⟩ := h.eq_setIndex
    exact setIndex _ same
  latest h w := by
    obtain ⟨a, same, rfl⟩ := h.eq_setIndex
    exact setIndex _ same
  drawn h := by
    obtain ⟨a, same, rfl⟩ := h.eq_setIndex
    exact setIndex _ same

theorem after (h : SamePlace c d) (stimulus : Stimulus) :
    SamePlace (c.after stimulus) (d.after stimulus) := by
  obtain ⟨a, same, rfl⟩ := h.eq_setIndex
  cases stimulus <;> exact setIndex _ same

/-- An instruction goes by the place alone, unless it is the sum that tells more in its flag. -/
theorem effect (h : SamePlace c d) (wait : KeyWait) {i : Instruction}
    (calm : ∀ x, i = .addIndex x → c.dialect.indexSetsFlag = false) :
    Agree (Effect.Tied SamePlace) (c.effect wait i) (d.effect wait i) := by
  obtain ⟨a, same, rfl⟩ := h.eq_setIndex
  cases i with
  | clear | jump | unknown => exact .ok ⟨setIndex _ same, rfl, rfl⟩
  | setIndex nnn => exact .ok ⟨setIndex (c.setIndex nnn) rfl, rfl, rfl⟩
  | ret | call | jumpOffset | load | add | random | readDelay | setDelay | setSound =>
    exact .bind _ fun _ => .ok ⟨setIndex _ same, rfl, rfl⟩
  | pointAtGlyph x => exact .bind _ fun x => .ok ⟨setIndex (c.pointAtGlyph x) rfl, rfl, rfl⟩
  | skip condition =>
    exact Tie.skip h (by cases condition <;> rfl)
  | awaitKey x => exact tie.awaitKey h rfl (fun y b => setIndex (c.setV y b) same) x
  | alu op x y => exact .bind _ fun x => .bind _ fun y => .ok ⟨combine same op x y, rfl, rfl⟩
  | draw x y n => exact .bind _ fun x => .bind _ fun y => .ok ⟨drawSprite same x y n, rfl, rfl⟩
  | addIndex x => exact .bind _ fun r => .ok ⟨addIndex same (calm x rfl) r, rfl, rfl⟩
  | storeDecimal x => exact .bind _ fun x => .ok ⟨store same _, rfl, rfl⟩
  | storeBlock x => exact .bind _ fun x => .ok ⟨(store same _).passBlock x, rfl, rfl⟩
  | loadBlock x => exact .bind _ fun x => .ok ⟨(fill same x).passBlock x, rfl, rfl⟩

end SamePlace

variable {c d : Chip}

/-- Only the place reaches memory. Two machines that differ in their indices, which select the same place,
take the same steps and differ in nothing else after each of them, as long as no sum with the index tells
more in its flag. -/
theorem index_reaches_memory_by_place (same : SamePlace c d) (turns : List Turn)
    (calm : c.dialect.indexSetsFlag = true → ∀ t ∈ c.takenAll turns, ¬t.word.IsMisc 0x1E) :
    c.takenAll turns = d.takenAll turns ∧ SamePlace (c.turnAll turns) (d.turnAll turns) := by
  refine SamePlace.tie.run (fun dialect w => dialect.indexSetsFlag = true → ¬w.IsMisc 0x1E)
    ?_ (fun stimulus h => h.after stimulus) same turns fun t member on => calm on t member
  intro c d w wait h calm
  refine h.effect wait fun x decoded => ?_
  have fits := Instruction.fits_decode w
  rw [decoded] at fits
  rw [Bool.eq_false_iff]
  intro on
  exact calm on fits.1

/-- A block goes past the end of memory with one index and past the last address with the other. -/
theorem wrapped_index_reaches_place :
    let config : Config := { Config.standard with dialect := ⟨false, false, true, true⟩ }
    let c := (boot ⟨"WRAP", [0x61, 0x09, 0xF1, 0x55, 0xF0, 0x33]⟩ config (.cycle [])).setIndex 0x0FFF
    let d := c.setIndex 0xFFFF
    let turns : List Turn :=
      [.step ⟨0⟩, .outside (.setDelay 2), .step ⟨0⟩, .outside .tick, .outside (.key (.press 3)), .step ⟨0⟩]
    (SamePlace c d ∧
      (c.dialect.indexSetsFlag = true → ∀ t ∈ c.takenAll turns, ¬t.word.IsMisc 0x1E)) ∧
    ((c.turnAll turns).registers.i = 0x1001 ∧ (d.turnAll turns).registers.i = 1 ∧
      (c.turnAll turns).memory.read 0 = 9) ∧
    c.takenAll turns = d.takenAll turns ∧ SamePlace (c.turnAll turns) (d.turnAll turns) := by
  intro config c d turns
  have place : Memory.place 0x0FFF = Memory.place 0xFFFF := by decide
  have same : SamePlace c d := .setIndex c place
  obtain ⟨calm, ends⟩ : (∀ t ∈ c.takenAll turns, ¬t.word.IsMisc 0x1E) ∧
      ((c.turnAll turns).registers.i = 0x1001 ∧ (d.turnAll turns).registers.i = 1 ∧
        (c.turnAll turns).memory.read 0 = 9) := by
    decide +kernel
  exact ⟨⟨same, fun _ => calm⟩, ends, index_reaches_memory_by_place same turns fun _ => calm⟩

end Chip
end ChipEight
