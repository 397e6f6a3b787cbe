import ChipEight.Proofs.Decoding
import Mathlib.Data.Set.Function

/-! Words and instructions one to one. An instruction whose fields have room in their places is written as a
word that fits its pattern and no other, and a word that fits a pattern is read as that instruction. What is
left over is kept as it is, so decoding loses nothing and confuses nothing. -/
namespace ChipEight

namespace Opcode

variable {t b nnn : UInt16} {x y : Nat}

theorem n_lt (w : Opcode) : w.n.toNat < 0x10 := by
  rw [toNat_n]
  exact Nat.mod_lt _ (by decide)

theorem nnn_lt (w : Opcode) : w.nnn.toNat < 0x1000 := by
  rw [toNat_nnn]
  exact Nat.mod_lt _ (by decide)

/-- The high nibble of an address stands where a register number would. -/
theorem nnn_div (w : Opcode) : w.nnn.toNat / 0x100 = w.x := by
  rw [toNat_nnn, x]
  omega

/-- Fields that have room are found again where the pattern `TXNN` puts them. -/
theorem fields_txnn (family : t.toNat < 16) (register : x < 16) {nn : UInt8}
    (low : nn.toUInt16 = b) :
    (txnn t x b).family = t.toNat ∧ x = (txnn t x b).x ∧ nn = (txnn t x b).nn := by
  have bound := nn.toNat_lt
  have value : (txnn t x b).toNat = t.toNat * 0x1000 + x * 0x100 + nn.toNat := by
    simp only [← low, txnn, UInt16.toNat_add, UInt16.toNat_mul, UInt16.toNat_ofNat',
      UInt8.toNat_toUInt16, UInt16.reduceToNat]
    omega
  refine ⟨?_, ?_, UInt8.toNat_inj.mp ?_⟩
  · rw [Opcode.family, value]
    omega
  · rw [Opcode.x, value]
    omega
  · rw [toNat_nn, value]
    omega

theorem fields_txyn (family : t.toNat < 16) (first : x < 16) (second : y < 16) {n : UInt8}
    (low : n.toNat < 16) :
    (txyn t x y n.toUInt16).family = t.toNat ∧ x = (txyn t x y n.toUInt16).x ∧
      y = (txyn t x y n.toUInt16).y ∧ n = (txyn t x y n.toUInt16).n := by
  have value : (txyn t x y n.toUInt16).toNat =
      t.toNat * 0x1000 + x * 0x100 + y * 0x10 + n.toNat := by
    simp only [txyn, UInt16.toNat_add, UInt16.toNat_mul, UInt16.toNat_ofNat',
      UInt8.toNat_toUInt16, UInt16.reduceToNat]
    omega
  refine ⟨?_, ?_, ?_, UInt8.toNat_inj.mp ?_⟩
  · rw [Opcode.family, value]
    omega
  · rw [Opcode.x, value]
    omega
  · rw [Opcode.y, value]
    omega
  · rw [toNat_n, value]
    omega

theorem fields_tnnn (family : t.toNat < 16) (room : nnn.toNat < 0x1000) :
    (tnnn t nnn).family = t.toNat ∧ nnn = (tnnn t nnn).nnn := by
  have value : (tnnn t nnn).toNat = t.toNat * 0x1000 + nnn.toNat := by
    simp only [tnnn, UInt16.toNat_add, UInt16.toNat_mul, UInt16.reduceToNat]
    omega
  refine ⟨?_, UInt16.toNat_inj.mp ?_⟩
  · rw [Opcode.family, value]
    omega
  · rw [toNat_nnn, value]
    omega

theorem isMisc_txnn (register : x < 16) {nn : UInt8} (low : nn.toUInt16 = b) :
    (txnn 0xF x b).IsMisc nn ∧ x = (txnn 0xF x b).x := by
  obtain ⟨family, number, selector⟩ := fields_txnn (t := 0xF) (by decide) register low
  exact ⟨⟨family, selector.symm⟩, number⟩

end Opcode

open Opcode

theorem AluOp.exists_nibble (op : AluOp) : ∃ n : UInt8,
    n.toNat < 16 ∧ n.toUInt16 = op.selector ∧ AluOp.decode? n = some op :=
  ⟨op.selector.toUInt8, by cases op <;> decide⟩

theorem Condition.fits_encode {condition : Condition} (named : ∀ x ∈ condition.registers, x < 16) :
    condition.Fits condition.encode := by
  cases condition with
  | equal x nn | notEqual x nn =>
    have register : x < 16 := named x (by simp [registers])
    exact fields_txnn (by decide) register rfl
  | sameRegister x y =>
    have first : x < 16 := named x (by simp [registers])
    have second : y < 16 := named y (by simp [registers])
    obtain ⟨family, hx, hy, low⟩ := fields_txyn (t := 0x5) (n := 0) (by decide) first second (by decide)
    exact ⟨family, low.symm, hx, hy⟩
  | otherRegister x y =>
    have first : x < 16 := named x (by simp [registers])
    have second : y < 16 := named y (by simp [registers])
    obtain ⟨family, hx, hy, low⟩ := fields_txyn (t := 0x9) (n := 0) (by decide) first second (by decide)
    exact ⟨family, low.symm, hx, hy⟩
  | keyHeld x =>
    have register : x < 16 := named x (by simp [registers])
    have selector : UInt8.toUInt16 0x9E = 0x9E := rfl
    obtain ⟨family, number, low⟩ := fields_txnn (t := 0xE) (by decide) register selector
    exact ⟨family, low.symm, number⟩
  | keyUp x =>
    have register : x < 16 := named x (by simp [registers])
    have selector : UInt8.toUInt16 0xA1 = 0xA1 := rfl
    obtain ⟨family, number, low⟩ := fields_txnn (t := 0xE) (by decide) register selector
    exact ⟨family, low.symm, number⟩

namespace Instruction

/-- The instruction is one of the table, and its fields have room in their places. -/
def Regular (i : Instruction) : Prop :=
  i.NamesRegisters ∧ match i with
    | .jump nnn | .call nnn | .setIndex nnn => nnn.toNat < 0x1000
    | .jumpOffset nnn x => nnn.toNat < 0x1000 ∧ x = nnn.toNat / 0x100
    | .draw _ _ n => n.toNat < 0x10
    | .unknown _ => False
    | _ => True

end Instruction

/-- The word is how an instruction of the table is written. -/
def Opcode.Patterned (w : Opcode) : Prop := ∃ i : Instruction, i.Regular ∧ i.encode = w

namespace Instruction

/-- The instruction is regular, or it keeps a word that fits no pattern. -/
def WellFormed (i : Instruction) : Prop := i.Regular ∨ ∃ w, i = .unknown w ∧ ¬w.Patterned

variable {w : Opcode} {i : Instruction}

theorem fits_encode (regular : i.Regular) : i.Fits i.encode := by
  obtain ⟨named, room⟩ := regular
  cases i with
  | clear | ret => rfl
  | unknown v => contradiction
  | skip condition => exact condition.fits_encode named
  | jump nnn | call nnn | setIndex nnn =>
    exact fields_tnnn (by decide) room
  | jumpOffset nnn x =>
    obtain ⟨room, rfl⟩ := room
    obtain ⟨family, address⟩ := fields_tnnn (t := 0xB) (by decide) room
    have high := nnn_div (tnnn 0xB nnn)
    rw [← address] at high
    exact ⟨family, address, high⟩
  | load x nn | add x nn | random x nn =>
    have register : x < 16 := named x (by simp [registers])
    exact fields_txnn (by decide) register rfl
  | alu op x y =>
    have first : x < 16 := named x (by simp [registers])
    have second : y < 16 := named y (by simp [registers])
    obtain ⟨n, low, selected, decoded⟩ := op.exists_nibble
    obtain ⟨family, hx, hy, hn⟩ := fields_txyn (t := 0x8) (by decide) first second low
    rw [selected] at family hx hy hn
    exact ⟨family, hn ▸ decoded, hx, hy⟩
  | draw x y n =>
    have first : x < 16 := named x (by simp [registers])
    have second : y < 16 := named y (by simp [registers])
    exact fields_txyn (by decide) first second room
  | _ x =>
    have register : x < 16 := named x (by simp [registers])
    exact isMisc_txnn register rfl

theorem decode_encode (regular : i.Regular) : decode i.encode = i :=
  decode_of_fits (fits_encode regular)

theorem regular_of_fits (h : i.Fits w) (known : w.listed = true) : i.Regular := by
  refine ⟨?_, ?_⟩
  · rw [← decode_of_fits h]
    exact namesRegisters_decode w
  · cases i with
    | jump nnn | call nnn | setIndex nnn =>
      obtain ⟨-, rfl⟩ := h
      exact w.nnn_lt
    | jumpOffset nnn x =>
      obtain ⟨-, rfl, rfl⟩ := h
      exact ⟨w.nnn_lt, w.nnn_div.symm⟩
    | draw x y n =>
      obtain ⟨-, -, -, rfl⟩ := h
      exact w.n_lt
    | unknown v =>
      obtain ⟨-, outside⟩ := h
      simp [known] at outside
    | _ => trivial

/-- The table lists the words that are written for a regular instruction, and no others. -/
theorem patterned_iff : w.Patterned ↔ w.listed = true := by
  constructor
  · rintro ⟨i, regular, rfl⟩
    by_contra outside
    have kept := decode_of_not_listed (Bool.eq_false_iff.mpr outside)
    rw [decode_encode regular] at kept
    rw [kept] at regular
    exact regular.2
  · intro known
    exact ⟨decode w, regular_of_fits (fits_decode w) known, encode_decode w⟩

theorem wellFormed_decode (w : Opcode) : (decode w).WellFormed := by
  by_cases known : w.Patterned
  · exact .inl (regular_of_fits (fits_decode w) (patterned_iff.mp known))
  · have outside : w.listed = false := Bool.eq_false_iff.mpr fun listed => known (patterned_iff.mpr listed)
    exact .inr ⟨w, decode_of_not_listed outside, known⟩

theorem decode_encode_of_wellFormed (h : i.WellFormed) : decode i.encode = i := by
  obtain regular | ⟨w, rfl, outside⟩ := h
  · exact decode_encode regular
  · exact decode_of_not_listed (Bool.eq_false_iff.mpr fun listed => outside (patterned_iff.mpr listed))

/-- The law of the instruction table. Writing back what was read from a word gives the word, and reading what
was written for a well-formed instruction gives the instruction; all that is read is well-formed, so reading
is one to one between the words and these instructions. The words of one instruction of the table are no other
instruction's, and the words of none are kept as they are. -/
theorem words_fit_instructions :
    (∀ w, (decode w).encode = w ∧ (decode w).WellFormed) ∧
    (∀ i, i.WellFormed → decode i.encode = i) ∧
    Set.BijOn decode Set.univ {i | i.WellFormed} ∧
    (∀ i w, i.Regular → (decode w = i ↔ w = i.encode)) ∧
    ∀ w, decode w = .unknown w ↔ ¬w.Patterned := by
  refine ⟨fun w => ⟨encode_decode w, wellFormed_decode w⟩, fun i => decode_encode_of_wellFormed,
    ⟨?_, ?_, ?_⟩, ?_, ?_⟩
  · exact fun w _ => wellFormed_decode w
  · intro v _ w _ same
    rw [← encode_decode v, same, encode_decode]
  · exact fun i h => ⟨i.encode, trivial, decode_encode_of_wellFormed h⟩
  · intro i w regular
    constructor
    · rintro rfl
      exact (encode_decode w).symm
    · rintro rfl
      exact decode_encode regular
  · intro w
    constructor
    · rintro kept ⟨i, regular, rfl⟩
      rw [decode_encode regular] at kept
      rw [kept] at regular
      exact regular.2
    · intro outside
      exact decode_encode_of_wellFormed (.inr ⟨w, rfl, outside⟩)

/-- A jump whose register is the high nibble of its address, and a word between two operations of `8XYT`. -/
theorem neighbours_told_apart :
    let jump : Instruction := .jumpOffset 0xABC 0xA
    let kept : Instruction := .unknown 0x8128
    (jump.Regular ∧ kept.WellFormed) ∧ decode jump.encode = jump ∧ decode kept.encode = kept ∧
      decode 0xBABC = jump := by
  intro jump kept
  obtain ⟨-, back, -, only, -⟩ := words_fit_instructions
  have regular : jump.Regular := by
    refine ⟨?_, by decide, by decide⟩
    simp [jump, NamesRegisters, registers]
  have outside : ¬Opcode.Patterned 0x8128 := by
    rw [patterned_iff]
    decide
  have wellFormed : kept.WellFormed := .inr ⟨0x8128, rfl, outside⟩
  exact ⟨⟨regular, wellFormed⟩, back jump (.inl regular), back kept wellFormed,
    (only jump 0xBABC regular).mpr (by decide)⟩

end Instruction
end ChipEight
