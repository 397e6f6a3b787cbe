import ChipEight.Instruction.Decode
import ChipEight.Instruction.Encode
import Mathlib.Algebra.Group.Nat.Defs

/-! What decoding keeps of a word. Its fields are those that masks and shifts cut out. Each instruction comes
from the words of one pattern and takes its fields from them, and the words that fit no pattern are exactly
those that the table does not list. So an instruction read from a word and written back is that word, and
decoding names no register that does not exist; an instruction built by hand may. -/
namespace ChipEight

namespace Opcode

/-- A mask that covers `width` bits from bit `low` on cuts a digit out of a word. -/
theorem toNat_masked (w mask : Opcode) (low width : Nat) (covers : mask.toNat >>> low = 2 ^ width - 1) :
    (w &&& mask).toNat >>> low = w.toNat / 2 ^ low % 2 ^ width := by
  rw [UInt16.toNat_and, Nat.shiftRight_and_distrib, covers, Nat.and_two_pow_sub_one_eq_mod,
    Nat.shiftRight_eq_div_pow]

theorem family_eq_masked (w : Opcode) : w.family = ((w &&& 0xF000) >>> 12).toNat := by
  have bound := w.toNat_lt
  have digit := toNat_masked w 0xF000 12 4 rfl
  have top : w.toNat / 2 ^ 12 % 2 ^ 4 = w.toNat / 0x1000 := by omega
  exact (digit.trans top).symm

theorem x_eq_masked (w : Opcode) : w.x = ((w &&& 0x0FFF &&& 0xFF00) >>> 8).toNat := by
  have one : w &&& 0x0FFF &&& 0xFF00 = w &&& 0x0F00 := UInt16.and_assoc _ _ _
  rw [one]
  exact (toNat_masked w 0x0F00 8 4 rfl).symm

theorem y_eq_masked (w : Opcode) : w.y = ((w &&& 0x00F0) >>> 4).toNat :=
  (toNat_masked w 0x00F0 4 4 rfl).symm

/-- A mask of the lowest bits leaves a remainder. -/
theorem low_eq_masked (w : Opcode) {size mask : Opcode} (width : Nat) (room : size.toNat = 2 ^ width)
    (covers : mask.toNat = 2 ^ width - 1) : w % size = w &&& mask := by
  apply UInt16.toNat_inj.mp
  rw [UInt16.toNat_mod, UInt16.toNat_and, room, covers, Nat.and_two_pow_sub_one_eq_mod]

theorem n_eq_masked (w : Opcode) : w.n = (w &&& 0x000F).toUInt8 :=
  congrArg UInt16.toUInt8 (w.low_eq_masked 4 rfl rfl)

theorem nn_eq_masked (w : Opcode) : w.nn = (w &&& 0x00FF).toUInt8 :=
  congrArg UInt16.toUInt8 (w.low_eq_masked 8 rfl rfl)

theorem nnn_eq_masked (w : Opcode) : w.nnn = w &&& 0x0FFF := w.low_eq_masked 12 rfl rfl

theorem txnn_fields {w : Opcode} {t : UInt16} (family : w.family = t.toNat) :
    txnn t w.x w.nn.toUInt16 = w := by
  have bound := w.toNat_lt
  apply UInt16.toNat_inj.mp
  simp only [Opcode.family] at family
  simp only [txnn, x, UInt16.toNat_add, UInt16.toNat_mul, UInt16.toNat_ofNat',
    UInt8.toNat_toUInt16, toNat_nn, UInt16.reduceToNat]
  omega

theorem txyn_fields {w : Opcode} {t : UInt16} (family : w.family = t.toNat) :
    txyn t w.x w.y w.n.toUInt16 = w := by
  have bound := w.toNat_lt
  apply UInt16.toNat_inj.mp
  simp only [Opcode.family] at family
  simp only [txyn, x, y, UInt16.toNat_add, UInt16.toNat_mul, UInt16.toNat_ofNat',
    UInt8.toNat_toUInt16, toNat_n, UInt16.reduceToNat]
  omega

theorem tnnn_fields {w : Opcode} {t : UInt16} (family : w.family = t.toNat) :
    tnnn t w.nnn = w := by
  have bound := w.toNat_lt
  apply UInt16.toNat_inj.mp
  simp only [Opcode.family] at family
  simp only [tnnn, UInt16.toNat_add, UInt16.toNat_mul, toNat_nnn, UInt16.reduceToNat]
  omega

theorem family_lt (w : Opcode) : w.family < 16 := by
  have bound := w.toNat_lt
  unfold family
  omega

/-- The words after which the picture is to be shown: `00E0` and `DXYN`. -/
def draws (w : Opcode) : Bool := w = 0x00E0 || w.family = 0xD

theorem draws_of_family {w : Opcode} (system : w.family ≠ 0) :
    w.draws = decide (w.family = 0xD) := by
  have other : w ≠ 0x00E0 := by
    rintro rfl
    exact system rfl
  simp [draws, other]

/-- The words `FXNN` with a given low byte. -/
def IsMisc (w : Opcode) (nn : UInt8) : Prop := w.family = 0xF ∧ w.nn = nn

instance (w : Opcode) (nn : UInt8) : Decidable (w.IsMisc nn) := inferInstanceAs (Decidable (_ ∧ _))

/-- Whether the table lists the word. -/
def listed (w : Opcode) : Bool :=
  match w.family with
  | 0x0 => w = 0x00E0 || w = 0x00EE
  | 0x5 | 0x9 => w.n = 0
  | 0x8 => w.n ≤ 0x7 || w.n = 0xE
  | 0xE => w.nn = 0x9E || w.nn = 0xA1
  | 0xF => [0x07, 0x0A, 0x15, 0x18, 0x1E, 0x29, 0x33, 0x55, 0x65].contains w.nn
  | _ => true

end Opcode

open Opcode

theorem AluOp.selector_of_decode {n : UInt8} {op : AluOp} (h : AluOp.decode? n = some op) :
    op.selector = n.toUInt16 := by
  unfold AluOp.decode? at h
  split at h
  all_goals first | contradiction | (cases h; rfl)

theorem AluOp.decode_eq_none_iff {n : UInt8} :
    AluOp.decode? n = none ↔ ¬(n ≤ 0x7 ∨ n = 0xE) := by
  unfold AluOp.decode?
  split
  case h_10 =>
    simp only [UInt8.le_iff_toNat_le, ← UInt8.toNat_inj] at *
    simp at *
    omega
  all_goals simp

/-- The register numbers that a condition names. -/
def Condition.registers : Condition → List Nat
  | .equal x _ | .notEqual x _ | .keyHeld x | .keyUp x => [x]
  | .sameRegister x y | .otherRegister x y => [x, y]

theorem Condition.decodeKey_eq_none_iff {x : Nat} {nn : UInt8} :
    Condition.decodeKey? x nn = none ↔ ¬(nn = 0x9E ∨ nn = 0xA1) := by
  unfold Condition.decodeKey?
  split <;> simp_all

/-- The word fits the pattern of the condition and holds its fields. -/
def Condition.Fits (w : Opcode) : Condition → Prop
  | .equal x nn => w.family = 0x3 ∧ x = w.x ∧ nn = w.nn
  | .notEqual x nn => w.family = 0x4 ∧ x = w.x ∧ nn = w.nn
  | .sameRegister x y => w.family = 0x5 ∧ w.n = 0 ∧ x = w.x ∧ y = w.y
  | .otherRegister x y => w.family = 0x9 ∧ w.n = 0 ∧ x = w.x ∧ y = w.y
  | .keyHeld x => w.family = 0xE ∧ w.nn = 0x9E ∧ x = w.x
  | .keyUp x => w.family = 0xE ∧ w.nn = 0xA1 ∧ x = w.x

theorem Condition.encode_of_fits {w : Opcode} {condition : Condition} (h : condition.Fits w) :
    condition.encode = w := by
  cases condition with
  | equal x nn | notEqual x nn =>
    obtain ⟨family, rfl, rfl⟩ := h
    exact txnn_fields family
  | sameRegister x y =>
    obtain ⟨family, low, rfl, rfl⟩ := h
    simpa [encode, low] using txyn_fields (t := 0x5) family
  | otherRegister x y =>
    obtain ⟨family, low, rfl, rfl⟩ := h
    simpa [encode, low] using txyn_fields (t := 0x9) family
  | keyHeld x | keyUp x =>
    obtain ⟨family, low, rfl⟩ := h
    simpa [encode, low] using txnn_fields (t := 0xE) family

namespace Instruction

/-- The register numbers that an instruction names, consulted or not. -/
def registers : Instruction → List Nat
  | .clear | .ret | .jump _ | .call _ | .setIndex _ | .unknown _ => []
  | .skip condition => condition.registers
  | .alu _ x y | .draw x y _ => [x, y]
  | .load x _ | .add x _ | .jumpOffset _ x | .random x _ | .readDelay x | .awaitKey x | .setDelay x
  | .setSound x | .addIndex x | .pointAtGlyph x | .storeDecimal x | .storeBlock x
  | .loadBlock x => [x]

/-- Every register that the instruction names exists. -/
def NamesRegisters (i : Instruction) : Prop := ∀ x ∈ i.registers, x < 16

/-- The instructions after which the picture is to be shown. -/
def draws : Instruction → Bool
  | .clear | .draw .. => true
  | _ => false

/-- The word fits the pattern of the instruction and holds its fields. -/
def Fits (w : Opcode) : Instruction → Prop
  | .clear => w = 0x00E0
  | .ret => w = 0x00EE
  | .jump nnn => w.family = 0x1 ∧ nnn = w.nnn
  | .call nnn => w.family = 0x2 ∧ nnn = w.nnn
  | .skip condition => condition.Fits w
  | .load x nn => w.family = 0x6 ∧ x = w.x ∧ nn = w.nn
  | .add x nn => w.family = 0x7 ∧ x = w.x ∧ nn = w.nn
  | .alu op x y => w.family = 0x8 ∧ AluOp.decode? w.n = some op ∧ x = w.x ∧ y = w.y
  | .setIndex nnn => w.family = 0xA ∧ nnn = w.nnn
  | .jumpOffset nnn x => w.family = 0xB ∧ nnn = w.nnn ∧ x = w.x
  | .random x nn => w.family = 0xC ∧ x = w.x ∧ nn = w.nn
  | .draw x y n => w.family = 0xD ∧ x = w.x ∧ y = w.y ∧ n = w.n
  | .readDelay x => w.IsMisc 0x07 ∧ x = w.x
  | .awaitKey x => w.IsMisc 0x0A ∧ x = w.x
  | .setDelay x => w.IsMisc 0x15 ∧ x = w.x
  | .setSound x => w.IsMisc 0x18 ∧ x = w.x
  | .addIndex x => w.IsMisc 0x1E ∧ x = w.x
  | .pointAtGlyph x => w.IsMisc 0x29 ∧ x = w.x
  | .storeDecimal x => w.IsMisc 0x33 ∧ x = w.x
  | .storeBlock x => w.IsMisc 0x55 ∧ x = w.x
  | .loadBlock x => w.IsMisc 0x65 ∧ x = w.x
  | .unknown v => v = w ∧ w.listed = false

variable {w : Opcode} {i : Instruction}

theorem fits_of_decodeMisc (family : w.family = 0xF) (h : decodeMisc? w.x w.nn = some i) :
    i.Fits w := by
  unfold decodeMisc? at h
  split at h
  all_goals first | contradiction | (cases h; next low => exact ⟨⟨family, low⟩, rfl⟩)

theorem fits_of_decode (h : decode? w = some i) : i.Fits w := by
  unfold decode? at h
  split at h
  case h_1 =>
    unfold decodeSystem? at h
    split at h
    · next whole => cases h; exact whole
    · split at h
      · next whole => cases h; exact whole
      · contradiction
  case h_6 family | h_10 family =>
    split at h
    · next low => cases h; exact ⟨family, low, rfl, rfl⟩
    · contradiction
  case h_9 family =>
    obtain ⟨op, decoded, rfl⟩ := Option.map_eq_some_iff.mp h
    exact ⟨family, decoded, rfl, rfl⟩
  case h_15 family =>
    obtain ⟨condition, decoded, rfl⟩ := Option.map_eq_some_iff.mp h
    unfold Condition.decodeKey? at decoded
    split at decoded
    all_goals first | contradiction | (cases decoded; next low => exact ⟨family, low, rfl⟩)
  case h_16 family => exact fits_of_decodeMisc family h
  case h_17 => contradiction
  case h_2 family | h_3 family | h_11 family => cases h; exact ⟨family, rfl⟩
  case h_14 family => cases h; exact ⟨family, rfl, rfl, rfl⟩
  all_goals next family => cases h; exact ⟨family, rfl, rfl⟩

theorem decodeMisc_eq_none_iff {x : Nat} {nn : UInt8} :
    decodeMisc? x nn = none ↔
      [0x07, 0x0A, 0x15, 0x18, 0x1E, 0x29, 0x33, 0x55, 0x65].contains nn = false := by
  unfold decodeMisc?
  split
  case h_10 => simp_all
  all_goals simp

theorem decode?_eq_none_iff : decode? w = none ↔ w.listed = false := by
  unfold decode?
  split
  case h_1 family =>
    have listed : w.listed = (w = 0x00E0 || w = 0x00EE) := by
      rw [Opcode.listed, family]
      rfl
    rw [listed]
    by_cases clear : w = 0x00E0
    · simp [decodeSystem?, clear]
    · by_cases ret : w = 0x00EE <;> simp [decodeSystem?, clear, ret]
  case h_9 family => simp [Opcode.listed, family, AluOp.decode_eq_none_iff]
  case h_15 family => simp [Opcode.listed, family, Condition.decodeKey_eq_none_iff]
  case h_16 family => simp [Opcode.listed, family, decodeMisc_eq_none_iff]
  case h_17 =>
    have bound := w.family_lt
    grind
  all_goals next family => simp [Opcode.listed, family]

theorem fits_decode (w : Opcode) : (decode w).Fits w := by
  unfold decode
  cases found : decode? w with
  | none => exact ⟨rfl, decode?_eq_none_iff.mp found⟩
  | some i => exact fits_of_decode found

theorem encode_of_fits (h : i.Fits w) : i.encode = w := by
  cases i with
  | clear | ret => exact h.symm
  | unknown v => exact h.1
  | skip condition => exact condition.encode_of_fits h
  | jump nnn | call nnn | setIndex nnn =>
    obtain ⟨family, rfl⟩ := h
    exact tnnn_fields family
  | jumpOffset nnn x =>
    obtain ⟨family, rfl, rfl⟩ := h
    exact tnnn_fields family
  | load x nn | add x nn | random x nn =>
    obtain ⟨family, rfl, rfl⟩ := h
    exact txnn_fields family
  | alu op x y =>
    obtain ⟨family, decoded, rfl, rfl⟩ := h
    simpa [encode, AluOp.selector_of_decode decoded] using txyn_fields (t := 0x8) family
  | draw x y n =>
    obtain ⟨family, rfl, rfl, rfl⟩ := h
    exact txyn_fields family
  | _ x =>
    obtain ⟨⟨family, low⟩, rfl⟩ := h
    simpa [encode, low] using txnn_fields (t := 0xF) family

theorem encode_decode (w : Opcode) : (decode w).encode = w :=
  encode_of_fits (fits_decode w)

theorem decode_eq_ret {w : Opcode} (h : decode w = .ret) : w = 0x00EE := by
  rw [← encode_decode w, h]
  rfl

theorem decode_of_misc {w : Opcode} {nn : UInt8} (misc : w.IsMisc nn) :
    decode w = (decodeMisc? w.x nn).getD (.unknown w) := by
  obtain ⟨family, rfl⟩ := misc
  simp [decode, decode?, family]

theorem decode_of_not_listed (outside : w.listed = false) : decode w = .unknown w := by
  rw [decode, decode?_eq_none_iff.mpr outside]
  rfl

/-- A word fits no instruction but the one that is read from it. -/
theorem decode_of_fits (h : i.Fits w) : decode w = i := by
  cases i with
  | clear | ret =>
    subst h
    rfl
  | unknown v =>
    obtain ⟨rfl, outside⟩ := h
    exact decode_of_not_listed outside
  | skip condition =>
    cases condition with
    | equal x nn | notEqual x nn =>
      obtain ⟨family, rfl, rfl⟩ := h
      simp [decode, decode?, family]
    | sameRegister x y | otherRegister x y =>
      obtain ⟨family, low, rfl, rfl⟩ := h
      simp [decode, decode?, family, low]
    | keyHeld x | keyUp x =>
      obtain ⟨family, low, rfl⟩ := h
      simp [decode, decode?, family, low, Condition.decodeKey?]
  | alu op x y =>
    obtain ⟨family, decoded, rfl, rfl⟩ := h
    simp [decode, decode?, family, decoded]
  | jump nnn | call nnn | setIndex nnn =>
    obtain ⟨family, rfl⟩ := h
    simp [decode, decode?, family]
  | jumpOffset nnn x | load x nn | add x nn | random x nn =>
    obtain ⟨family, rfl, rfl⟩ := h
    simp [decode, decode?, family]
  | draw x y n =>
    obtain ⟨family, rfl, rfl, rfl⟩ := h
    simp [decode, decode?, family]
  | _ x =>
    obtain ⟨misc, rfl⟩ := h
    exact decode_of_misc misc

theorem decode_of_jump {w : Opcode} (family : w.family = 1) : decode w = .jump w.nnn :=
  decode_of_fits ⟨family, rfl⟩

theorem decode_of_call {w : Opcode} (family : w.family = 2) : decode w = .call w.nnn :=
  decode_of_fits ⟨family, rfl⟩

theorem decode_of_random {w : Opcode} (family : w.family = 0xC) : decode w = .random w.x w.nn :=
  decode_of_fits ⟨family, rfl, rfl⟩

theorem decode_of_draw {w : Opcode} (family : w.family = 0xD) : decode w = .draw w.x w.y w.n :=
  decode_of_fits ⟨family, rfl, rfl, rfl⟩

theorem draws_of_fits (h : i.Fits w) : i.draws = w.draws := by
  cases i with
  | clear | ret =>
    subst h
    rfl
  | unknown v =>
    obtain ⟨rfl, outside⟩ := h
    have other : v ≠ 0x00E0 := by
      rintro rfl
      contradiction
    have family : v.family ≠ 0xD := by
      intro family
      simp [Opcode.listed, family] at outside
    simp [draws, Opcode.draws, other, family]
  | skip condition =>
    cases condition <;> rw [Opcode.draws_of_family (by rw [h.1]; decide), h.1] <;> rfl
  | jump | call | setIndex | jumpOffset | load | add | random | alu | draw =>
    rw [Opcode.draws_of_family (by rw [h.1]; decide), h.1]
    rfl
  | _ =>
    rw [Opcode.draws_of_family (by rw [h.1.1]; decide), h.1.1]
    rfl

/-- The words that draw are those whose instruction draws. -/
theorem draws_decode (w : Opcode) : (decode w).draws = w.draws :=
  draws_of_fits (fits_decode w)

theorem registers_of_fits (h : i.Fits w) : ∀ x ∈ i.registers, x = w.x ∨ x = w.y := by
  cases i with
  | skip condition =>
    cases condition <;> simp_all [Fits, Condition.Fits, registers, Condition.registers]
  | _ => simp_all [Fits, registers]

theorem namesRegisters_decode (w : Opcode) : (decode w).NamesRegisters := by
  intro x named
  obtain rfl | rfl := registers_of_fits (fits_decode w) x named
  · exact w.x_lt
  · exact w.y_lt

end Instruction
end ChipEight
