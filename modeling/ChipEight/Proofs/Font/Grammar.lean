import ChipEight.Font
import ChipEight.Proofs.Text
import Mathlib.Algebra.Group.Nat.Defs
import Mathlib.Data.List.Forall2

/-! The grammar of a font text, as a relation between a line and what it spells. A glyph may stand anywhere
in its line, whatever is in front of it and behind it; the leftmost one counts. The reader by recursion
over the line decides this relation: it gives a row exactly if the line spells that row, and none exactly if
there is no glyph in the line. -/
namespace ChipEight.Font

def IsBit (c : Char) : Prop := c = '0' ∨ c = '1'

/-- In the line stand `0b` and eight binary digits directly behind it, with `before` in front of them. -/
structure Glyph (line before digits : List Char) : Prop where
  text : before ++ '0' :: 'b' :: digits <+: line
  eight : digits.length = 8
  bits : ∀ d ∈ digits, IsBit d

def GlyphLine (line : List Char) : Prop := ∃ before digits, Glyph line before digits

/-- The digits of the leftmost glyph in the line are the row in base two. -/
def Spells (line : List Char) (row : UInt8) : Prop :=
  ∃ before digits, Glyph line before digits ∧
    (∀ earlier other, Glyph line earlier other → before.length ≤ earlier.length) ∧
    row.toNat = Nat.ofDigitChars 2 digits 0

variable {line before digits : List Char} {c : Char} {row : UInt8}

theorem not_glyph_nil : ¬Glyph [] before digits := by
  intro glyph
  have long := glyph.text.length_le
  simp at long

theorem glyph_cons_iff {first : Char} :
    Glyph (c :: line) (first :: before) digits ↔ first = c ∧ Glyph line before digits := by
  constructor
  · intro glyph
    obtain ⟨same, text⟩ := List.cons_prefix_cons.mp glyph.text
    exact ⟨same, text, glyph.eight, glyph.bits⟩
  · rintro ⟨rfl, glyph⟩
    exact ⟨List.cons_prefix_cons.mpr ⟨rfl, glyph.text⟩, glyph.eight, glyph.bits⟩

theorem ofDigitChars_lt (bits : ∀ d ∈ digits, IsBit d) (value : Nat) :
    Nat.ofDigitChars 2 digits value < 2 ^ digits.length * (value + 1) := by
  induction digits generalizing value with
  | nil => simp [Nat.ofDigitChars]
  | cons d rest ih =>
    obtain ⟨first, later⟩ := List.forall_mem_cons.mp bits
    have small : d.toNat - '0'.toNat ≤ 1 := by
      rcases first with rfl | rfl <;> decide
    have step : 2 * value + (d.toNat - '0'.toNat) + 1 ≤ 2 * (value + 1) := by omega
    calc Nat.ofDigitChars 2 (d :: rest) value
        = Nat.ofDigitChars 2 rest (2 * value + (d.toNat - '0'.toNat)) := rfl
      _ < 2 ^ rest.length * (2 * value + (d.toNat - '0'.toNat) + 1) := ih later _
      _ ≤ 2 ^ rest.length * (2 * (value + 1)) := Nat.mul_le_mul_left _ step
      _ = 2 ^ (d :: rest).length * (value + 1) := by
        rw [List.length_cons, Nat.pow_succ, Nat.mul_assoc]

theorem binary?_of_bit (bit : IsBit c) (count value : Nat) (rest : List Char) :
    binary? (count + 1) value (c :: rest) =
      binary? count (2 * value + (c.toNat - '0'.toNat)) rest := by
  rcases bit with rfl | rfl <;> rfl

theorem binary?_of_not_bit (other : ¬IsBit c) (count value : Nat) (rest : List Char) :
    binary? (count + 1) value (c :: rest) = none := by
  obtain ⟨zero, one⟩ := not_or.mp other
  unfold binary?
  split <;> simp_all

/-- Reading bits one by one reads a stretch of as many bits as are asked for. -/
theorem binary?_eq_some_iff {count value number : Nat} {text : List Char} :
    binary? count value text = some number ↔
      ∃ digits, digits <+: text ∧ digits.length = count ∧ (∀ d ∈ digits, IsBit d) ∧
        number = Nat.ofDigitChars 2 digits value := by
  induction count generalizing value text with
  | zero =>
    constructor
    · intro read
      cases read
      exact ⟨[], List.nil_prefix, rfl, nofun, rfl⟩
    · rintro ⟨digits, -, empty, -, rfl⟩
      rw [List.eq_nil_of_length_eq_zero empty]
      rfl
  | succ count ih =>
    cases text with
    | nil =>
      constructor
      · intro read
        contradiction
      · rintro ⟨digits, text, length, -⟩
        simp [List.prefix_nil.mp text] at length
    | cons c rest =>
      by_cases bit : IsBit c
      · rw [binary?_of_bit bit, ih]
        constructor
        · rintro ⟨digits, text, length, bits, rfl⟩
          exact ⟨c :: digits, List.cons_prefix_cons.mpr ⟨rfl, text⟩, congrArg (· + 1) length,
            List.forall_mem_cons.mpr ⟨bit, bits⟩, rfl⟩
        · rintro ⟨digits, text, length, bits, rfl⟩
          obtain ⟨d, digits, rfl⟩ := List.exists_cons_of_length_eq_add_one length
          obtain ⟨rfl, behind⟩ := List.cons_prefix_cons.mp text
          exact ⟨digits, behind, Nat.succ.inj length, (List.forall_mem_cons.mp bits).2, rfl⟩
      · rw [binary?_of_not_bit bit]
        constructor
        · intro read
          contradiction
        · rintro ⟨digits, text, length, bits, -⟩
          obtain ⟨d, digits, rfl⟩ := List.exists_cons_of_length_eq_add_one length
          obtain ⟨rfl, -⟩ := List.cons_prefix_cons.mp text
          exact absurd (bits d List.mem_cons_self) bit

/-- A glyph at the very start of the line. -/
theorem rowAt?_eq_some_iff :
    rowAt? line = some row ↔ ∃ digits, Glyph line [] digits ∧ row.toNat = Nat.ofDigitChars 2 digits 0 := by
  constructor
  · intro read
    unfold rowAt? at read
    split at read
    · obtain ⟨number, spelled, rfl⟩ := Option.map_eq_some_iff.mp read
      obtain ⟨digits, text, eight, bits, rfl⟩ := binary?_eq_some_iff.mp spelled
      have small := ofDigitChars_lt bits 0
      rw [eight] at small
      refine ⟨digits, ⟨?_, eight, bits⟩, ?_⟩
      · exact List.cons_prefix_cons.mpr ⟨rfl, List.cons_prefix_cons.mpr ⟨rfl, text⟩⟩
      · exact UInt8.toNat_ofNat_of_lt' small
    · contradiction
  · rintro ⟨digits, ⟨⟨rest, rfl⟩, eight, bits⟩, value⟩
    have read : binary? 8 0 (digits ++ rest) = some (Nat.ofDigitChars 2 digits 0) :=
      binary?_eq_some_iff.mpr ⟨digits, List.prefix_append digits rest, eight, bits, rfl⟩
    change (binary? 8 0 (digits ++ rest)).map UInt8.ofNat = some row
    rw [read, ← value, Option.map_some, UInt8.ofNat_toNat]

theorem rowAt?_eq_none_iff : rowAt? line = none ↔ ∀ digits, ¬Glyph line [] digits := by
  constructor
  · intro missing digits glyph
    have small := ofDigitChars_lt glyph.bits 0
    rw [glyph.eight] at small
    have read := rowAt?_eq_some_iff.mpr ⟨digits, glyph, UInt8.toNat_ofNat_of_lt' small⟩
    rw [missing] at read
    contradiction
  · intro missing
    rw [Option.eq_none_iff_forall_ne_some]
    intro row read
    obtain ⟨digits, glyph, -⟩ := rowAt?_eq_some_iff.mp read
    exact missing digits glyph

/-- The first glyph from the left is found and no other. -/
theorem row?_eq_some_iff : row? line = some row ↔ Spells line row := by
  induction line with
  | nil =>
    constructor
    · intro read
      contradiction
    · rintro ⟨before, digits, glyph, -⟩
      exact absurd glyph not_glyph_nil
  | cons c rest ih =>
    rw [row?, Option.or_eq_some_iff, rowAt?_eq_none_iff, rowAt?_eq_some_iff, ih]
    constructor
    · rintro (⟨digits, glyph, value⟩ | ⟨missing, before, digits, glyph, leftmost, value⟩)
      · exact ⟨[], digits, glyph, fun _ _ _ => Nat.zero_le _, value⟩
      · refine ⟨c :: before, digits, glyph_cons_iff.mpr ⟨rfl, glyph⟩, ?_, value⟩
        intro earlier other found
        cases earlier with
        | nil => exact absurd found (missing other)
        | cons first earlier =>
          exact Nat.succ_le_succ (leftmost earlier other (glyph_cons_iff.mp found).2)
    · rintro ⟨before, digits, glyph, leftmost, value⟩
      cases before with
      | nil => exact .inl ⟨digits, glyph, value⟩
      | cons first before =>
        obtain ⟨rfl, later⟩ := glyph_cons_iff.mp glyph
        refine .inr ⟨?_, before, digits, later, ?_, value⟩
        · intro other found
          exact absurd (leftmost [] other found) (Nat.not_succ_le_zero _)
        · intro earlier other found
          exact Nat.le_of_succ_le_succ
            (leftmost (first :: earlier) other (glyph_cons_iff.mpr ⟨rfl, found⟩))

/-- A glyph that the line cuts off is passed over. -/
example : row? "; row 0b0 0b10101010x".toList = some 0xAA := by decide

theorem isSome_row?_iff : (row? line).isSome = true ↔ GlyphLine line := by
  induction line with
  | nil =>
    constructor
    · intro read
      contradiction
    · rintro ⟨before, digits, glyph⟩
      exact absurd glyph not_glyph_nil
  | cons c rest ih =>
    rw [row?, Option.isSome_or, Bool.or_eq_true, ih]
    constructor
    · rintro (found | ⟨before, digits, glyph⟩)
      · obtain ⟨row, read⟩ := Option.isSome_iff_exists.mp found
        obtain ⟨digits, glyph, -⟩ := rowAt?_eq_some_iff.mp read
        exact ⟨[], digits, glyph⟩
      · exact ⟨c :: before, digits, glyph_cons_iff.mpr ⟨rfl, glyph⟩⟩
    · rintro ⟨before, digits, glyph⟩
      cases before with
      | nil =>
        refine .inl (Option.isSome_iff_ne_none.mpr ?_)
        intro missing
        exact rowAt?_eq_none_iff.mp missing digits glyph
      | cons first before => exact .inr ⟨before, digits, (glyph_cons_iff.mp glyph).2⟩

instance : DecidablePred GlyphLine := fun _ => decidable_of_iff _ isSome_row?_iff

/-- The glyph lines of the text, in its order. -/
def glyphLines (text : String) : List (List Char) :=
  (text.toList.splitOn '\n').filter fun line => GlyphLine line

/-- One row per glyph line, and each the one that its line spells. -/
theorem spells_rowsOf (text : String) :
    List.Forall₂ Spells (glyphLines text) (rowsOf text.toList) := by
  unfold glyphLines rowsOf
  rw [← Text.split_eq_splitOn]
  induction Text.split '\n' text.toList with
  | nil => exact .nil
  | cons piece pieces ih =>
    by_cases glyph : GlyphLine piece
    · obtain ⟨row, read⟩ := Option.isSome_iff_exists.mp (isSome_row?_iff.mpr glyph)
      rw [List.filter_cons_of_pos (by simpa using glyph), List.filterMap_cons_some read]
      exact .cons (row?_eq_some_iff.mp read) ih
    · have missing : row? piece = none := by
        rw [← Option.not_isSome_iff_eq_none, isSome_row?_iff]
        exact glyph
      rw [List.filter_cons_of_neg (by simpa using glyph), List.filterMap_cons_none missing]
      exact ih

/-- A line spells one row at most. -/
theorem spells_rightUnique : Relator.RightUnique Spells := by
  intro line row other first second
  rw [← row?_eq_some_iff] at first second
  exact Option.some.inj (first.symm.trans second)

theorem rowsOf_eq_iff {text : String} {rows : List UInt8} :
    rowsOf text.toList = rows ↔ List.Forall₂ Spells (glyphLines text) rows := by
  constructor
  · rintro rfl
    exact spells_rowsOf text
  · intro spelled
    exact spells_rightUnique.forall₂ (spells_rowsOf text) spelled

theorem parse_eq_ok_iff {text : String} {font : Font} :
    parse text = .ok font ↔ rowsOf text.toList = font.rows.toList := by
  unfold parse
  dsimp only
  split
  · next full =>
    rw [Except.ok.injEq]
    constructor
    · rintro rfl
      rfl
    · intro same
      exact congrArg Font.mk (Vector.toList_inj.mp same)
  · next other =>
    constructor
    · intro refused
      contradiction
    · intro same
      rw [same, Vector.length_toList] at other
      contradiction

theorem parse_eq_error_iff {text : String} {fault : ConfigFault} :
    parse text = .error fault ↔
      (rowsOf text.toList).length ≠ 80 ∧ fault = .fontLength (rowsOf text.toList).length := by
  unfold parse
  dsimp only
  split
  · next full => simp [full]
  · next other => simp [other, eq_comm]

end ChipEight.Font
