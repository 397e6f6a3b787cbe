import ChipEight.Proofs.Font.Grammar

/-! Reading a font the way a machine does. Lines are taken as text files have them; in a line every `0b` is
tried from left to right, with a window of eight bytes behind it that may run out of the line or into the
middle of a character; the rows go into a table of fixed size that keeps counting when it is full. This
reading gives what the reader by recursion gives, and so decides the grammar. -/
namespace ChipEight.Font

namespace Search

/-- A line without the carriage return that belonged to its end. -/
def trim (line : List Char) : List Char :=
  if line.getLast? = some '\r' then line.dropLast else line

/-- The lines of a text file. The last one counts only if there is something in it. -/
def lines (text : List Char) : List (List Char) :=
  let pieces := Text.split '\n' text
  pieces.dropLast.map trim ++ pieces.getLast?.toList.filter (· ≠ [])

/-- What stands behind each `0b`, from left to right. -/
def tails : List Char → List (List Char)
  | '0' :: 'b' :: rest => rest :: tails rest
  | _ :: rest => tails rest
  | [] => []

/-- The first so many bytes of the text, unless it ends before or the cut falls inside a character. -/
def window : Nat → List Char → Option (List Char)
  | 0, _ => some []
  | _ + 1, [] => none
  | n + 1, c :: rest =>
    if c.utf8Size ≤ n + 1 then (window (n + 1 - c.utf8Size) rest).map (c :: ·) else none

def isBitByte (b : UInt8) : Bool := b = 48 || b = 49

/-- One more binary digit to a byte, as long as it fits. -/
def push? (value : UInt8) (c : Char) : Option UInt8 :=
  let sum := 2 * value.toNat + (c.toNat - '0'.toNat)
  if sum < 256 then some (UInt8.ofNat sum) else none

/-- The row directly at the start of the text, without its `0b`. -/
def read? (text : List Char) : Option UInt8 := do
  let digits ← window 8 text
  if (digits.flatMap String.utf8EncodeChar).all isBitByte then digits.foldlM push? 0 else none

def row? (line : List Char) : Option UInt8 := (tails line).findSome? read?

/-- The rows found so far: a table of the size of a font, and their number. -/
structure Table where
  rows : Vector UInt8 80
  count : Nat

/-- Rows that the table has no room for are counted and not kept. -/
def Table.add (t : Table) (row : UInt8) : Table :=
  ⟨if h : t.count < 80 then t.rows.set t.count row else t.rows, t.count + 1⟩

def Table.addLine (t : Table) (line : List Char) : Table :=
  match row? line with
  | some row => t.add row
  | none => t

def parse (text : String) : Except ConfigFault Font :=
  let t := (lines text.toList).foldl Table.addLine ⟨Vector.replicate _ 0, 0⟩
  if t.count ≠ 80 then .error (.fontLength t.count) else .ok ⟨t.rows⟩

variable {c : Char} {before digits text line : List Char} {row : UInt8}

/-! ### A window -/

theorem utf8Size_of_bit (bit : IsBit c) : c.utf8Size = 1 := by
  rcases bit with rfl | rfl <;> rfl

theorem isBitByte_ofNat {n : Nat} :
    isBitByte (UInt8.ofNat n) = true ↔ n % 256 = 48 ∨ n % 256 = 49 := by
  simp [isBitByte, ← UInt8.toNat_inj]

/-- The bytes of a character look like bits only if the character is one. -/
theorem all_isBitByte_iff : (String.utf8EncodeChar c).all isBitByte = true ↔ IsBit c := by
  constructor
  · intro all
    have code : c.toNat = 48 ∨ c.toNat = 49 := by
      change c.val.toNat = 48 ∨ c.val.toNat = 49
      unfold String.utf8EncodeChar at all
      -- The bytes behind the first have their high bit set, and so has the first if there are more.
      dsimp only at all
      split_ifs at all
      all_goals
        simp only [List.all_cons, Bool.and_eq_true, isBitByte_ofNat] at all
        omega
    rcases code with zero | one
    · exact .inl (Char.toNat_inj.mp zero)
    · exact .inr (Char.toNat_inj.mp one)
  · rintro (rfl | rfl) <;> rfl

theorem window_of_bits (bits : ∀ d ∈ digits, IsBit d) (rest : List Char) :
    window digits.length (digits ++ rest) = some digits := by
  induction digits with
  | nil => rw [List.length_nil, window]
  | cons d digits ih =>
    obtain ⟨bit, bits⟩ := List.forall_mem_cons.mp bits
    simp [window, utf8Size_of_bit bit, ih bits]

theorem window_prefix {n : Nat} (cut : window n text = some digits) : digits <+: text := by
  fun_induction window n text generalizing digits with
  | case1 text =>
    cases cut
    exact List.nil_prefix
  | case2 n => contradiction
  | case3 n c rest fits ih =>
    obtain ⟨later, shorter, rfl⟩ := Option.map_eq_some_iff.mp cut
    exact List.cons_prefix_cons.mpr ⟨rfl, ih shorter⟩
  | case4 n c rest long => contradiction

theorem length_window {n : Nat} (cut : window n text = some digits)
    (bits : ∀ d ∈ digits, IsBit d) : digits.length = n := by
  fun_induction window n text generalizing digits with
  | case1 text =>
    cases cut
    rfl
  | case2 n => contradiction
  | case3 n c rest fits ih =>
    obtain ⟨later, shorter, rfl⟩ := Option.map_eq_some_iff.mp cut
    obtain ⟨bit, bits⟩ := List.forall_mem_cons.mp bits
    have length := ih shorter bits
    rw [utf8Size_of_bit bit] at length
    exact congrArg (· + 1) length
  | case4 n c rest long => contradiction

theorem le_ofDigitChars (digits : List Char) (value : Nat) :
    value ≤ Nat.ofDigitChars 2 digits value := by
  induction digits generalizing value with
  | nil => exact Nat.le_refl _
  | cons d rest ih =>
    have more : value ≤ 2 * value + (d.toNat - '0'.toNat) := by omega
    exact Nat.le_trans more (ih _)

/-- A number that fits in the end fits at every digit on the way. -/
theorem foldlM_push? (value : UInt8) (fits : Nat.ofDigitChars 2 digits value.toNat < 256) :
    digits.foldlM push? value = some (UInt8.ofNat (Nat.ofDigitChars 2 digits value.toNat)) := by
  induction digits generalizing value with
  | nil => simp [Nat.ofDigitChars]
  | cons d rest ih =>
    have small : 2 * value.toNat + (d.toNat - '0'.toNat) < 256 :=
      Nat.lt_of_le_of_lt (le_ofDigitChars rest _) fits
    have pushed : push? value d = some (UInt8.ofNat (2 * value.toNat + (d.toNat - '0'.toNat))) :=
      if_pos small
    have exact : (UInt8.ofNat (2 * value.toNat + (d.toNat - '0'.toNat))).toNat =
        2 * value.toNat + (d.toNat - '0'.toNat) := UInt8.toNat_ofNat_of_lt' small
    have later := ih (UInt8.ofNat (2 * value.toNat + (d.toNat - '0'.toNat)))
    rw [exact] at later
    rw [List.foldlM_cons, pushed]
    exact later fits

/-- The row of a window is the number that its eight bits spell. -/
theorem read?_eq_some_iff : read? text = some row ↔
    ∃ digits, digits <+: text ∧ digits.length = 8 ∧ (∀ d ∈ digits, IsBit d) ∧
      row = UInt8.ofNat (Nat.ofDigitChars 2 digits 0) := by
  have number {digits : List Char} (eight : digits.length = 8) (bits : ∀ d ∈ digits, IsBit d) :
      digits.foldlM push? 0 = some (UInt8.ofNat (Nat.ofDigitChars 2 digits 0)) := by
    have small := ofDigitChars_lt bits 0
    rw [eight] at small
    exact foldlM_push? 0 small
  have all_iff (digits : List Char) :
      (digits.flatMap String.utf8EncodeChar).all isBitByte = true ↔ ∀ d ∈ digits, IsBit d := by
    simp only [List.all_flatMap, List.all_eq_true (p := fun d => (String.utf8EncodeChar d).all isBitByte),
      all_isBitByte_iff]
  unfold read?
  constructor
  · intro read
    obtain ⟨digits, cut, read⟩ := Option.bind_eq_some_iff.mp read
    split at read
    · next all =>
      have bits := (all_iff digits).mp all
      have eight := length_window cut bits
      rw [number eight bits] at read
      cases read
      exact ⟨digits, window_prefix cut, eight, bits, rfl⟩
    · contradiction
  · rintro ⟨digits, ⟨rest, rfl⟩, eight, bits, rfl⟩
    have cut := window_of_bits bits rest
    rw [eight] at cut
    rw [cut, Option.bind_eq_bind, Option.bind_some, if_pos ((all_iff digits).mpr bits), number eight bits]

theorem read?_eq (text : List Char) : read? text = (binary? 8 0 text).map UInt8.ofNat := by
  apply Option.ext
  intro row
  rw [read?_eq_some_iff, Option.map_eq_some_iff]
  simp only [binary?_eq_some_iff]
  constructor
  · rintro ⟨digits, text, eight, bits, rfl⟩
    exact ⟨_, ⟨digits, text, eight, bits, rfl⟩, rfl⟩
  · rintro ⟨_, ⟨digits, text, eight, bits, rfl⟩, rfl⟩
    exact ⟨digits, text, eight, bits, rfl⟩

/-! ### A line -/

theorem row?_eq (line : List Char) : row? line = Font.row? line := by
  unfold row?
  fun_induction tails line with
  | case1 rest ih =>
    -- No glyph starts with the letter.
    have skip : Font.row? ('b' :: rest) = Font.row? rest := rfl
    have first : rowAt? ('0' :: 'b' :: rest) = read? rest := (read?_eq rest).symm
    rw [Font.row?, first, skip, List.findSome?_cons, ih]
    cases read? rest <;> rfl
  | case2 c rest other ih =>
    have missing : rowAt? (c :: rest) = none := by
      unfold rowAt?
      split
      · next text same =>
        obtain ⟨rfl, rfl⟩ := List.cons.inj same
        exact absurd rfl (other text rfl)
      · rfl
    rw [Font.row?, missing, Option.none_or, ih]
  | case3 => rfl

/-! ### The lines -/

theorem glyph_append_return : Glyph (line ++ ['\r']) before digits ↔ Glyph line before digits := by
  constructor
  · intro glyph
    refine ⟨?_, glyph.eight, glyph.bits⟩
    rcases List.prefix_concat_iff.mp glyph.text with whole | within
    · -- The last digit would be the carriage return.
      have filled : digits ≠ [] := List.ne_nil_of_length_eq_add_one glyph.eight
      have last : digits.getLast filled = '\r' := by
        have ends := congrArg List.getLast? whole
        simpa [List.getLast?_eq_some_getLast filled, List.getLast?_cons] using ends
      have bit := glyph.bits _ (List.getLast_mem filled)
      rw [last] at bit
      rcases bit with zero | one <;> contradiction
    · exact within
  · intro glyph
    exact ⟨glyph.text.trans (List.prefix_append line _), glyph.eight, glyph.bits⟩

theorem row?_append_return (line : List Char) : Font.row? (line ++ ['\r']) = Font.row? line := by
  apply Option.ext
  intro row
  simp only [row?_eq_some_iff, Spells, glyph_append_return]

theorem row?_trim (line : List Char) : Font.row? (trim line) = Font.row? line := by
  unfold trim
  split
  · next last =>
    have whole : line.dropLast ++ ['\r'] = line := List.dropLast_append_getLast? _ last
    rw [← row?_append_return, whole]
  · rfl

/-- Line ends and what is behind the last of them spell nothing. -/
theorem filterMap_lines (text : List Char) : (lines text).filterMap Font.row? = rowsOf text := by
  have whole : (Text.split '\n' text).dropLast ++ (Text.split '\n' text).getLast?.toList =
      Text.split '\n' text := by
    rcases List.eq_nil_or_concat (Text.split '\n' text) with none | ⟨front, last, pieces⟩
    · rw [none]
      rfl
    · simp [pieces]
  have empty (pieces : List (List Char)) :
      (pieces.filter (· ≠ [])).filterMap Font.row? = pieces.filterMap Font.row? := by
    rw [List.filterMap_filter]
    apply List.filterMap_congr
    intro piece _
    by_cases blank : piece = []
    · rw [blank]
      rfl
    · simp [blank]
  have trimmed (pieces : List (List Char)) :
      (pieces.map trim).filterMap Font.row? = pieces.filterMap Font.row? := by
    rw [List.filterMap_map]
    exact List.filterMap_congr fun piece _ => row?_trim piece
  unfold lines rowsOf
  rw [List.filterMap_append, trimmed, empty, ← List.filterMap_append, whole]

/-! ### The table -/

/-- The table has counted the rows and keeps those that it has room for. -/
structure Table.Holds (t : Table) (found : List UInt8) : Prop where
  count : t.count = found.length
  rows {k : Nat} (room : k < 80) (counted : k < found.length) : t.rows[k] = found[k]

theorem Table.Holds.add {t : Table} {found : List UInt8} (h : t.Holds found) (row : UInt8) :
    (t.add row).Holds (found ++ [row]) where
  count := by
    rw [Table.add, List.length_append, h.count]
    rfl
  rows {k} room counted := by
    rw [List.length_append, List.length_singleton, ← h.count] at counted
    by_cases latest : k = t.count
    · subst latest
      have kept : (t.add row).rows = t.rows.set t.count row := dif_pos room
      simp [kept, h.count]
    · have earlier : k < found.length := by
        rw [← h.count]
        omega
      rw [List.getElem_append_left earlier, ← h.rows room earlier]
      unfold Table.add
      split
      · next place => exact Vector.getElem_set_ne place room (Ne.symm latest)
      · rfl

theorem Table.Holds.foldl {t : Table} {found : List UInt8} (h : t.Holds found) (more : List UInt8) :
    (more.foldl Table.add t).Holds (found ++ more) := by
  induction more generalizing t found with
  | nil => simpa using h
  | cons row rest ih => simpa using ih (h.add row)

theorem foldl_addLine (lines : List (List Char)) (t : Table) :
    lines.foldl Table.addLine t = (lines.filterMap Font.row?).foldl Table.add t := by
  rw [List.foldl_filterMap]
  congr 1
  funext t line
  rw [Table.addLine, row?_eq]
  cases Font.row? line <;> rfl

/-- The reading of a machine is the reading by recursion. -/
theorem parse_eq (text : String) : parse text = Font.parse text := by
  have empty : Table.Holds ⟨Vector.replicate _ 0, 0⟩ [] := ⟨rfl, nofun⟩
  have filled := empty.foldl (rowsOf text.toList)
  rw [List.nil_append, ← filterMap_lines, ← foldl_addLine, filterMap_lines] at filled
  unfold parse Font.parse
  dsimp only
  rw [filled.count]
  by_cases full : (rowsOf text.toList).length = 80
  · rw [if_neg (not_not.mpr full), dif_pos full]
    refine congrArg (fun rows => Except.ok (Font.mk rows)) (Vector.ext fun k room => ?_)
    exact filled.rows room (full ▸ room)
  · rw [if_pos full, dif_neg full]

end Search

/-! ### The text -/

/-- The grammar of fonts. A text is a font exactly if it has eighty glyph lines, row `k` being what the
leftmost glyph of the `k`-th of them spells; any other number is the fault that is reported. Searching with
byte windows and a table of fixed size comes to the same. -/
theorem parse_grammar (text : String) :
    Search.parse text = parse text ∧
    (∀ font, parse text = .ok font ↔
      ∃ eighty : (glyphLines text).length = 80, ∀ k : Fin 80,
        Spells (glyphLines text)[k] font.rows[k]) ∧
    (∀ fault, parse text = .error fault ↔
      (glyphLines text).length ≠ 80 ∧ fault = .fontLength (glyphLines text).length) := by
  have counted : (rowsOf text.toList).length = (glyphLines text).length :=
    (spells_rowsOf text).length_eq.symm
  refine ⟨Search.parse_eq text, ?_, ?_⟩
  · intro font
    have size : font.rows.toList.length = 80 := font.rows.length_toList
    rw [parse_eq_ok_iff, rowsOf_eq_iff, List.forall₂_iff_get]
    constructor
    · rintro ⟨same, spelled⟩
      have eighty := same.trans size
      exact ⟨eighty, fun k => spelled k (by omega) (by omega)⟩
    · rintro ⟨eighty, spelled⟩
      exact ⟨eighty.trans size.symm, fun k place _ => spelled ⟨k, by omega⟩⟩
  · intro fault
    rw [parse_eq_error_iff, counted]

end ChipEight.Font
