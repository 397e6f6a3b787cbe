import ChipEight.Dump
import ChipEight.Text

/-! Texts that can be read back. Lines without a line feed are the pieces of the text that they are joined
to; a word in hexadecimal is six characters wide whatever it is, so that words written one after the other
are told apart by where they stand. -/
namespace ChipEight

namespace Text

variable {separator : Char} {piece rest : List Char}

theorem split_of_not_mem (clean : separator ∉ piece) : split separator piece = [piece] := by
  induction piece with
  | nil => rfl
  | cons c cs ih =>
    obtain ⟨other, more⟩ := List.ne_and_not_mem_of_not_mem_cons clean
    rw [split, if_neg (Ne.symm other), ih more]

theorem split_append (clean : separator ∉ piece) :
    split separator (piece ++ separator :: rest) = piece :: split separator rest := by
  induction piece with
  | nil => rw [List.nil_append, split, if_pos rfl]
  | cons c cs ih =>
    obtain ⟨other, more⟩ := List.ne_and_not_mem_of_not_mem_cons clean
    rw [List.cons_append, split, if_neg (Ne.symm other), ih more]

theorem split_eq_splitOn (separator : Char) (text : List Char) :
    split separator text = text.splitOn separator := by
  induction text with
  | nil => rfl
  | cons c rest ih =>
    have filled := split_ne_nil separator rest
    unfold List.splitOn at ih ⊢
    rw [split, List.splitOnP_cons_eq_if_modifyHead, ← ih]
    by_cases here : c = separator
    · simp [here]
    · rw [if_neg here, if_neg (by simpa using here)]
      cases pieces : split separator rest with
      | nil => contradiction
      | cons piece pieces => rfl

theorem not_mem_of_mem_split {text : List Char} (among : piece ∈ split separator text) :
    separator ∉ piece := by
  induction text generalizing piece with
  | nil => simp_all [split]
  | cons c rest ih =>
    rw [split] at among
    split at among
    · rcases List.mem_cons.mp among with rfl | later
      · exact List.not_mem_nil
      · exact ih later
    · next other =>
      cases pieces : split separator rest with
      | nil => exact absurd pieces (split_ne_nil separator rest)
      | cons first more =>
        rw [pieces] at among ih
        rcases List.mem_cons.mp among with rfl | later
        · exact List.not_mem_cons_of_ne_of_not_mem (Ne.symm other) (ih List.mem_cons_self)
        · exact ih (List.mem_cons_of_mem _ later)

theorem nil_mem_split_concat (separator : Char) (front : List Char) :
    [] ∈ split separator (front ++ [separator]) := by
  have pieces := List.splitOnP_append_cons (p := (· == separator)) front [] (beq_self_eq_true separator)
  rw [split_eq_splitOn, List.splitOn, pieces]
  simp

/-- A line without a line feed. -/
def Plain (line : String) : Prop := '\n' ∉ line.toList

instance (line : String) : Decidable (Plain line) := inferInstanceAs (Decidable (_ ∉ _))

theorem Plain.append {a b : String} (first : Plain a) (second : Plain b) : Plain (a ++ b) := by
  rw [Plain, String.toList_append, List.mem_append, not_or]
  exact ⟨first, second⟩

theorem unlines_cons {line : String} {rest : List String} (more : rest ≠ []) :
    unlines (line :: rest) = line ++ "\n" ++ unlines rest := by
  cases rest with
  | nil => contradiction
  | cons next rest => rfl

/-- Cutting at the line feeds gives the lines back. -/
theorem split_unlines {lines : List String} (filled : lines ≠ [])
    (plain : ∀ line ∈ lines, Plain line) :
    split '\n' (unlines lines).toList = lines.map String.toList := by
  induction lines with
  | nil => contradiction
  | cons line rest ih =>
    have first : '\n' ∉ line.toList := plain line List.mem_cons_self
    by_cases last : rest = []
    · rw [last]
      exact split_of_not_mem first
    · have text : (unlines (line :: rest)).toList =
          line.toList ++ '\n' :: (unlines rest).toList := by
        simp [unlines_cons last]
      rw [text, split_append first, ih last fun l member => plain l (List.mem_cons_of_mem _ member)]
      rfl

theorem unlines_inj {lines lines' : List String} (filled : lines ≠ []) (filled' : lines' ≠ [])
    (plain : ∀ line ∈ lines, Plain line) (plain' : ∀ line ∈ lines', Plain line)
    (same : unlines lines = unlines lines') : lines = lines' := by
  have pieces : lines.map String.toList = lines'.map String.toList := by
    rw [← split_unlines filled plain, ← split_unlines filled' plain', same]
  exact (List.map_inj_right fun _ _ same => String.toList_inj.mp same).mp pieces

theorem unlines_append {lines more : List String} (filled : lines ≠ []) (filled' : more ≠ []) :
    unlines (lines ++ more) = unlines lines ++ "\n" ++ unlines more := by
  induction lines with
  | nil => contradiction
  | cons line rest ih =>
    by_cases last : rest = []
    · rw [last]
      exact unlines_cons filled'
    · rw [List.cons_append, unlines_cons (by simp [last]), ih last, unlines_cons last]
      simp only [String.append_assoc]

/-- Whatever the lines in front are, they are the same text. -/
theorem unlines_append_inj {front lines lines' : List String} (filled : lines ≠ [])
    (filled' : lines' ≠ []) (same : unlines (front ++ lines) = unlines (front ++ lines')) :
    unlines lines = unlines lines' := by
  induction front with
  | nil => exact same
  | cons line rest ih =>
    have more {l : List String} (filled : l ≠ []) : rest ++ l ≠ [] := by simp [filled]
    rw [List.cons_append, List.cons_append, unlines_cons (more filled), unlines_cons (more filled'),
      String.append_right_inj] at same
    exact ih same

end Text

namespace Hex

theorem digit_inj {a b : Nat} (ha : a < 16) (hb : b < 16) (same : digit a = digit b) : a = b := by
  have all : ∀ a b : Fin 16, digit a = digit b → a = b := by decide
  exact congrArg Fin.val (all ⟨a, ha⟩ ⟨b, hb⟩ same)

theorem digit_ne_feed {a : Nat} (ha : a < 16) : digit a ≠ '\n' := by
  have all : ∀ a : Fin 16, digit a ≠ '\n' := by decide
  exact all ⟨a, ha⟩

theorem digits_inj {w u : UInt16} (same : digits w = digits u) : w = u := by
  have hw := w.toNat_lt
  have hu := u.toNat_lt
  simp only [digits, List.cons.injEq, and_true] at same
  obtain ⟨first, second, third, fourth⟩ := same
  have first := digit_inj (by omega) (by omega) first
  have second := digit_inj (by omega) (by omega) second
  have third := digit_inj (by omega) (by omega) third
  have fourth := digit_inj (by omega) (by omega) fourth
  apply UInt16.toNat_inj.mp
  omega

theorem toList_word (w : UInt16) : (word w).toList = '0' :: 'x' :: digits w := by
  simp [word]

theorem length_word (w : UInt16) : (word w).toList.length = 6 := by
  simp [toList_word, digits]

theorem digit_eq {d : Nat} (small : d < 16) : digit d = d.digitChar.toUpper := by
  have all : ∀ d : Fin 16, digit d = d.val.digitChar.toUpper := by decide
  exact all ⟨d, small⟩

/-- The numeral of a number, in capitals and with zeros in front of it if it is shorter than `width`. -/
def padded (width value : Nat) : List Char :=
  ((Nat.toDigits 16 value).map Char.toUpper).leftpad width '0'

/-- The last digit of a numeral comes off, and the others are the numeral of the sixteenth part. -/
theorem padded_succ {width : Nat} (wide : 0 < width) (value : Nat) :
    padded (width + 1) value = padded width (value / 16) ++ [digit (value % 16)] := by
  have last := digit_eq (Nat.mod_lt value (show 0 < 16 by decide))
  unfold padded List.leftpad
  by_cases short : value < 16
  · have none : value / 16 = 0 := Nat.div_eq_of_lt short
    have zeros : List.replicate width '0' = List.replicate (width - 1) '0' ++ ['0'] := by
      rw [← List.replicate_succ', Nat.sub_add_cancel wide]
    rw [last, none, Nat.mod_eq_of_lt short, Nat.toDigits_of_lt_base short]
    simp [zeros]
  · rw [last, Nat.toDigits_of_base_le (by decide) (Nat.le_of_not_lt short)]
    simp

theorem padded_one {value : Nat} (small : value < 16) : padded 1 value = [digit value] := by
  rw [digit_eq small, padded, Nat.toDigits_of_lt_base small]
  rfl

/-- A word is printed as its numeral of four digits. -/
theorem digits_eq_padded (w : UInt16) : digits w = padded 4 w.toNat := by
  have bound := w.toNat_lt
  rw [padded_succ (by decide), padded_succ (by decide), padded_succ (by decide),
    padded_one (by omega)]
  simp only [Nat.div_div_eq_div_mul]
  rfl

/-- A word as it is printed. -/
def numeral (value : Nat) : List Char := '0' :: 'x' :: padded 4 value

theorem toList_word_eq (w : UInt16) : (word w).toList = numeral w.toNat := by
  rw [toList_word, digits_eq_padded]
  rfl

theorem word_inj {w u : UInt16} (same : word w = word u) : w = u := by
  have chars := congrArg String.toList same
  rw [toList_word, toList_word] at chars
  exact digits_inj (List.cons.inj (List.cons.inj chars).2).2

theorem plain_word (w : UInt16) : Text.Plain (word w) := by
  have bound := w.toNat_lt
  have clean {a : Nat} (ha : a < 16) : '\n' ≠ digit a := (digit_ne_feed ha).symm
  rw [Text.Plain, toList_word, digits]
  simp only [List.mem_cons, List.not_mem_nil, or_false, not_or]
  exact ⟨by decide, by decide, clean (by omega), clean (by omega), clean (by omega), clean (by omega)⟩

end Hex

namespace Dump

theorem toList_range (first last : Nat) : (range first last).toList =
    (Hex.word (UInt16.ofNat first)).toList ++
      (" - ".toList ++ ((Hex.word (UInt16.ofNat last)).toList ++ " :".toList)) := by
  simp [range]

/-- The range of a row as it is printed. -/
def span (first last : Nat) : List Char :=
  Hex.numeral first ++ " - ".toList ++ Hex.numeral last ++ " :".toList

theorem toList_range_eq {first last : Nat} (small : first < 0x10000) (small' : last < 0x10000) :
    (range first last).toList = span first last := by
  have low : (UInt16.ofNat first).toNat = first := UInt16.toNat_ofNat_of_lt' small
  have high : (UInt16.ofNat last).toNat = last := UInt16.toNat_ofNat_of_lt' small'
  rw [toList_range, Hex.toList_word_eq, Hex.toList_word_eq, low, high]
  simp only [span, List.append_assoc]

theorem length_range (first last : Nat) : (range first last).toList.length = 17 := by
  simp [toList_range, Hex.length_word]

theorem range_inj {first last first' last' : Nat} (small : last < 0x10000) (small' : last' < 0x10000)
    (ordered : first ≤ last) (ordered' : first' ≤ last')
    (same : range first last = range first' last') : first = first' ∧ last = last' := by
  have chars := congrArg String.toList same
  rw [toList_range, toList_range] at chars
  obtain ⟨from_same, chars⟩ := List.append_inj chars (by simp [Hex.length_word])
  obtain ⟨to_same, -⟩ := List.append_inj (List.append_cancel_left chars) (by simp [Hex.length_word])
  have from_eq := congrArg UInt16.toNat (Hex.word_inj (String.toList_inj.mp from_same))
  have to_eq := congrArg UInt16.toNat (Hex.word_inj (String.toList_inj.mp to_same))
  simp only [UInt16.toNat_ofNat'] at from_eq to_eq
  omega

theorem plain_range (first last : Nat) : Text.Plain (range first last) := by
  have dash : Text.Plain " - " := by decide
  have colon : Text.Plain " :" := by decide
  exact (((Hex.plain_word _).append dash).append (Hex.plain_word _)).append colon

theorem toList_entries_cons (w : UInt16) (ws : List UInt16) :
    (entries (w :: ws)).toList = ' ' :: ((Hex.word w).toList ++ (entries ws).toList) := by
  simp [entries]

theorem toList_entries (ws : List UInt16) :
    (entries ws).toList = ws.flatMap fun w => ' ' :: Hex.numeral w.toNat := by
  induction ws with
  | nil => rfl
  | cons w ws ih =>
    rw [toList_entries_cons, Hex.toList_word_eq, ih]
    rfl

theorem entries_inj {ws us : List UInt16} (length : ws.length = us.length)
    (same : entries ws = entries us) : ws = us := by
  induction ws generalizing us with
  | nil => exact (List.eq_nil_of_length_eq_zero length.symm).symm
  | cons w ws ih =>
    cases us with
    | nil => contradiction
    | cons u us =>
      have chars := congrArg String.toList same
      rw [toList_entries_cons, toList_entries_cons] at chars
      obtain ⟨first, rest⟩ := List.append_inj (List.cons.inj chars).2 (by simp [Hex.length_word])
      rw [Hex.word_inj (String.toList_inj.mp first),
        ih (Nat.succ.inj length) (String.toList_inj.mp rest)]

theorem length_entries (ws : List UInt16) : (entries ws).toList.length = 7 * ws.length := by
  induction ws with
  | nil => rfl
  | cons w ws ih =>
    rw [toList_entries_cons, List.length_cons, List.length_append, Hex.length_word, ih, List.length_cons]
    omega

theorem plain_entries (ws : List UInt16) : Text.Plain (entries ws) := by
  induction ws with
  | nil => decide
  | cons w ws ih =>
    have space : Text.Plain " " := by decide
    exact (space.append (Hex.plain_word w)).append ih

end Dump
end ChipEight
