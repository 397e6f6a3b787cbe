import ChipEight.Fault
import ChipEight.Proofs.Text

/-! The wording of a fault tells which fault it is. A number is read back from its numeral, and what stands
around it differs from cause to cause: at the beginning for what a caller names, at the end for what keeps a
machine from being set up, since a path may hold any text. -/
namespace ChipEight

/-- A number is told by its numeral in any letters for the digits: the last one is told by the last letter, and
the others make up the numeral of the rest. -/
theorem map_toDigits_inj {f : Char → Char} {base : Nat} (two : 1 < base)
    (letters : ∀ a < base, ∀ b < base, f a.digitChar = f b.digitChar → a = b) {m n : Nat}
    (same : (Nat.toDigits base m).map f = (Nat.toDigits base n).map f) : m = n := by
  induction m using Nat.strongRecOn generalizing n with
  | ind m ih =>
    have positive : 0 < base := Nat.lt_trans Nat.zero_lt_one two
    have filled (k : Nat) : Nat.toDigits base k ≠ [] := Nat.toDigits_ne_nil
    have last := letters _ (Nat.mod_lt m positive) _ (Nat.mod_lt n positive)
    rcases Nat.lt_or_ge m base with small | large
    · rcases Nat.lt_or_ge n base with small' | large'
      · rw [Nat.toDigits_of_lt_base small, Nat.toDigits_of_lt_base small'] at same
        exact letters m small n small' (List.cons.inj same).1
      · rw [Nat.toDigits_of_lt_base small, Nat.toDigits_of_base_le two large', List.map_append] at same
        exact absurd (by simpa using congrArg List.length same) (filled (n / base))
    · rcases Nat.lt_or_ge n base with small' | large'
      · rw [Nat.toDigits_of_base_le two large, Nat.toDigits_of_lt_base small', List.map_append] at same
        exact absurd (by simpa using congrArg List.length same) (filled (m / base))
      · rw [Nat.toDigits_of_base_le two large, Nat.toDigits_of_base_le two large', List.map_append,
          List.map_append] at same
        obtain ⟨front, back⟩ := List.append_inj' same rfl
        have rest : m / base = n / base := ih _ (Nat.div_lt_self (by omega) two) front
        have digit : m % base = n % base := last (List.cons.inj back).1
        rw [← Nat.div_add_mod m base, ← Nat.div_add_mod n base, rest, digit]

theorem Hex.number_inj {m n : Nat} (same : number m = number n) : m = n := by
  refine map_toDigits_inj (by decide) (fun a ha b hb letter => ?_) (String.ofList_injective same)
  rw [← digit_eq ha, ← digit_eq hb] at letter
  exact digit_inj ha hb letter

theorem toDigits_ten_inj {m n : Nat} (same : Nat.toDigits 10 m = Nat.toDigits 10 n) : m = n := by
  have digits := congrArg (List.map id) same
  refine map_toDigits_inj (by decide) (fun a ha b hb letter => ?_) digits
  have wide : ∀ d < 10, d < 16 := fun d small => by omega
  apply Hex.digit_inj (wide a ha) (wide b hb)
  rw [Hex.digit_eq (wide a ha), Hex.digit_eq (wide b hb)]
  exact congrArg Char.toUpper letter

theorem StackFault.message_inj {a b : StackFault} (same : a.message = b.message) : a = b := by
  cases a <;> cases b <;> simp [message] at same ⊢

theorem StackFault.chipMessage_inj {a b : StackFault} (same : a.chipMessage = b.chipMessage) : a = b := by
  have wrapped (f : StackFault) : f.chipMessage = "Invalid stack state '" ++ f.message ++ "'." := rfl
  rw [wrapped, wrapped, String.append_left_inj, String.append_right_inj] at same
  exact message_inj same

theorem Violation.message_inj {a b : Violation} (same : a.message = b.message) : a = b := by
  have register (x : Nat) : message (.noRegister x) = "There is no register V" ++ Hex.number x ++ "." := rfl
  have key (k : Nat) : message (.noKey k) = "There is no key 0x" ++ Hex.number k ++ "." := rfl
  have bounds (length index : Nat) : outOfBounds length index = "index out of bounds: the len is " ++
      toString length ++ " but the index is " ++ toString index := rfl
  have row (y : Nat) : message (.noRow y) = outOfBounds 32 y := rfl
  have column (x : Nat) : message (.noColumn x) = outOfBounds 64 x := rfl
  -- The table that is left behind is told by its length.
  have rows : Nat.toDigits 10 32 = ['3', '2'] := rfl
  have columns : Nat.toDigits 10 64 = ['6', '4'] := rfl
  have chars := congrArg String.toList same
  cases a <;> cases b <;> simp [register, key, bounds, row, column, rows, columns] at chars
  case noRegister.noRegister => exact congrArg noRegister (Hex.number_inj (String.toList_injective chars))
  case noKey.noKey => exact congrArg noKey (Hex.number_inj (String.toList_injective chars))
  case noRow.noRow => exact congrArg noRow (toDigits_ten_inj chars)
  case noColumn.noColumn => exact congrArg noColumn (toDigits_ten_inj chars)

/-- The last four characters of the message, in reverse. -/
def ReadFault.ending : ReadFault → List Char
  | .notFound => [')', '2', ' ', 'r']
  | .isDirectory => [')', '1', '2', ' ']
  | .notText => ['8', '-', 'F', 'T']

def ConfigFault.ending : ConfigFault → List Char
  | .emptyRom => ['.', 'e', 't', 'u']
  | .romTooLarge _ => ['.', 'y', 'r', 'o']
  | .unreadable _ cause => cause.ending
  | .fontLength _ => ['.', 'd', 'n', 'u']
  | .zeroRate => ['.', 'd', 'n', 'o']

namespace ConfigFault

-- The wordings are named one by one: opening the definition by cases over texts so long is slow.

theorem emptyRom_message : message .emptyRom = "The rom is empty, there is nothing to execute." := rfl

theorem romTooLarge_message (length : Nat) : message (.romTooLarge length) =
    "The rom is " ++ toString length ++ " bytes long, but at most " ++ toString Layout.programRoom ++
      " bytes fit into memory." := rfl

theorem unreadable_message (path : String) (cause : ReadFault) :
    message (.unreadable path cause) = "Unable to read '" ++ path ++ "': " ++ cause.message := rfl

theorem fontLength_message (count : Nat) : message (.fontLength count) =
    "A font needs exactly 80 glyph bytes, but " ++ toString count ++ " were found." := rfl

theorem zeroRate_message :
    message .zeroRate = "The instruction rate has to be at least one per second." := rfl

theorem ending_eq (f : ConfigFault) : f.message.toList.reverse.take 4 = f.ending := by
  cases f with
  | emptyRom => simp [emptyRom_message, ending]
  | romTooLarge length => simp [romTooLarge_message, ending]
  | unreadable path cause =>
    have last : cause.message.toList.reverse.take 4 = cause.ending ∧
        4 ≤ cause.message.toList.reverse.length := by
      cases cause <;> exact ⟨rfl, by decide⟩
    rw [unreadable_message, String.toList_append, List.reverse_append, List.take_append_of_le_length last.2]
    exact last.1
  | fontLength count => simp [fontLength_message, ending]
  | zeroRate => simp [zeroRate_message, ending]

/-- The ending tells the cause; what a number or a path says is what the wording leaves free. -/
theorem message_inj {a b : ConfigFault} (same : a.message = b.message) : a = b := by
  have endings : a.ending = b.ending := by rw [← ending_eq, ← ending_eq, same]
  rcases a with _ | length | ⟨path, _ | _ | _⟩ | count | _ <;>
    rcases b with _ | length' | ⟨path', _ | _ | _⟩ | count' | _ <;>
    simp [ending, ReadFault.ending] at endings ⊢
  case romTooLarge.romTooLarge =>
    rw [romTooLarge_message, romTooLarge_message] at same
    simp only [String.append_left_inj, String.append_right_inj, Nat.toString_eq_ofList_toDigits] at same
    exact toDigits_ten_inj (String.ofList_injective same)
  case fontLength.fontLength =>
    rw [fontLength_message, fontLength_message, String.append_left_inj, String.append_right_inj,
      Nat.toString_eq_ofList_toDigits, Nat.toString_eq_ofList_toDigits] at same
    exact toDigits_ten_inj (String.ofList_injective same)
  all_goals
    rw [unreadable_message, unreadable_message, String.append_left_inj, String.append_left_inj,
      String.append_right_inj] at same
    exact same

end ConfigFault

theorem SessionFault.message_inj {a b : SessionFault} (same : a.message = b.message) : a = b := by
  have config (f : ConfigFault) : message (.config f) = "Invalid configuration: " ++ f.message := rfl
  have stack (f : StackFault) : message (.stack f) = "Execution stopped: " ++ f.chipMessage := rfl
  cases a <;> cases b <;> simp only [config, stack, String.append_right_inj] at same
  case config.config => exact congrArg SessionFault.config (ConfigFault.message_inj same)
  case stack.stack => exact congrArg SessionFault.stack (StackFault.chipMessage_inj same)
  all_goals
    have chars := congrArg String.toList same
    simp at chars

end ChipEight
