/-! Text as lists of characters: cutting at a separator and joining lines. -/
namespace ChipEight.Text

/-- The pieces of a text between the separators; there is always one more piece than separators. -/
def split (separator : Char) : List Char → List (List Char)
  | [] => [[]]
  | c :: cs =>
    if c = separator then [] :: split separator cs
    else match split separator cs with
      | [] => [[c]]
      | piece :: rest => (c :: piece) :: rest

/-- Lines with line feeds between them and none at the end. -/
def unlines : List String → String
  | [] => ""
  | [line] => line
  | line :: rest => line ++ "\n" ++ unlines rest

theorem split_ne_nil (separator : Char) (text : List Char) : split separator text ≠ [] := by
  cases text with
  | nil => simp [split]
  | cons c cs =>
    unfold split
    split
    · simp
    · split <;> simp

end ChipEight.Text
