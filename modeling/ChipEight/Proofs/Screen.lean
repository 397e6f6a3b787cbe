import ChipEight.Proofs.Overdraw
import ChipEight.Proofs.Text

/-! The picture as text: a line for every row and a character for every pixel, so that it can be read back. -/
namespace ChipEight.Screen

variable {s t : Screen}

def mark (lit : Bool) : Char := if lit then '#' else '.'

theorem length_rows (s : Screen) : s.rows.length = 32 := by simp [rows]

/-- A pixel is the entry of its column in its row. -/
theorem rows_at (s : Screen) (p : Pixel) :
    (s.rows[p.val / 64]?.bind fun row => row[p.val % 64]?) = some (s.isLit p) := by
  have row : p.val / 64 < 32 := by omega
  have column : p.val % 64 < 64 := by omega
  simp [rows, row, column, pixelAt_place]

theorem split_flatMap {lines : List (List Char)} (plain : ∀ line ∈ lines, '\n' ∉ line) :
    Text.split '\n' (lines.flatMap (· ++ ['\n'])) = lines ++ [[]] := by
  induction lines with
  | nil => rfl
  | cons line rest ih =>
    obtain ⟨first, more⟩ := List.forall_mem_cons.mp plain
    rw [List.flatMap_cons, List.append_assoc, List.singleton_append, Text.split_append first, ih more,
      List.cons_append]

/-- The lines of the text are the rows; there is one more line feed than between two of them. -/
theorem split_text (s : Screen) : Text.split '\n' s.text.toList = s.rows.map (·.map mark) ++ [[]] := by
  have plain : ∀ line ∈ s.rows.map (·.map mark), '\n' ∉ line := by
    intro line among feed
    obtain ⟨row, -, rfl⟩ := List.mem_map.mp among
    obtain ⟨lit, -, marked⟩ := List.mem_map.mp feed
    revert marked
    cases lit <;> decide
  have lines : s.text.toList = (s.rows.map (·.map mark)).flatMap (· ++ ['\n']) := by
    rw [text, String.toList_join, List.flatMap_map, List.flatMap_map]
    congr 1
    funext row
    simp [mark]
  rw [lines, split_flatMap plain]

/-- What stands at the place of a pixel. -/
theorem text_at (s : Screen) (p : Pixel) :
    ((Text.split '\n' s.text.toList)[p.val / 64]?.bind fun cells => cells[p.val % 64]?) =
      some (mark (s.isLit p)) := by
  have inside : p.val / 64 < (s.rows.map (·.map mark)).length := by
    rw [List.length_map, length_rows]
    omega
  have there := congrArg (Option.map mark) (s.rows_at p)
  rw [split_text, List.getElem?_append_left inside, List.getElem?_map]
  rw [Option.map_some, Option.map_bind] at there
  rw [← there, Option.bind_map]
  congr 1
  funext row
  exact List.getElem?_map

theorem mark_inj {a b : Bool} (same : mark a = mark b) : a = b := by
  revert same
  cases a <;> cases b <;> decide

/-- The text tells the picture. -/
theorem text_inj (same : s.text = t.text) : s = t := by
  apply ext_isLit
  intro p
  have here := text_at s p
  rw [same, text_at t p] at here
  exact mark_inj (Option.some.inj here).symm

end ChipEight.Screen
