import ChipEight.Screen

/-! The pixels that a sprite covers. Their numbers rise strictly from row to row, although a row may
run into the next one, so no pixel is turned over twice. Turning them over one by one, and looking at
each just before it is turned, therefore tells the same as looking at all of them beforehand. -/
namespace ChipEight.Screen

theorem covered?_eq_some {start : Nat} {row : UInt8} {j : Nat} {p : Pixel} :
    covered? start row j = some p ↔ p.val = start + j ∧ rowBit row j = true := by
  unfold covered?
  split
  · split
    · next set => simp only [Option.some.injEq, Fin.ext_iff, set, and_true, eq_comm]
    · next unset => simp [unset]
  · next off =>
    have := p.isLt
    simp only [reduceCtorEq, false_iff, not_and]
    omega

theorem covered?_of_le {start : Nat} {row : UInt8} {j : Nat} (off : 2048 ≤ start + j) :
    covered? start row j = none := by
  rw [covered?, dif_neg (Nat.not_lt.mpr off)]

/-- Behind the last pixel of the screen nothing is covered. -/
theorem covered_of_le {start : Nat} (sprite : List UInt8) (off : 2048 ≤ start) :
    covered start sprite = [] := by
  induction sprite generalizing start with
  | nil => rfl
  | cons row rest ih =>
    have none (j : Nat) : covered? start row j = none := covered?_of_le (by omega)
    have below : covered (start + width) rest = [] := ih (by omega)
    simp [covered, below, none]

theorem le_of_mem_covered {start : Nat} {sprite : List UInt8} {p : Pixel}
    (member : p ∈ covered start sprite) : start ≤ p.val := by
  induction sprite generalizing start with
  | nil => contradiction
  | cons row rest ih =>
    simp only [covered, List.mem_append, List.mem_filterMap, covered?_eq_some] at member
    rcases member with ⟨j, _, place, _⟩ | later
    · omega
    · have := ih later
      omega

theorem row_sorted (start : Nat) (row : UInt8) (js : List Nat) (sorted : js.Pairwise (· < ·)) :
    (js.filterMap (covered? start row)).Pairwise (· < ·) := by
  rw [List.pairwise_filterMap]
  refine sorted.imp ?_
  intro j k less p place q place'
  have := (covered?_eq_some.mp place).1
  have := (covered?_eq_some.mp place').1
  exact Fin.lt_def.mpr (by omega)

/-- A sprite row is narrower than the screen, so the rows cannot overlap. -/
theorem covered_sorted (start : Nat) (sprite : List UInt8) :
    (covered start sprite).Pairwise (· < ·) := by
  induction sprite generalizing start with
  | nil => exact .nil
  | cons row rest ih =>
    refine List.pairwise_append.mpr
      ⟨row_sorted start row _ List.pairwise_lt_range, ih _, ?_⟩
    intro p first q later
    simp only [List.mem_filterMap, List.mem_range, spriteWidth, covered?_eq_some] at first
    obtain ⟨j, narrow, place, _⟩ := first
    have := le_of_mem_covered later
    simp only [width] at this
    exact Fin.lt_def.mpr (by omega)

theorem covered_nodup (start : Nat) (sprite : List UInt8) : (covered start sprite).Nodup :=
  (covered_sorted start sprite).imp Fin.ne_of_lt

/-- Turns a pixel over and notes whether it was lit just before. -/
def turnOver (drawn : Screen × Bool) (p : Pixel) : Screen × Bool :=
  (drawn.1.toggle p, drawn.2 || drawn.1.isLit p)

theorem foldl_turnOver {pixels : List Pixel} (once : pixels.Nodup) (s : Screen) (erased : Bool) :
    pixels.foldl turnOver (s, erased) =
      (pixels.foldl toggle s, erased || pixels.any s.isLit) := by
  induction pixels generalizing s erased with
  | nil => simp
  | cons p rest ih =>
    obtain ⟨apart, once⟩ := List.nodup_cons.mp once
    have untouched : rest.any (s.toggle p).isLit = rest.any s.isLit := by
      rw [Bool.eq_iff_iff]
      simp only [List.any_eq_true]
      refine exists_congr fun q => and_congr_right fun member => ?_
      have other : p ≠ q := by
        rintro rfl
        exact apart member
      simp [isLit_toggle, other]
    rw [List.foldl_cons, turnOver, ih once, untouched, List.foldl_cons, List.any_cons,
      Bool.or_assoc]

/-- Drawing pixel by pixel. -/
theorem draw_eq_foldl (s : Screen) (x y : UInt8) (sprite : List UInt8) :
    s.draw x y sprite = (covered (origin x y) sprite).foldl turnOver (s, false) := by
  rw [foldl_turnOver (covered_nodup _ _)]
  simp [draw]

end ChipEight.Screen
