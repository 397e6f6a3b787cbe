import ChipEight.Proofs.Guard
import Mathlib.Data.Fintype.Card

/-! What drawing does to the picture as a whole. The pixels on which the set bits of a sprite fall are
given as a set, without rows, order or early ends; drawing turns over exactly this set. Each of its
pixels is turned over once, so the number of lit pixels moves by one for each of them. -/
namespace ChipEight.Screen

/-- The pixels on which a set bit of the sprite falls. Pixels count row after row; row `i` of the
sprite begins `i` lines below its origin, and its bits go from high to low. -/
def footprint (x y : UInt8) (sprite : List UInt8) : Finset Pixel :=
  {p | ∃ (i : Fin sprite.length) (j : Fin 8),
    p.val = (y.toNat % 32 + i) * 64 + x.toNat % 64 + j ∧ sprite[i].toNat.testBit (7 - j) = true}

theorem mem_covered {start : Nat} {sprite : List UInt8} {p : Pixel} :
    p ∈ covered start sprite ↔
      ∃ (i : Fin sprite.length) (j : Fin 8),
        p.val = start + i * 64 + j ∧ rowBit sprite[i] j = true := by
  induction sprite generalizing start with
  | nil => simp [covered]
  | cons row rest ih =>
    have first : p ∈ (List.range spriteWidth).filterMap (covered? start row) ↔
        ∃ j : Fin 8, p.val = start + j ∧ rowBit row j = true := by
      simp only [List.mem_filterMap, List.mem_range, spriteWidth, covered?_eq_some, Fin.exists_iff,
        exists_prop]
    have below (i : Nat) : start + width + i * 64 = start + (i + 1) * 64 := by
      simp only [width]
      omega
    refine Iff.trans ?_ Fin.exists_fin_succ.symm
    rw [covered, List.mem_append, first, ih]
    simp [below]

theorem mem_footprint {x y : UInt8} {sprite : List UInt8} {p : Pixel} :
    p ∈ footprint x y sprite ↔ p ∈ covered (origin x y) sprite := by
  have place (i : Nat) :
      (y.toNat % 32 + i) * 64 + x.toNat % 64 = y.toNat % 32 * 64 + x.toNat % 64 + i * 64 := by
    omega
  simp only [footprint, Finset.mem_filter_univ, mem_covered, origin, rowBit, place]

theorem pixelAt_place (p : Pixel) (column : p.val % 64 < 64) (row : p.val / 64 < 32) :
    pixelAt ⟨p.val % 64, column⟩ ⟨p.val / 64, row⟩ = p := by
  apply Fin.ext
  simp only [pixelAt]
  omega

theorem lookup_place (s : Screen) (p : Pixel) :
    s.lookup (p.val % 64) (p.val / 64) = .ok (s.isLit p) := by
  have row : p.val / 64 < 32 := by omega
  have column : p.val % 64 < 64 := by omega
  rw [lookup, dif_pos row, dif_pos column, pixelAt_place]

theorem isLit_foldl_toggle {pixels : List Pixel} (once : pixels.Nodup) (s : Screen) (q : Pixel) :
    (pixels.foldl toggle s).isLit q = (s.isLit q ^^ decide (q ∈ pixels)) := by
  induction pixels generalizing s with
  | nil => simp
  | cons p rest ih =>
    obtain ⟨apart, once⟩ := List.nodup_cons.mp once
    rw [List.foldl_cons, ih once, isLit_toggle]
    by_cases here : p = q
    · subst here
      simp [apart]
    · simp [here, Ne.symm here]

theorem litCount_toggle (s : Screen) (p : Pixel) :
    (s.toggle p).litCount + 2 * (if s.isLit p then 1 else 0) = s.litCount + 1 := by
  have counted : (if s.isLit p then 1 else 0) ≤ s.litCount :=
    Vector.boole_getElem_le_countP (p := id) p.isLt
  have turned : (s.toggle p).litCount =
      s.litCount - (if s.isLit p then 1 else 0) + if !s.isLit p then 1 else 0 :=
    Vector.countP_set p.isLt
  rw [turned]
  cases lit : s.isLit p with
  | false => simp
  | true =>
    simp only [lit, if_true] at counted
    simp
    omega

/-- A pixel that is turned over once is one lit pixel more or one less, as it was before all others. -/
theorem litCount_foldl_toggle {pixels : List Pixel} (once : pixels.Nodup) (s : Screen) :
    (pixels.foldl toggle s).litCount + 2 * pixels.countP s.isLit = s.litCount + pixels.length := by
  induction pixels generalizing s with
  | nil => rfl
  | cons p rest ih =>
    obtain ⟨apart, once⟩ := List.nodup_cons.mp once
    have untouched : rest.countP (s.toggle p).isLit = rest.countP s.isLit := by
      refine List.countP_congr fun q member => ?_
      have other : p ≠ q := by
        rintro rfl
        exact apart member
      simp [isLit_toggle, other]
    have turned := s.litCount_toggle p
    have later := ih once (s.toggle p)
    rw [untouched] at later
    rw [List.foldl_cons, List.countP_cons, List.length_cons]
    omega

theorem footprint_eq (x y : UInt8) (sprite : List UInt8) :
    footprint x y sprite = (covered (origin x y) sprite).toFinset := by
  ext p
  rw [mem_footprint, List.mem_toFinset]

/-- The sprite drawing law. Drawing row by row and bit by bit, with its early ends, turns over exactly
the pixels of the footprint, pixel `p` being column `p mod 64` of row `p div 64`. It tells whether one
of them was lit, and the lit pixels become more by the footprint and fewer by twice what was lit in
it. -/
theorem draw_flips (s : Screen) (x y : UInt8) (sprite : List UInt8) :
    let T := footprint x y sprite
    let (drawn, erased) := s.draw x y sprite
    Guard.draw s x y sprite = .ok (drawn, erased) ∧
    (∀ p : Pixel, s.lookup (p.val % 64) (p.val / 64) = .ok (s.isLit p) ∧
      drawn.lookup (p.val % 64) (p.val / 64) = .ok (s.isLit p ^^ decide (p ∈ T))) ∧
    (erased = true ↔ ∃ p ∈ T, s.isLit p = true) ∧
    drawn.litCount + 2 * {p ∈ T | s.isLit p = true}.card = s.litCount + T.card := by
  have once := covered_nodup (origin x y) sprite
  refine ⟨Guard.draw_eq s x y sprite, ?_, ?_, ?_⟩
  · intro p
    have drawn := isLit_foldl_toggle once s p
    refine ⟨s.lookup_place p, ?_⟩
    rw [lookup_place, drawn]
    simp only [mem_footprint]
  · simp only [List.any_eq_true, mem_footprint]
  · rw [footprint_eq, List.toFinset_card_of_nodup once, ← List.toFinset_filter,
      List.toFinset_card_of_nodup (once.filter _), ← List.countP_eq_length_filter]
    exact litCount_foldl_toggle once s

end ChipEight.Screen
