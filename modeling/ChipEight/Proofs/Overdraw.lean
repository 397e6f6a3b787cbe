import ChipEight.Proofs.Footprint
import ChipEight.Proofs.Writes

/-! Sprites drawn over each other. A drawing turns a fixed set of pixels over whatever the picture is, so
after a list of drawings a pixel differs exactly if it was turned over an odd number of times. The order
does not matter then, and two equal drawings are none. A second drawing of the same sprite undoes the
first and tells what the first turned on. -/
namespace ChipEight

/-- A sprite with the coordinates that its first bit is drawn at. -/
structure Drawing where
  x : UInt8
  y : UInt8
  sprite : List UInt8

namespace Drawing

/-- The picture with the sprite drawn onto it, and whether a lit pixel went out. -/
def onto (d : Drawing) (s : Screen) : Screen × Bool := s.draw d.x d.y d.sprite

def footprint (d : Drawing) : Finset Screen.Pixel := Screen.footprint d.x d.y d.sprite

/-- A set bit of the sprite falls on the screen. -/
def OnScreen (d : Drawing) : Prop :=
  ∃ (i : Fin d.sprite.length) (j : Fin 8),
    (d.y.toNat % 32 + i) * 64 + d.x.toNat % 64 + j < 2048 ∧
      d.sprite[i].toNat.testBit (7 - j) = true

theorem onScreen_iff {d : Drawing} : d.OnScreen ↔ ∃ p, p ∈ d.footprint := by
  simp only [OnScreen, footprint, Screen.footprint, Finset.mem_filter_univ]
  constructor
  · rintro ⟨i, j, inside, set⟩
    exact ⟨⟨_, inside⟩, i, j, rfl, set⟩
  · rintro ⟨p, i, j, place, set⟩
    exact ⟨i, j, place ▸ p.isLt, set⟩

theorem isLit_onto (d : Drawing) (s : Screen) (p : Screen.Pixel) :
    (d.onto s).1.isLit p = (s.isLit p ^^ decide (p ∈ d.footprint)) := by
  simp only [footprint, Screen.mem_footprint]
  exact Screen.isLit_foldl_toggle (Screen.covered_nodup _ _) s p

theorem erased_iff {d : Drawing} {s : Screen} :
    (d.onto s).2 = true ↔ ∃ p ∈ d.footprint, s.isLit p = true := by
  simp only [footprint, Screen.mem_footprint]
  exact List.any_eq_true

end Drawing

namespace Screen

variable {s t : Screen}

theorem ext_isLit (same : ∀ p, s.isLit p = t.isLit p) : s = t := by
  obtain ⟨pixels⟩ := s
  obtain ⟨other⟩ := t
  congr 1
  apply Vector.ext
  intro k inside
  exact same ⟨k, inside⟩

/-- Some pixel is dark in the first picture and lit in the second. -/
def TurnedOn (s t : Screen) : Prop := ∃ p, s.isLit p = false ∧ t.isLit p = true

instance (s t : Screen) : Decidable (TurnedOn s t) :=
  inferInstanceAs (Decidable (∃ p : Pixel, s.isLit p = false ∧ t.isLit p = true))

def drawAll (s : Screen) (drawings : List Drawing) : Screen :=
  drawings.foldl (fun s d => (d.onto s).1) s

/-- How many of the drawings turn the pixel over. -/
def turns (p : Pixel) (drawings : List Drawing) : Nat :=
  drawings.countP fun d => decide (p ∈ d.footprint)

theorem turns_cons (p : Pixel) (d : Drawing) (rest : List Drawing) :
    turns p (d :: rest) = turns p rest + if p ∈ d.footprint then 1 else 0 := by
  simp [turns, List.countP_cons]

theorem isLit_drawAll (s : Screen) (drawings : List Drawing) (p : Pixel) :
    (s.drawAll drawings).isLit p = (s.isLit p ^^ decide (turns p drawings % 2 = 1)) := by
  induction drawings generalizing s with
  | nil => simp [drawAll, turns]
  | cons d rest ih =>
    have later : ((d.onto s).1.drawAll rest).isLit p = _ := ih _
    refine later.trans ?_
    rw [d.isLit_onto, turns_cons]
    by_cases covered : p ∈ d.footprint
    · rcases Nat.mod_two_eq_zero_or_one (turns p rest) with even | odd
      · simp [covered, even, Nat.succ_mod_two_eq_one_iff.mpr even]
      · simp [covered, odd, Nat.succ_mod_two_eq_zero_iff.mpr odd]
    · simp [covered]

theorem drawAll_congr {drawings other : List Drawing}
    (same : ∀ p, turns p drawings % 2 = turns p other % 2) (s : Screen) :
    s.drawAll drawings = s.drawAll other := by
  apply ext_isLit
  intro p
  rw [isLit_drawAll, isLit_drawAll, same]

theorem drawAll_perm {drawings other : List Drawing} (perm : drawings.Perm other) (s : Screen) :
    s.drawAll drawings = s.drawAll other :=
  drawAll_congr (fun p => by rw [turns, turns, perm.countP_eq]) s

theorem drawAll_remove (s : Screen) (front mid back : List Drawing) (d : Drawing) :
    s.drawAll (front ++ d :: mid ++ d :: back) = s.drawAll (front ++ mid ++ back) := by
  apply drawAll_congr
  intro p
  simp only [turns, List.countP_append, List.countP_cons]
  omega

end Screen

namespace Drawing

variable {d : Drawing} {s : Screen}

/-- The second of two equal drawings undoes the first. -/
theorem onto_twice (d : Drawing) (s : Screen) : (d.onto (d.onto s).1).1 = s := by
  apply Screen.ext_isLit
  intro p
  rw [isLit_onto, isLit_onto, Bool.xor_assoc, Bool.xor_self, Bool.xor_false]

theorem turnedOn_iff : s.TurnedOn (d.onto s).1 ↔ ∃ p ∈ d.footprint, s.isLit p = false := by
  refine exists_congr fun p => ?_
  rw [isLit_onto]
  by_cases covered : p ∈ d.footprint <;> simp [covered]

theorem erased_again_iff : (d.onto (d.onto s).1).2 = true ↔ s.TurnedOn (d.onto s).1 := by
  rw [erased_iff, turnedOn_iff]
  refine exists_congr fun p => and_congr_right fun covered => ?_
  simp [isLit_onto, covered]

/-- A pixel of the sprite is lit before the first drawing or before the second. -/
theorem erased_or_again_iff :
    (d.onto s).2 = true ∨ (d.onto (d.onto s).1).2 = true ↔ d.OnScreen := by
  rw [erased_again_iff, turnedOn_iff, erased_iff, onScreen_iff]
  constructor
  · rintro (⟨p, covered, _⟩ | ⟨p, covered, _⟩) <;> exact ⟨p, covered⟩
  · rintro ⟨p, covered⟩
    cases lit : s.isLit p with
    | true => exact .inl ⟨p, covered, lit⟩
    | false => exact .inr ⟨p, covered, lit⟩

end Drawing

namespace Chip

variable {c : Chip} {x y : Register} {w : Opcode}

/-- What `DXYN` draws. -/
def drawing (c : Chip) (x y : Register) (n : UInt8) : Drawing :=
  ⟨c.v x, c.v y, c.memory.readRange c.registers.i n.toNat⟩

theorem v_setFlag (c : Chip) (b : Bool) (k : Register) :
    (c.setFlag b).v k = if .flag = k then (if b then 1 else 0) else c.v k := v_setV c .flag k _

/-- Neither the flag nor the picture is any part of what is drawn. -/
theorem drawing_drawSprite (hx : x ≠ .flag) (hy : y ≠ .flag) (n : UInt8) :
    (c.drawSprite x y n).drawing x y n = c.drawing x y n := by
  have kept {k : Register} (other : k ≠ .flag) : (c.drawSprite x y n).v k = c.v k :=
    (v_setFlag _ _ _).trans (if_neg other.symm)
  rw [drawing, kept hx, kept hy]
  rfl

theorem execute_draw (family : w.family = 0xD) (hx : x.val = w.x) (hy : y.val = w.y)
    (wait : KeyWait) : c.execute wait (.decode w) =
      ⟨(c.drawSprite x y w.n).move .stay, .ok .drawn⟩ := by
  have rule : Completes wait c (.decode w) { chip := c.drawSprite x y w.n, signal := .drawn } := by
    rw [Instruction.decode_of_draw family, ← hx, ← hy]
    exact .draw x y w.n
  exact execute_of_completes rule

theorem execute_draw_twice (family : w.family = 0xD) (hx : w.x ≠ 0xF) (hy : w.y ≠ 0xF)
    (wait again : KeyWait) :
    let first := c.execute wait (.decode w)
    let second := first.chip.execute again (.decode w)
    first.result = .ok .drawn ∧ second.result = .ok .drawn ∧ second.chip.screen = c.screen ∧
      second.chip.v .flag = if c.screen.TurnedOn first.chip.screen then 1 else 0 := by
  let x : Register := ⟨w.x, w.x_lt⟩
  let y : Register := ⟨w.y, w.y_lt⟩
  have x_other : x ≠ .flag := Fin.ne_of_val_ne hx
  have y_other : y ≠ .flag := Fin.ne_of_val_ne hy
  let d := c.drawing x y w.n
  intro first second
  have run : first = ⟨(c.drawSprite x y w.n).move .stay, .ok .drawn⟩ := execute_draw family rfl rfl wait
  have rerun : second = ⟨(first.chip.drawSprite x y w.n).move .stay, .ok .drawn⟩ :=
    execute_draw family rfl rfl again
  have same : first.chip.drawing x y w.n = d := by
    rw [run]
    exact drawing_drawSprite x_other y_other w.n
  have drawn : first.chip.screen = (d.onto c.screen).1 := by
    rw [run]
    rfl
  refine ⟨?_, ?_, ?_, ?_⟩
  · rw [run]
  · rw [rerun]
  · have redrawn : second.chip.screen =
        ((first.chip.drawing x y w.n).onto first.chip.screen).1 := by
      rw [rerun]
      rfl
    rw [redrawn, same, drawn, d.onto_twice]
  · have told : second.chip.v .flag =
        if ((first.chip.drawing x y w.n).onto first.chip.screen).2 then 1 else 0 := by
      rw [rerun]
      exact v_setFlag _ _ _
    rw [told, same, drawn]
    exact if_congr d.erased_again_iff rfl rfl

end Chip

/-- Drawing is an algebra of exclusive or. Only how often each drawing is made counts, and of that only
whether it is odd. A drawing made twice in a row tells the second time whether it turned something on the
first time, and is silent both times only if nothing of its sprite falls on the screen. The same `DXYN`
twice in a row, with coordinates outside `VF`, leaves the picture and tells the same in `VF`. -/
theorem overdraw (s : Screen) (c : Chip) :
    (∀ drawings other : List Drawing, drawings.Perm other → s.drawAll drawings = s.drawAll other) ∧
    (∀ (front mid back : List Drawing) (d : Drawing),
      s.drawAll (front ++ d :: mid ++ d :: back) = s.drawAll (front ++ mid ++ back)) ∧
    (∀ d : Drawing,
      let first := d.onto s
      let second := d.onto first.1
      (second.2 = true ↔ s.TurnedOn first.1) ∧ (first.2 = true ∨ second.2 = true ↔ d.OnScreen)) ∧
    ∀ w : Opcode, w.family = 0xD → w.x ≠ 0xF → w.y ≠ 0xF → ∀ wait again : KeyWait,
      let first := c.execute wait (.decode w)
      let second := first.chip.execute again (.decode w)
      first.result = .ok .drawn ∧ second.result = .ok .drawn ∧ second.chip.screen = c.screen ∧
        second.chip.v .flag = if c.screen.TurnedOn first.chip.screen then 1 else 0 := by
  refine ⟨?_, ?_, ?_, ?_⟩
  · intro drawings other perm
    exact Screen.drawAll_perm perm s
  · intro front mid back d
    exact s.drawAll_remove front mid back d
  · intro d
    exact ⟨d.erased_again_iff, d.erased_or_again_iff⟩
  · intro w family hx hy wait again
    exact Chip.execute_draw_twice family hx hy wait again

/-- Two rows are drawn, the second one from the first place of memory. -/
theorem wrapped_sprite_overdrawn :
    let c := (Chip.boot ⟨"TWICE", [0x60, 0xFF, 0x61, 0x81, 0xAF, 0xFF, 0xF1, 0x55]⟩ .standard
      (.cycle [])).turnAll (.replicate 4 (.step ⟨0⟩))
    let d := c.drawing 2 3 2
    let e := c.drawing 0 1 1
    let first := c.execute ⟨0⟩ (.decode 0xD232)
    let second := first.chip.execute ⟨0⟩ (.decode 0xD232)
    ([d, e].Perm [e, d] ∧ Opcode.family 0xD232 = 0xD ∧ Opcode.x 0xD232 ≠ 0xF ∧
      Opcode.y 0xD232 ≠ 0xF) ∧
    d.sprite = [0xFF, 0x81] ∧ c.screen.drawAll [d, e] = c.screen.drawAll [e, d] ∧
    second.chip.screen = c.screen ∧ second.chip.v .flag = 1 := by
  intro c d e first second
  obtain ⟨sprite, dark, lit⟩ : d.sprite = [0xFF, 0x81] ∧ c.screen.isLit 0 = false ∧
      first.chip.screen.isLit 0 = true := by
    decide +kernel
  have family : Opcode.family 0xD232 = 0xD := by decide
  have hx : Opcode.x 0xD232 ≠ 0xF := by decide
  have hy : Opcode.y 0xD232 ≠ 0xF := by decide
  have swap : [d, e].Perm [e, d] := .swap e d []
  obtain ⟨any_order, -, -, instruction⟩ := overdraw c.screen c
  obtain ⟨-, -, restored, flag⟩ := instruction 0xD232 family hx hy ⟨0⟩ ⟨0⟩
  refine ⟨⟨swap, family, hx, hy⟩, sprite, any_order _ _ swap, restored, ?_⟩
  exact flag.trans (if_pos ⟨0, dark, lit⟩)

end ChipEight
