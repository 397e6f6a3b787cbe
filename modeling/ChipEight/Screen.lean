import ChipEight.Fault

/-! The one-bit picture. Pixels are numbered row after row; a sprite is turned over onto the numbers
it covers, so what runs past the right edge goes on in the next row and what runs past the last
pixel is left out. -/
namespace ChipEight

structure Screen where
  pixels : Vector Bool 2048
  deriving DecidableEq

namespace Screen

def width : Nat := 64

def height : Nat := 32

def size : Nat := width * height

/-- Pixels in a row of a sprite. -/
def spriteWidth : Nat := 8

/-- The color of a lit pixel, as red, green and blue bytes. -/
def foreground : Nat := 0x012F4A

def background : Nat := 0x81BECE

theorem colors_differ : foreground ≠ background ∧ foreground < 0x1000000 ∧ background < 0x1000000 := by decide

abbrev Pixel := Fin 2048

def blank : Screen := ⟨Vector.replicate _ false⟩

/-- The number of the pixel in column `x` of row `y`. -/
def pixelAt (x : Fin 64) (y : Fin 32) : Pixel := ⟨y.val * 64 + x.val, by omega⟩

def isLit (s : Screen) (p : Pixel) : Bool := s.pixels[p]

/-- The state of the pixel at any coordinates; the row is looked up first. -/
def lookup (s : Screen) (x y : Nat) : Except Violation Bool :=
  if hy : y < 32 then
    if hx : x < 64 then .ok (s.isLit (pixelAt ⟨x, hx⟩ ⟨y, hy⟩)) else .error (.noColumn x)
  else .error (.noRow y)

/-- The rows from top to bottom, each from left to right. -/
def rows (s : Screen) : List (List Bool) :=
  (List.finRange 32).map fun y => (List.finRange 64).map fun x => s.isLit (pixelAt x y)

def litCount (s : Screen) : Nat := s.pixels.countP id

def text (s : Screen) : String :=
  String.join (s.rows.map fun row =>
    String.ofList (row.map fun lit => if lit then '#' else '.') ++ "\n")

/-- Where the first bit of a sprite falls. -/
def origin (x y : UInt8) : Nat := y.toNat % 32 * 64 + x.toNat % 64

/-- Bit `j` of a sprite row, counted from the left. -/
def rowBit (row : UInt8) (j : Nat) : Bool := row.toNat.testBit (7 - j)

/-- The pixel that bit `j` of a sprite row covers, if the bit is set and falls on the screen. -/
def covered? (start : Nat) (row : UInt8) (j : Nat) : Option Pixel :=
  if h : start + j < 2048 then
    if rowBit row j then some ⟨start + j, h⟩ else none
  else none

/-- The pixels that the rows of a sprite cover, the first row from `start` on. -/
def covered (start : Nat) : List UInt8 → List Pixel
  | [] => []
  | row :: rest => (List.range spriteWidth).filterMap (covered? start row) ++
      covered (start + width) rest

def toggle (s : Screen) (p : Pixel) : Screen := ⟨s.pixels.set p (!s.pixels[p])⟩

/-- Turns the covered pixels over and tells whether one of them was lit. -/
def draw (s : Screen) (x y : UInt8) (sprite : List UInt8) : Screen × Bool :=
  let pixels := covered (origin x y) sprite
  (pixels.foldl toggle s, pixels.any s.isLit)

theorem isLit_toggle (s : Screen) (p q : Pixel) :
    (s.toggle p).isLit q = (s.isLit q ^^ decide (p = q)) := by
  simp only [isLit, toggle, Fin.getElem_fin, Vector.getElem_set, Fin.ext_iff]
  split
  · next h => simp [h]
  · next h => simp [h]

end Screen
end ChipEight
