import ChipEight.Fault
import ChipEight.Text

/-! The sixteen hexadecimal glyphs, five rows of one byte each, and their text form. A line of text is
a glyph line if `0b` with eight binary digits behind it stands somewhere in it; the leftmost such
place counts and the rest of the line is free. -/
namespace ChipEight

structure Font where
  rows : Vector UInt8 80
  deriving DecidableEq

namespace Font

def glyphRows : UInt16 := 5

def size : Nat := 80

def builtIn : Font := ⟨#v[
  0xF0, 0x90, 0x90, 0x90, 0xF0, 0x20, 0x60, 0x20, 0x20, 0x70,
  0xF0, 0x10, 0xF0, 0x80, 0xF0, 0xF0, 0x10, 0xF0, 0x10, 0xF0,
  0x90, 0x90, 0xF0, 0x10, 0x10, 0xF0, 0x80, 0xF0, 0x10, 0xF0,
  0xF0, 0x80, 0xF0, 0x90, 0xF0, 0xF0, 0x10, 0x20, 0x40, 0x40,
  0xF0, 0x90, 0xF0, 0x90, 0xF0, 0xF0, 0x90, 0xF0, 0x10, 0xF0,
  0xF0, 0x90, 0xF0, 0x90, 0x90, 0xE0, 0x90, 0xE0, 0x90, 0xE0,
  0xF0, 0x80, 0x80, 0x80, 0xF0, 0xE0, 0x90, 0x90, 0x90, 0xE0,
  0xF0, 0x80, 0xF0, 0x80, 0xF0, 0xF0, 0x80, 0xF0, 0x80, 0x80]⟩

/-- No glyph of the built in font is wider than four pixels, and all sixteen look different. -/
theorem builtIn_glyphs : (∀ row ∈ builtIn.rows.toList, row &&& 0x0F = 0) ∧
    ((List.range 16).map fun k => (builtIn.rows.toList.drop (5 * k)).take 5).Nodup := by
  decide +kernel

/-- Reads `count` binary digits, highest first, onto the value read so far. -/
def binary? : (count value : Nat) → List Char → Option Nat
  | 0, value, _ => some value
  | count + 1, value, '0' :: cs => binary? count (2 * value) cs
  | count + 1, value, '1' :: cs => binary? count (2 * value + 1) cs
  | _ + 1, _, _ => none

/-- The glyph row that is spelled at the very start of the text. -/
def rowAt? : List Char → Option UInt8
  | '0' :: 'b' :: cs => (binary? 8 0 cs).map UInt8.ofNat
  | _ => none

/-- The glyph row at the leftmost place of the line where one is spelled. -/
def row? : List Char → Option UInt8
  | [] => none
  | c :: cs => (rowAt? (c :: cs)).or (row? cs)

/-- The glyph rows of the text, one per glyph line. -/
def rowsOf (text : List Char) : List UInt8 := (Text.split '\n' text).filterMap row?

/-- A font needs a glyph line for each of its rows and no more. -/
def parse (text : String) : Except ConfigFault Font :=
  let rows := rowsOf text.toList
  if h : rows.length = 80 then .ok ⟨⟨rows.toArray, by simpa using h⟩⟩
  else .error (.fontLength rows.length)

end Font
end ChipEight
