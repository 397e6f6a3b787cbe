/-! Upper-case hexadecimal numerals: words padded to four digits for tables, and numbers of any size
without padding for messages. -/
namespace ChipEight.Hex

def digit (value : Nat) : Char :=
  if value < 10 then Char.ofNat (48 + value) else Char.ofNat (55 + value)

/-- The four digits of a word, highest first. -/
def digits (w : UInt16) : List Char :=
  [digit (w.toNat / 0x1000), digit (w.toNat / 0x100 % 16), digit (w.toNat / 0x10 % 16),
    digit (w.toNat % 16)]

/-- A word with its `0x` mark, always six characters long. -/
def word (w : UInt16) : String := "0x" ++ String.ofList (digits w)

/-- The digits of a number of any size, without leading zeros. -/
def number (value : Nat) : String := String.ofList ((Nat.toDigits 16 value).map Char.toUpper)

end ChipEight.Hex
