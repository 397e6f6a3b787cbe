import ChipEight.Hex
import ChipEight.Memory

/-! The dump of the program region. A block is sixteen bytes and shows eight words; neighbouring
blocks of zeros become one row. Rows are data first and text afterwards. -/
namespace ChipEight.Dump

def wordsPerRow : Nat := 8

def blockBytes : Nat := 16

/-- Blocks between the program start and the end of memory. -/
def blockCount : Nat := 224

inductive Row where
  /-- The words of one block, from the address `first` on. -/
  | words (first : Nat) (ws : List UInt16)
  /-- Nothing but zeros from the address `first` to the address `last`. -/
  | zeros (first last : Nat)
  deriving DecidableEq, Repr

def Row.first : Row → Nat
  | .words first _ => first
  | .zeros first _ => first

def Row.last : Row → Nat
  | .words first _ => first + 15
  | .zeros _ last => last

def blockStart (k : Nat) : Nat := Layout.programStart.toNat + blockBytes * k

def blockWords (m : Memory) (first : Nat) : List UInt16 :=
  (List.range wordsPerRow).map fun j => m.fetch (UInt16.ofNat (first + 2 * j))

def blockRow (m : Memory) (first : Nat) : Row :=
  let ws := blockWords m first
  if ws.all (· == 0) then .zeros first (first + 15) else .words first ws

/-- Puts a row in front of others; two rows of zeros become one. -/
def consRow : Row → List Row → List Row
  | .zeros first _, .zeros _ last :: rest => .zeros first last :: rest
  | row, rest => row :: rest

def rows (m : Memory) : List Row :=
  ((List.range blockCount).map fun k => blockRow m (blockStart k)).foldr consRow []

def range (first last : Nat) : String :=
  Hex.word (UInt16.ofNat first) ++ " - " ++ Hex.word (UInt16.ofNat last) ++ " :"

def entries : List UInt16 → String
  | [] => ""
  | w :: ws => " " ++ Hex.word w ++ entries ws

/-- What stands for the words of a row of zeros, as wide as eight words. -/
def zeroFiller : String :=
  " 0x0000" ++ String.ofList (List.replicate 20 ' ') ++ "..." ++
    String.ofList (List.replicate 20 ' ') ++ "0x0000"

def Row.text (row : Row) : String :=
  range row.first row.last ++ match row with
    | .words _ ws => entries ws
    | .zeros _ _ => zeroFiller

end ChipEight.Dump
