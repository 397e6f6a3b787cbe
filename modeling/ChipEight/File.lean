import ChipEight.Fault
import ChipEight.Text

/-! A file as the loaders find it: the path that was asked for and the bytes that lie there, if any.
Paths are cut at slashes; the file system itself is not modeled. -/
namespace ChipEight

structure File where
  path : String
  content : Option (List UInt8)

namespace File

/-- The parts of a path; empty parts and single dots name nothing of their own. -/
def parts (path : List Char) : List (List Char) :=
  (Text.split '/' path).filter fun part => part ≠ [] && part ≠ ['.']

/-- The last part of the path, if it names a file. -/
def name? (f : File) : Option (List Char) :=
  (parts f.path.toList).getLast?.filter (· ≠ ['.', '.'])

/-- A path without a name in it leads to a directory. -/
def isDirectory (f : File) : Bool :=
  f.path ≠ "" && (parts f.path.toList).all (· = ['.', '.'])

/-- A name without its extension; a dot at the very front begins no extension. -/
def stemOf (name : List Char) : List Char :=
  match name.reverse.dropWhile (· ≠ '.') with
  | [] => name
  | _ :: stem => if stem = [] then name else stem.reverse

def stem (f : File) : String := String.ofList ((f.name?.map stemOf).getD [])

def read (f : File) : Except ConfigFault (List UInt8) :=
  if f.isDirectory then .error (.unreadable f.path .isDirectory)
  else match f.content with
    | some bytes => .ok bytes
    | none => .error (.unreadable f.path .notFound)

def readText (f : File) : Except ConfigFault String := do
  let bytes ← f.read
  match String.fromUTF8? ⟨bytes.toArray⟩ with
  | some text => .ok text
  | none => .error (.unreadable f.path .notText)

end File
end ChipEight
