import ChipEight.Config
import ChipEight.Proofs.Loading
import ChipEight.Proofs.Text

/-! Files. A name is a part of the path, and its stem is what stands before its last dot; a rom, a text and a
font are read exactly if the file is there and holds one. -/
namespace ChipEight

namespace File

variable {f : File} {name : List Char}

theorem stemOf_of_not_mem (clean : '.' ∉ name) : stemOf name = name := by
  have passed : ∀ c ∈ name.reverse, decide (c ≠ '.') = true := fun c among =>
    decide_eq_true fun dot => clean (dot ▸ List.mem_reverse.mp among)
  have none : name.reverse.dropWhile (· ≠ '.') = [] := by
    rw [← List.append_nil name.reverse, List.dropWhile_append_of_pos passed]
    rfl
  simp only [stemOf, none]

/-- The last dot of a name begins its extension, unless it is at the very front. -/
theorem stemOf_append {extension : List Char} (clean : '.' ∉ extension) (stem : List Char) :
    stemOf (stem ++ '.' :: extension) = if stem = [] then '.' :: extension else stem := by
  have passed : ∀ c ∈ extension.reverse, decide (c ≠ '.') = true := fun c among =>
    decide_eq_true fun dot => clean (dot ▸ List.mem_reverse.mp among)
  have cut : (stem ++ '.' :: extension).reverse.dropWhile (· ≠ '.') = '.' :: stem.reverse := by
    rw [List.reverse_append, List.reverse_cons, List.append_assoc, List.dropWhile_append_of_pos passed]
    rfl
  simp only [stemOf, cut, List.reverse_eq_nil_iff, List.reverse_reverse]
  split
  · next front => rw [front, List.nil_append]
  · rfl

/-- What a stem is: the name up to its last dot, unless there is none or it is at the very front. -/
theorem stemOf_cases (name : List Char) :
    (stemOf name = name ∧ ('.' ∉ name ∨ ∃ extension, '.' ∉ extension ∧ name = '.' :: extension)) ∨
      stemOf name ≠ [] ∧ ∃ extension, '.' ∉ extension ∧ name = stemOf name ++ '.' :: extension := by
  by_cases dotted : '.' ∈ name.reverse
  · obtain ⟨back, front, whole, clean⟩ := List.eq_append_cons_of_mem dotted
    have clean : '.' ∉ back.reverse := mt List.mem_reverse.mp clean
    obtain rfl : name = front.reverse ++ '.' :: back.reverse := by
      rw [← name.reverse_reverse, whole]
      simp
    rw [stemOf_append clean]
    split
    · next front =>
      rw [front, List.nil_append]
      exact .inl ⟨rfl, .inr ⟨_, clean, rfl⟩⟩
    · next filled => exact .inr ⟨filled, _, clean, rfl⟩
  · have clean : '.' ∉ name := mt List.mem_reverse.mpr dotted
    exact .inl ⟨stemOf_of_not_mem clean, .inl clean⟩

theorem parts_clean {path part : List Char} (among : part ∈ parts path) :
    '/' ∉ part ∧ part ≠ [] ∧ part ≠ ['.'] := by
  obtain ⟨piece, kept⟩ := List.mem_filter.mp among
  simp only [Bool.and_eq_true, decide_eq_true_eq] at kept
  exact ⟨Text.not_mem_of_mem_split piece, kept⟩

/-- A name is a part of the path. -/
theorem name?_clean (named : f.name? = some name) :
    '/' ∉ name ∧ name ≠ [] ∧ name ≠ ['.'] ∧ name ≠ ['.', '.'] := by
  obtain ⟨last, other⟩ := Option.filter_eq_some_iff.mp named
  obtain ⟨clean, filled, here⟩ := parts_clean (List.mem_of_getLast? last)
  exact ⟨clean, filled, here, by simpa using other⟩

theorem isDirectory_iff : f.isDirectory = true ↔
    f.path ≠ "" ∧ ∀ part ∈ parts f.path.toList, part = ['.', '.'] := by
  simp [isDirectory]

/-- What leads to a directory names no file. -/
theorem name?_of_isDirectory (directory : f.isDirectory = true) : f.name? = none := by
  obtain ⟨-, up⟩ := isDirectory_iff.mp directory
  refine Option.filter_eq_none_iff.mpr fun part last => ?_
  simp [up part (List.mem_of_getLast? last)]

/-- The stem is that of the name; a path without a name has an empty one. -/
theorem toList_stem (f : File) : f.stem.toList = (f.name?.map stemOf).getD [] :=
  String.toList_ofList

theorem read_eq_ok_iff {bytes : List UInt8} :
    f.read = .ok bytes ↔ f.isDirectory = false ∧ f.content = some bytes := by
  unfold read
  cases directory : f.isDirectory with
  | true => simp
  | false => cases content : f.content <;> simp

/-- What cannot be read is reported with its path: there is no file, or a directory. -/
theorem read_eq_error_iff {fault : ConfigFault} : f.read = .error fault ↔
    f.isDirectory = true ∧ fault = .unreadable f.path .isDirectory ∨
      f.isDirectory = false ∧ f.content = none ∧ fault = .unreadable f.path .notFound := by
  unfold read
  cases directory : f.isDirectory with
  | true => simp [eq_comm]
  | false => cases content : f.content <;> simp [eq_comm]

/-- Bytes are a text exactly if they encode it. -/
theorem fromUTF8?_eq_some_iff {bytes : List UInt8} {text : String} :
    String.fromUTF8? ⟨bytes.toArray⟩ = some text ↔ bytes = text.toUTF8.data.toList := by
  unfold String.fromUTF8?
  constructor
  · intro read
    split at read
    · cases read
      rfl
    · contradiction
  · rintro rfl
    exact dif_pos text.isValidUTF8

theorem readText_eq_ok_iff {text : String} :
    f.readText = .ok text ↔ f.isDirectory = false ∧ f.content = some text.toUTF8.data.toList := by
  simp only [readText, bind_eq_ok, read_eq_ok_iff]
  constructor
  · rintro ⟨bytes, ⟨file, content⟩, read⟩
    split at read
    · next found decoded =>
      cases read
      exact ⟨file, content.trans (congrArg some (fromUTF8?_eq_some_iff.mp decoded))⟩
    · contradiction
  · rintro ⟨file, content⟩
    refine ⟨_, ⟨file, content⟩, ?_⟩
    rw [fromUTF8?_eq_some_iff.mpr rfl]

end File

theorem Rom.ofFile_eq_ok_iff {f : File} {rom : Rom} : Rom.ofFile f = .ok rom ↔
    f.isDirectory = false ∧ f.content = some rom.data ∧ rom.name = f.stem ∧
      1 ≤ rom.data.length ∧ rom.data.length ≤ Layout.programRoom := by
  simp only [ofFile, bind_eq_ok, File.read_eq_ok_iff, ofBytes_eq_ok]
  constructor
  · rintro ⟨data, ⟨file, content⟩, filled, fits, rfl⟩
    exact ⟨file, content, rfl, filled, fits⟩
  · rintro ⟨file, content, name, filled, fits⟩
    exact ⟨rom.data, ⟨file, content⟩, filled, fits, by rw [← name]⟩

namespace Font

theorem ofFile_eq_ok_iff {f : File} {font : Font} : ofFile f = .ok font ↔
    ∃ text : String, f.isDirectory = false ∧ f.content = some text.toUTF8.data.toList ∧
      parse text = .ok font := by
  simp only [ofFile, bind_eq_ok, File.readText_eq_ok_iff, and_assoc]

theorem ofFileOrBuiltIn_eq_iff {f : File} {font : Font} : ofFileOrBuiltIn f = font ↔
    ofFile f = .ok font ∨ font = builtIn ∧ ∀ other, ofFile f ≠ .ok other := by
  unfold ofFileOrBuiltIn
  cases read : ofFile f <;> simp [eq_comm]

end Font
end ChipEight
