import ChipEight.Proofs.Report
import Mathlib.Data.List.Chain

/-! The rows of the dump against memory. Building the rows from the last block to the first gives the same as
putting each block behind the rows so far, where a blank block takes over a row of zeros that stands last. Either
way the rows tile the blocks and no two rows of zeros touch; so a row of zeros ends where something is written, or
where the program region does. The text has a line for each row, and the lines are of one length. -/
namespace ChipEight

theorem Memory.read_zero (a : UInt16) : zero.read a = 0 := by
  simp [read, zero]

namespace Dump

open Text

variable {m : Memory} {row : Row} {shown rest before behind : List Row} {start stop first last : Nat}
  {i j k i' j' : Nat} {ws : List UInt16}

/-! ### One block after the other -/

/-- Puts a row behind others. A row of zeros behind one of zeros takes its place and begins where it began. -/
def push (shown : List Row) (row : Row) : List Row :=
  match shown.getLast?, row with
  | some (.zeros first _), .zeros _ last => shown.dropLast ++ [.zeros first last]
  | _, row => shown ++ [row]

/-- The rows once the first `k` blocks have been put behind each other. -/
def rowsSoFar (m : Memory) (k : Nat) : List Row :=
  ((List.range k).map fun j => blockRow m (blockStart j)).foldl push []

theorem push_cons_cons (a b : Row) (shown : List Row) (row : Row) :
    push (a :: b :: shown) row = a :: push (b :: shown) row := by
  unfold push
  rw [List.getLast?_cons_cons]
  split <;> rfl

/-- Rows that are put in front and behind do not get into each other's way. -/
theorem push_consRow (front : Row) (shown : List Row) (row : Row) :
    push (consRow front shown) row = consRow front (push shown row) := by
  match shown with
  | [] => cases front <;> cases row <;> rfl
  | [next] => cases front <;> cases next <;> cases row <;> rfl
  | next :: third :: more =>
    rw [push_cons_cons]
    cases front <;> cases next <;> simp only [consRow, push_cons_cons]

theorem push_foldr (blocks : List Row) (row : Row) :
    push (blocks.foldr consRow []) row = (blocks ++ [row]).foldr consRow [] := by
  have alone : consRow row [] = [row] := by cases row <;> rfl
  rw [List.foldr_append, List.foldr_cons, List.foldr_nil, alone]
  induction blocks with
  | nil => rfl
  | cons block blocks ih => rw [List.foldr_cons, List.foldr_cons, push_consRow, ih]

theorem foldl_push (done blocks : List Row) :
    blocks.foldl push (done.foldr consRow []) = (done ++ blocks).foldr consRow [] := by
  induction blocks generalizing done with
  | nil => rw [List.append_nil, List.foldl_nil]
  | cons row blocks ih => rw [List.foldl_cons, push_foldr, ih, List.append_assoc, List.singleton_append]

theorem rowsSoFar_eq_foldr (m : Memory) (k : Nat) : rowsSoFar m k =
    ((List.range k).map fun j => blockRow m (blockStart j)).foldr consRow [] := foldl_push [] _

theorem rows_eq_rowsSoFar (m : Memory) : rows m = rowsSoFar m blockCount :=
  (rowsSoFar_eq_foldr m blockCount).symm

theorem tiles_rowsSoFar (m : Memory) (k : Nat) :
    Tiles m (blockStart 0) (rowsSoFar m k) (blockStart k) := by
  have tiles := tiles_from m 0 k
  rwa [← List.range_eq_range', ← rowsSoFar_eq_foldr, Nat.zero_add] at tiles

def Row.isZeros : Row → Bool
  | .zeros .. => true
  | .words .. => false

/-- No two rows of zeros are next to each other. -/
def Apart (shown : List Row) : Prop :=
  shown.IsChain fun row next => ¬(row.isZeros = true ∧ next.isZeros = true)

theorem apart_consRow (apart : Apart rest) : Apart (consRow row rest) := by
  unfold Apart at *
  cases row with
  | words first ws => exact List.isChain_cons.mpr ⟨fun _ _ => by simp [Row.isZeros], apart⟩
  | zeros first last =>
    cases rest with
    | nil => exact .singleton _
    | cons next rest =>
      cases next with
      | words first' ws => exact List.isChain_cons_cons.mpr ⟨by simp [Row.isZeros], apart⟩
      | zeros first' last' =>
        -- the merged row has the neighbour that the old one had
        have ⟨neighbour, others⟩ := List.isChain_cons.mp apart
        exact List.isChain_cons.mpr ⟨neighbour, others⟩

theorem apart_rowsSoFar (m : Memory) (k : Nat) : Apart (rowsSoFar m k) := by
  rw [rowsSoFar_eq_foldr]
  induction (List.range k).map fun j => blockRow m (blockStart j) with
  | nil => exact .nil
  | cons row rest ih => exact apart_consRow ih

theorem Apart.neighbours {next : Row} (apart : Apart (before ++ row :: next :: behind)) :
    ¬(row.isZeros = true ∧ next.isZeros = true) :=
  (List.isChain_cons_cons.mp (List.isChain_append.mp apart).2.1).1

/-! ### Where the rows lie -/

theorem tiles_append : Tiles m start (before ++ behind) stop ↔
    ∃ between, Tiles m start before between ∧ Tiles m between behind stop := by
  induction before generalizing start with
  | nil => simp [Tiles]
  | cons row rest ih =>
    simp only [List.cons_append, Tiles, ih]
    constructor
    · rintro ⟨begins, shows, between, first, second⟩
      exact ⟨between, ⟨begins, shows, first⟩, second⟩
    · rintro ⟨between, ⟨begins, shows, first⟩, second⟩
      exact ⟨begins, shows, between, first, second⟩

theorem Tiles.shows (tiles : Tiles m start shown stop) (member : row ∈ shown) : row.Shows m := by
  induction shown generalizing start with
  | nil => contradiction
  | cons next rest ih =>
    obtain ⟨-, shows, tiles⟩ := tiles
    rcases List.mem_cons.mp member with rfl | later
    · exact shows
    · exact ih tiles later

theorem Tiles.covers_iff (tiles : Tiles m start shown stop) (a : Nat) :
    (∃ row ∈ shown, row.first ≤ a ∧ a ≤ row.last) ↔ start ≤ a ∧ a < stop := by
  induction shown generalizing start with
  | nil =>
    have nothing : start = stop := tiles
    simp only [List.not_mem_nil, false_and, exists_false, false_iff]
    omega
  | cons row rest ih =>
    obtain ⟨rfl, shows, tiles⟩ := tiles
    have ordered := shows.ordered
    have after := tiles.le
    simp only [List.exists_mem_cons_iff, ih tiles]
    omega

theorem Tiles.ascending (tiles : Tiles m start shown stop) :
    shown.Pairwise fun row next => row.last < next.first := by
  induction shown generalizing start with
  | nil => exact .nil
  | cons row rest ih =>
    obtain ⟨rfl, shows, tiles⟩ := tiles
    refine .cons ?_ (ih tiles)
    intro next member
    have ordered := (tiles.shows member).ordered
    exact ((tiles.covers_iff next.first).mp ⟨next, member, Nat.le_refl _, ordered⟩).1

theorem blockStart_eq (k : Nat) : blockStart k = 0x200 + 16 * k := rfl

theorem blockStart_inj : blockStart i = blockStart j ↔ i = j := by
  rw [blockStart_eq, blockStart_eq]
  omega

/-- The row reaches from the start of block `i` to the end of block `j`. -/
structure Row.Spans (row : Row) (i j : Nat) : Prop where
  ordered : i ≤ j
  first : row.first = blockStart i
  last : row.last + 1 = blockStart (j + 1)

theorem Row.Shows.spans (shows : row.Shows m) (begins : row.first = blockStart i) :
    ∃ j, row.Spans i j := by
  cases row with
  | words first ws => exact ⟨i, Nat.le_refl i, begins, congrArg (· + 16) begins⟩
  | zeros first last =>
    obtain ⟨n, upto, -⟩ := shows
    refine ⟨i + n, Nat.le_add_right i n, begins, ?_⟩
    change first = blockStart i at begins
    change last + 1 = blockStart (i + n + 1)
    rw [blockStart_eq] at begins ⊢
    omega

theorem Tiles.spans (tiles : Tiles m (blockStart k) shown stop) (member : row ∈ shown) :
    ∃ i j, row.Spans i j := by
  induction shown generalizing k with
  | nil => contradiction
  | cons next rest ih =>
    obtain ⟨begins, shows, tiles⟩ := tiles
    obtain ⟨j, spans⟩ := shows.spans begins
    rcases List.mem_cons.mp member with rfl | later
    · exact ⟨k, j, spans⟩
    · rw [spans.last] at tiles
      exact ih tiles later

/-- A row of words is one block. -/
theorem Row.Spans.of_words (spans : (Row.words first ws).Spans i j) :
    first = blockStart i ∧ j = i := by
  obtain ⟨-, begins, ends⟩ := spans
  change first = blockStart i at begins
  change first + 15 + 1 = blockStart (j + 1) at ends
  refine ⟨begins, ?_⟩
  simp only [blockStart_eq] at begins ends
  omega

theorem tiles_blocks (m : Memory) : Tiles m (blockStart 0) (rows m) (blockStart blockCount) :=
  tiles_rows m

theorem spans_inside (member : row ∈ rows m) (spans : row.Spans i j) : j < blockCount := by
  have tiles := tiles_blocks m
  have ordered := (tiles.shows member).ordered
  have within := ((tiles.covers_iff row.last).mp ⟨row, member, ordered, Nat.le_refl _⟩).2
  have ends := spans.last
  rw [blockStart_eq] at within ends
  omega

theorem row_of_block (m : Memory) (inside : k < blockCount) :
    ∃ row ∈ rows m, ∃ i j, row.Spans i j ∧ i ≤ k ∧ k ≤ j := by
  have tiles := tiles_blocks m
  have within : blockStart 0 ≤ blockStart k ∧ blockStart k < blockStart blockCount := by
    simp only [blockStart_eq]
    omega
  obtain ⟨row, member, low, high⟩ := (tiles.covers_iff (blockStart k)).mpr within
  obtain ⟨i, j, spans⟩ := tiles.spans member
  refine ⟨row, member, i, j, spans, ?_⟩
  have begins := spans.first
  have ends := spans.last
  simp only [blockStart_eq] at begins ends low high
  omega

/-! ### What a block holds -/

/-- All bytes of the block with number `k` are zero. -/
def Blank (m : Memory) (k : Nat) : Prop :=
  ∀ j < blockBytes, m.read (UInt16.ofNat (blockStart k + j)) = 0

theorem blockWords_zero (first : Nat) : blockWords .zero first = List.replicate 8 0 := by
  refine List.eq_replicate_iff.mpr ⟨length_blockWords _ _, ?_⟩
  intro w member
  obtain ⟨j, -, rfl⟩ := List.mem_map.mp member
  rw [Memory.fetch, Memory.read_zero, Memory.read_zero]
  rfl

theorem blank_iff_words : Blank m k ↔ ∀ w ∈ blockWords m (blockStart k), w = 0 := by
  have bytes : blockWords m (blockStart k) = blockWords .zero (blockStart k) ↔ Blank m k := by
    rw [blockWords_eq_iff]
    simp only [Memory.read_zero]
    rfl
  rw [← bytes, blockWords_zero, List.eq_replicate_iff]
  exact and_iff_right (length_blockWords _ _)

/-- The eight words of a block as numbers, high byte first. -/
def bigEndian (m : Memory) (first : Nat) : List Nat :=
  (List.range wordsPerRow).map fun j =>
    0x100 * (m.read (UInt16.ofNat (first + 2 * j))).toNat +
      (m.read (UInt16.ofNat (first + 2 * j + 1))).toNat

theorem eq_blockWords_iff : ws = blockWords m first ↔ ws.map UInt16.toNat = bigEndian m first := by
  have numbers : (blockWords m first).map UInt16.toNat = bigEndian m first := by
    rw [blockWords, bigEndian, List.map_map]
    apply List.map_congr_left
    intro j _
    have next := UInt16.ofNat_add (first + 2 * j) 1
    rw [Function.comp_apply, Memory.fetch, Opcode.toNat_ofBytes, next]
    rfl
  rw [← numbers]
  exact (List.map_inj_right fun _ _ => UInt16.toNat_inj.mp).symm

/-- The blocks from number `i` to number `j` are a run of blank blocks, and it goes no further. -/
structure BlankRun (m : Memory) (i j : Nat) : Prop where
  ordered : i ≤ j
  inside : j < blockCount
  blank : ∀ k, i ≤ k → k ≤ j → Blank m k
  left : i = 0 ∨ ¬Blank m (i - 1)
  right : j + 1 = blockCount ∨ ¬Blank m (j + 1)

theorem BlankRun.left_le (run : BlankRun m i j) (run' : BlankRun m i' j')
    (here : i ≤ k ∧ k ≤ j) (here' : i' ≤ k ∧ k ≤ j') : i ≤ i' := by
  by_contra further
  rcases run.left with first | bounded
  · omega
  · exact bounded (run'.blank (i - 1) (by omega) (by omega))

theorem BlankRun.le_right (run : BlankRun m i j) (run' : BlankRun m i' j')
    (here : i ≤ k ∧ k ≤ j) (here' : i' ≤ k ∧ k ≤ j') : j' ≤ j := by
  by_contra further
  have inside := run'.inside
  rcases run.right with last | bounded
  · omega
  · exact bounded (run'.blank (j + 1) (by omega) (by omega))

/-- Two such runs that share a block are the same. -/
theorem BlankRun.eq_of_shared (run : BlankRun m i j) (run' : BlankRun m i' j')
    (here : i ≤ k ∧ k ≤ j) (here' : i' ≤ k ∧ k ≤ j') : i = i' ∧ j = j' :=
  ⟨Nat.le_antisymm (run.left_le run' here here') (run'.left_le run here' here),
    Nat.le_antisymm (run'.le_right run here' here) (run.le_right run' here here')⟩

/-! ### What the rows tell -/

theorem words_of_mem (member : .words first ws ∈ rows m) (spans : (Row.words first ws).Spans i j) :
    ¬Blank m i ∧ ws = blockWords m first := by
  obtain ⟨rfl, w, written, other⟩ := (tiles_blocks m).shows member
  obtain ⟨rfl, -⟩ := spans.of_words
  exact ⟨fun blank => other (blank_iff_words.mp blank w written), rfl⟩

theorem blank_of_mem (member : .zeros first last ∈ rows m) (spans : (Row.zeros first last).Spans i j)
    (low : i ≤ k) (high : k ≤ j) : Blank m k := by
  obtain ⟨n, upto, zeros⟩ := (tiles_blocks m).shows member
  have begins : first = blockStart i := spans.first
  have ends : last + 1 = blockStart (j + 1) := spans.last
  rw [blockStart_eq] at begins ends
  have place : first + 16 * (k - i) = blockStart k := by
    rw [blockStart_eq]
    omega
  have covered : k - i ≤ n := by omega
  exact blank_iff_words.mpr (place ▸ zeros (k - i) covered)

/-- A row of words is a block in which something is written, and each such block is a row of words. -/
theorem mem_words_iff : .words first ws ∈ rows m ↔
    ∃ k < blockCount, first = blockStart k ∧ ¬Blank m k ∧ ws = blockWords m first := by
  constructor
  · intro member
    obtain ⟨i, j, spans⟩ := (tiles_blocks m).spans member
    obtain ⟨begins, rfl⟩ := spans.of_words
    exact ⟨j, spans_inside member spans, begins, words_of_mem member spans⟩
  · rintro ⟨k, inside, rfl, filled, rfl⟩
    obtain ⟨row, member, i, j, spans, low, high⟩ := row_of_block m inside
    cases row with
    | words first ws =>
      obtain ⟨rfl, rfl⟩ := spans.of_words
      obtain rfl := Nat.le_antisymm low high
      obtain ⟨-, rfl⟩ := words_of_mem member spans
      exact member
    | zeros first last => exact absurd (blank_of_mem member spans low high) filled

theorem around_zeros (split : rows m = before ++ .zeros first last :: behind) :
    Apart (before ++ .zeros first last :: behind) ∧
      Tiles m (blockStart 0) before first ∧ Tiles m (last + 1) behind (blockStart blockCount) := by
  have tiles := tiles_blocks m
  have apart := apart_rowsSoFar m blockCount
  rw [split] at tiles
  rw [← rows_eq_rowsSoFar, split] at apart
  obtain ⟨_, front, rfl, -, back⟩ := tiles_append.mp tiles
  exact ⟨apart, front, back⟩

/-- What touches a row of zeros from below is a row of words. -/
theorem bounded_left (split : rows m = before ++ .zeros first last :: behind)
    (spans : (Row.zeros first last).Spans i j) : i = 0 ∨ ¬Blank m (i - 1) := by
  obtain ⟨apart, tiles, -⟩ := around_zeros split
  have begins : first = blockStart i := spans.first
  rcases List.eq_nil_or_concat' before with rfl | ⟨front, row, rfl⟩
  · have whole : blockStart 0 = first := tiles
    exact .inl (blockStart_inj.mp (whole.trans begins)).symm
  · obtain ⟨_, -, -, -, touches⟩ := tiles_append.mp tiles
    rw [List.append_assoc] at apart split
    cases row with
    | zeros first' last' => exact absurd ⟨rfl, rfl⟩ apart.neighbours
    | words first' ws =>
      obtain ⟨k, -, rfl, filled, -⟩ := mem_words_iff.mp (by simp [split] : .words first' ws ∈ rows m)
      obtain rfl : k + 1 = i := blockStart_inj.mp (touches.trans begins)
      exact .inr filled

/-- What touches a row of zeros from above is a row of words. -/
theorem bounded_right (split : rows m = before ++ .zeros first last :: behind)
    (spans : (Row.zeros first last).Spans i j) : j + 1 = blockCount ∨ ¬Blank m (j + 1) := by
  obtain ⟨apart, -, tiles⟩ := around_zeros split
  have ends : last + 1 = blockStart (j + 1) := spans.last
  cases behind with
  | nil =>
    have whole : last + 1 = blockStart blockCount := tiles
    exact .inl (blockStart_inj.mp (ends.symm.trans whole))
  | cons next rest =>
    obtain ⟨touches, -, -⟩ := tiles
    cases next with
    | zeros first' last' => exact absurd ⟨rfl, rfl⟩ apart.neighbours
    | words first' ws =>
      obtain ⟨k, -, rfl, filled, -⟩ := mem_words_iff.mp (by simp [split] : .words first' ws ∈ rows m)
      obtain rfl : k = j + 1 := blockStart_inj.mp (touches.trans ends)
      exact .inr filled

theorem blankRun_of_mem (member : .zeros first last ∈ rows m)
    (spans : (Row.zeros first last).Spans i j) : BlankRun m i j := by
  obtain ⟨before, behind, split⟩ := List.append_of_mem member
  exact ⟨spans.ordered, spans_inside member spans, fun k => blank_of_mem member spans,
    bounded_left split spans, bounded_right split spans⟩

/-- A row of zeros is a run of blank blocks that goes no further, and each such run is a row of zeros. -/
theorem mem_zeros_iff : .zeros first last ∈ rows m ↔
    ∃ i j, (Row.zeros first last).Spans i j ∧ BlankRun m i j := by
  constructor
  · intro member
    obtain ⟨i, j, spans⟩ := (tiles_blocks m).spans member
    exact ⟨i, j, spans, blankRun_of_mem member spans⟩
  · rintro ⟨i, j, spans, run⟩
    have inside : i < blockCount := Nat.lt_of_le_of_lt run.ordered run.inside
    obtain ⟨row, member, i', j', spans', low, high⟩ := row_of_block m inside
    cases row with
    | words first' ws =>
      obtain ⟨-, rfl⟩ := spans'.of_words
      obtain rfl := Nat.le_antisymm low high
      have blank := run.blank _ (Nat.le_refl _) run.ordered
      exact absurd blank (words_of_mem member spans').1
    | zeros first' last' =>
      have run' := blankRun_of_mem member spans'
      obtain ⟨rfl, rfl⟩ := run.eq_of_shared run' ⟨Nat.le_refl i, run.ordered⟩ ⟨low, high⟩
      obtain rfl : first = first' := spans.first.trans spans'.first.symm
      obtain rfl : last = last' := Nat.succ.inj (spans.last.trans spans'.last.symm)
      exact member

/-! ### The text -/

/-- What the line of a row says: its range, and the eight words of its block from high to low byte, or a zero at
either end of a gap. -/
def Row.line (m : Memory) : Row → List Char
  | .words first _ =>
    span first (first + 15) ++ (bigEndian m first).flatMap fun w => ' ' :: Hex.numeral w
  | .zeros first last =>
    let gap := List.replicate 20 ' '
    span first last ++ ' ' :: Hex.numeral 0 ++ gap ++ "...".toList ++ gap ++ Hex.numeral 0

theorem toList_zeroFiller : zeroFiller.toList =
    ' ' :: Hex.numeral 0 ++ List.replicate 20 ' ' ++ "...".toList ++ List.replicate 20 ' ' ++
      Hex.numeral 0 := by
  decide

theorem toList_text (member : row ∈ rows m) : row.text.toList = row.line m := by
  have shows := (tiles_blocks m).shows member
  have above := shows.ordered
  have within := ((tiles_blocks m).covers_iff row.last).mp ⟨row, member, above, Nat.le_refl _⟩
  have small : row.last < 0x10000 := Nat.lt_trans within.2 (by decide)
  have small' : row.first < 0x10000 := Nat.lt_of_le_of_lt above small
  unfold Row.text
  rw [String.toList_append, toList_range_eq small' small]
  cases row with
  | words first ws =>
    obtain ⟨rfl, -⟩ := shows
    have numbers := eq_blockWords_iff.mp (rfl : blockWords m first = _)
    rw [toList_entries, Row.line, ← numbers, List.flatMap_map]
    rfl
  | zeros first last =>
    rw [toList_zeroFiller, Row.line]
    simp only [List.append_assoc]
    rfl

/-- The dump as it is printed, each row two tabs in. -/
def text (m : Memory) : String := unlines ((rows m).map fun row => Report.indent row.text)

theorem Row.Shows.length_text (shows : row.Shows m) : row.text.toList.length = 73 := by
  unfold Row.text
  rw [String.toList_append, List.length_append, length_range]
  cases row with
  | words first ws =>
    change 17 + (entries ws).toList.length = 73
    rw [length_entries, shows.1, length_blockWords]
  | zeros first last =>
    change 17 + zeroFiller.toList.length = 73
    decide

theorem rows_ne_nil (m : Memory) : rows m ≠ [] := by
  have some_block : 0 < blockCount := by decide
  obtain ⟨row, member, -⟩ := row_of_block m some_block
  exact List.ne_nil_of_mem member

theorem split_text (m : Memory) : split '\n' (text m).toList =
    (rows m).map fun row => '\t' :: '\t' :: row.line m := by
  have plain : ∀ line ∈ (rows m).map (fun row => Report.indent row.text), Plain line := by
    intro line member
    obtain ⟨row, -, rfl⟩ := List.mem_map.mp member
    exact Report.plain_indent row.plain_text
  rw [text, split_unlines (by simp [rows_ne_nil]) plain, List.map_map]
  apply List.map_congr_left
  intro row member
  rw [Function.comp_apply, Report.indent, String.toList_append, toList_text member]
  rfl

theorem length_of_mem_split_text {line : List Char} (member : line ∈ split '\n' (text m).toList) :
    line.length = 75 := by
  rw [split_text] at member
  obtain ⟨row, shown, rfl⟩ := List.mem_map.mp member
  have long := ((tiles_rows m).shows shown).length_text
  rw [List.length_cons, List.length_cons, ← toList_text shown, long]

/-- A line feed at the end would leave an empty line behind it. -/
theorem getLast?_text (m : Memory) : (text m).toList.getLast? ≠ some '\n' := by
  intro ended
  obtain ⟨front, same⟩ := List.getLast?_eq_some_iff.mp ended
  have empty : [] ∈ split '\n' (text m).toList := same ▸ nil_mem_split_concat '\n' front
  have long := length_of_mem_split_text empty
  contradiction

/-- The dump stands in the report under its heading, and the report ends behind it. -/
theorem report_text (c : Chip) :
    ∃ front, c.report = front ++ "\n\tMemory :\n" ++ text c.memory ++ "\n\x7d" := by
  let dump := (rows c.memory).map fun row => Report.indent row.text
  have filled : dump ≠ [] := by simp [dump, rows_ne_nil]
  obtain ⟨front, some_line, lines⟩ : ∃ front, front ≠ [] ∧
      Report.lines c = front ++ ["\tMemory :"] ++ dump ++ ["\x7d"] := ⟨_, by simp, rfl⟩
  refine ⟨unlines front, ?_⟩
  rw [Chip.report, lines, unlines_append (by simp) (by simp), unlines_append (by simp) filled,
    unlines_append some_line (by simp)]
  simp [unlines, text, dump, String.append_assoc]

/-- The law of the dump. Putting block behind block keeps the rows a tiling in which no two rows of zeros touch,
and ends with the rows that are printed. They follow each other from `0x200` to `0xFFF`, each from a multiple of
sixteen on. The rows of words are the blocks in which something is written, with their eight words; the rows of
zeros are the runs of blank blocks, as long as they go. The text, which stands in the report, has one line for each
row, which says the range and the words that memory holds there; all lines are of one length, and no line feed is at
the end. -/
theorem dump_tiles (m : Memory) :
    (rows m = rowsSoFar m blockCount ∧
      ∀ k, Tiles m (blockStart 0) (rowsSoFar m k) (blockStart k) ∧ Apart (rowsSoFar m k)) ∧
    ((∀ a, (∃ row ∈ rows m, row.first ≤ a ∧ a ≤ row.last) ↔ 0x200 ≤ a ∧ a ≤ 0xFFF) ∧
      (rows m).Pairwise (fun row next => row.last < next.first) ∧
      ∀ row ∈ rows m, row.first % 16 = 0 ∧ row.first ≤ row.last) ∧
    ((∀ first ws, .words first ws ∈ rows m ↔ ∃ k < blockCount,
        first = blockStart k ∧ ¬Blank m k ∧ ws.map UInt16.toNat = bigEndian m first) ∧
      (∀ first last, .zeros first last ∈ rows m ↔ ∃ i j,
        (Row.zeros first last).Spans i j ∧ BlankRun m i j) ∧
      Apart (rows m)) ∧
    (split '\n' (text m).toList = (rows m).map fun row => '\t' :: '\t' :: row.line m) ∧
    (∀ line ∈ split '\n' (text m).toList, line.length = 75) ∧
    (text m).toList.getLast? ≠ some '\n' ∧
    ∀ c : Chip, c.memory = m →
      ∃ front, c.report = front ++ "\n\tMemory :\n" ++ text m ++ "\n\x7d" := by
  have tiles := tiles_blocks m
  have apart := apart_rowsSoFar m
  refine ⟨⟨rows_eq_rowsSoFar m, fun k => ⟨tiles_rowsSoFar m k, apart k⟩⟩,
    ⟨?covered, tiles.ascending, ?placed⟩, ⟨?words, ?zeros, rows_eq_rowsSoFar m ▸ apart blockCount⟩,
    split_text m, fun _ => length_of_mem_split_text, getLast?_text m, ?report⟩
  case covered =>
    intro a
    rw [tiles.covers_iff, blockStart_eq, blockStart_eq, blockCount]
    omega
  case placed =>
    intro row member
    obtain ⟨i, j, spans⟩ := tiles.spans member
    have begins := spans.first
    rw [blockStart_eq] at begins
    exact ⟨by omega, (tiles.shows member).ordered⟩
  case words =>
    intro first ws
    rw [mem_words_iff]
    simp only [eq_blockWords_iff]
  case zeros => exact fun first last => mem_zeros_iff
  case report =>
    rintro c rfl
    exact report_text c

end Dump
end ChipEight
