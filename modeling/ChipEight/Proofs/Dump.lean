import ChipEight.Proofs.Text

/-! The dump is a tiling. Its rows follow each other without a gap from the start of the program to the end
of memory, and each of them tells what its blocks hold: a row of words its one block, a row of zeros as
many blocks as it covers. So two memories with the same rows hold the same words, and rows that are
printed alike are the same. -/
namespace ChipEight

theorem Opcode.ofBytes_inj {high low high' low' : UInt8}
    (same : ofBytes high low = ofBytes high' low') : high = high' ∧ low = low' := by
  have value := congrArg UInt16.toNat same
  have bound := low.toNat_lt
  have bound' := low'.toNat_lt
  rw [toNat_ofBytes, toNat_ofBytes] at value
  constructor
  · apply UInt8.toNat_inj.mp
    omega
  · apply UInt8.toNat_inj.mp
    omega

namespace Dump

variable {m m' : Memory} {row : Row} {shown rest : List Row} {start stop first last : Nat}

theorem length_blockWords (m : Memory) (first : Nat) : (blockWords m first).length = 8 := by
  simp [blockWords, wordsPerRow]

/-- The words of a block are its bytes. -/
theorem blockWords_eq_iff : blockWords m first = blockWords m' first ↔
    ∀ j < 16, m.read (UInt16.ofNat (first + j)) = m'.read (UInt16.ofNat (first + j)) := by
  have next (j : Nat) : UInt16.ofNat (first + 2 * j) + 1 = UInt16.ofNat (first + (2 * j + 1)) := by
    apply UInt16.toNat_inj.mp
    simp only [UInt16.toNat_add, UInt16.toNat_ofNat', UInt16.reduceToNat]
    omega
  simp only [blockWords, List.map_inj_left, List.mem_range, wordsPerRow, Memory.fetch, next]
  constructor
  · intro words j within
    obtain ⟨even, odd⟩ := Opcode.ofBytes_inj (words (j / 2) (by omega))
    rcases Nat.mod_two_eq_zero_or_one j with parity | parity
    · rwa [show 2 * (j / 2) = j by omega] at even
    · rwa [show 2 * (j / 2) + 1 = j by omega] at odd
  · intro bytes j within
    rw [bytes (2 * j) (by omega), bytes (2 * j + 1) (by omega)]

/-- The row tells what memory holds in its blocks. -/
def Row.Shows (m : Memory) : Row → Prop
  | .words first ws => ws = blockWords m first ∧ ∃ w ∈ ws, w ≠ 0
  | .zeros first last => ∃ n, last + 1 = first + 16 * (n + 1) ∧
      ∀ k ≤ n, ∀ w ∈ blockWords m (first + 16 * k), w = 0

/-- The rows follow each other from `start` to just before `stop` and tell what memory holds there. -/
def Tiles (m : Memory) : Nat → List Row → Nat → Prop
  | start, [], stop => start = stop
  | start, row :: rest, stop => row.first = start ∧ row.Shows m ∧ Tiles m (row.last + 1) rest stop

theorem first_blockRow (m : Memory) (first : Nat) : (blockRow m first).first = first := by
  simp only [blockRow]
  split <;> rfl

theorem last_blockRow (m : Memory) (first : Nat) : (blockRow m first).last = first + 15 := by
  simp only [blockRow]
  split <;> rfl

theorem shows_blockRow (m : Memory) (first : Nat) : (blockRow m first).Shows m := by
  simp only [blockRow]
  split
  · next zeros =>
    refine ⟨0, rfl, ?_⟩
    intro k zero w member
    obtain rfl := Nat.le_zero.mp zero
    simpa using List.all_eq_true.mp zeros w member
  · next other =>
    refine ⟨rfl, ?_⟩
    simpa using other

theorem Row.Shows.merge {last' : Nat} (before : (Row.zeros first last).Shows m)
    (after : (Row.zeros (last + 1) last').Shows m) : (Row.zeros first last').Shows m := by
  obtain ⟨n, upto, zeros⟩ := before
  obtain ⟨n', upto', zeros'⟩ := after
  refine ⟨n + n' + 1, by omega, ?_⟩
  intro k within
  by_cases old : k ≤ n
  · exact zeros k old
  · have place : first + 16 * k = last + 1 + 16 * (k - (n + 1)) := by omega
    rw [place]
    exact zeros' _ (by omega)

theorem tiles_consRow (shows : row.Shows m) (tiles : Tiles m (row.last + 1) rest stop) :
    Tiles m row.first (consRow row rest) stop := by
  cases row with
  | words first ws => exact ⟨rfl, shows, tiles⟩
  | zeros first last =>
    cases rest with
    | nil => exact ⟨rfl, shows, tiles⟩
    | cons next rest =>
      cases next with
      | words first' ws => exact ⟨rfl, shows, tiles⟩
      | zeros first' last' =>
        obtain ⟨rfl, shows', tiles⟩ := tiles
        exact ⟨rfl, shows.merge shows', tiles⟩

theorem tiles_from (m : Memory) (k n : Nat) :
    Tiles m (blockStart k) (((List.range' k n).map fun j => blockRow m (blockStart j)).foldr consRow [])
      (blockStart (k + n)) := by
  induction n generalizing k with
  | zero => rfl
  | succ n ih =>
    have next : (blockRow m (blockStart k)).last + 1 = blockStart (k + 1) := by
      rw [last_blockRow, blockStart, blockStart, blockBytes]
      omega
    have rest := ih (k + 1)
    rw [← next, show k + 1 + n = k + (n + 1) by omega] at rest
    have tiles := tiles_consRow (shows_blockRow m (blockStart k)) rest
    rw [first_blockRow] at tiles
    exact tiles

theorem tiles_rows (m : Memory) : Tiles m 0x200 (rows m) 0x1000 := by
  rw [rows, List.range_eq_range']
  exact tiles_from m 0 blockCount

theorem Row.Shows.ordered (shows : row.Shows m) : row.first ≤ row.last := by
  cases row with
  | words first ws => exact Nat.le_add_right first 15
  | zeros first last =>
    obtain ⟨n, upto, -⟩ := shows
    change first ≤ last
    omega

theorem Tiles.le (tiles : Tiles m start shown stop) : start ≤ stop := by
  induction shown generalizing start with
  | nil => exact Nat.le_of_eq tiles
  | cons row rest ih =>
    obtain ⟨rfl, shows, tiles⟩ := tiles
    have ordered := shows.ordered
    have after := ih tiles
    omega

/-- What the rows tell of one memory they tell of another. -/
theorem Tiles.agree (tiles : Tiles m start shown stop) (tiles' : Tiles m' start shown stop) {k : Nat}
    (inside : start + 16 * k < stop) :
    blockWords m (start + 16 * k) = blockWords m' (start + 16 * k) := by
  induction shown generalizing start k with
  | nil =>
    have nothing : start = stop := tiles
    omega
  | cons row rest ih =>
    obtain ⟨rfl, shows, tiles⟩ := tiles
    obtain ⟨-, shows', tiles'⟩ := tiles'
    cases row with
    | words first ws =>
      cases k with
      | zero => exact shows.1.symm.trans shows'.1
      | succ k =>
        have place : first + 16 * (k + 1) = first + 15 + 1 + 16 * k := by omega
        change first + 16 * (k + 1) < stop at inside
        change blockWords m (first + 16 * (k + 1)) = blockWords m' (first + 16 * (k + 1))
        rw [place] at inside ⊢
        exact ih tiles tiles' inside
    | zeros first last =>
      obtain ⟨n, upto, zeros⟩ := shows
      obtain ⟨n', upto', zeros'⟩ := shows'
      change first + 16 * k < stop at inside
      change blockWords m (first + 16 * k) = blockWords m' (first + 16 * k)
      by_cases covered : k ≤ n
      · have blank := List.eq_replicate_of_mem (zeros k covered)
        have blank' := List.eq_replicate_of_mem (zeros' k (by omega))
        rw [blank, blank', length_blockWords, length_blockWords]
      · have place : first + 16 * k = last + 1 + 16 * (k - (n + 1)) := by omega
        rw [place] at inside ⊢
        exact ih tiles tiles' inside

/-- No eight words are printed as a row of zeros is. -/
theorem entries_ne_zeroFiller {ws : List UInt16} (two : 2 ≤ ws.length) : entries ws ≠ zeroFiller := by
  intro same
  match ws, two with
  | w :: u :: rest, _ =>
    have chars := congrArg (fun text => text.toList[8]?) same
    have filler : zeroFiller.toList[8]? = some ' ' := by decide
    simp [filler, toList_entries_cons, Hex.toList_word, Hex.digits] at chars

theorem Row.plain_text (row : Row) : Text.Plain row.text := by
  have values : Text.Plain (match row with
      | .words _ ws => entries ws
      | .zeros _ _ => zeroFiller) := by
    cases row with
    | words first ws => exact plain_entries ws
    | zeros first last => exact (by decide : Text.Plain zeroFiller)
  exact (plain_range _ _).append values

theorem Row.text_inj {row' : Row} (shows : row.Shows m) (shows' : row'.Shows m')
    (small : row.last < 0x10000) (small' : row'.last < 0x10000) (same : row.text = row'.text) :
    row = row' := by
  have chars := congrArg String.toList same
  simp only [Row.text, String.toList_append] at chars
  obtain ⟨ranges, values⟩ := List.append_inj chars (by rw [length_range, length_range])
  obtain ⟨first_eq, last_eq⟩ :=
    range_inj small small' shows.ordered shows'.ordered (String.toList_inj.mp ranges)
  have values := String.toList_inj.mp values
  cases row with
  | words first ws =>
    have eight : ws.length = 8 := by rw [shows.1, length_blockWords]
    cases row' with
    | words first' us =>
      have eight' : us.length = 8 := by rw [shows'.1, length_blockWords]
      rw [show first = first' from first_eq, entries_inj (eight.trans eight'.symm) values]
    | zeros first' last' => exact absurd values (entries_ne_zeroFiller (by omega))
  | zeros first last =>
    cases row' with
    | words first' us =>
      have eight' : us.length = 8 := by rw [shows'.1, length_blockWords]
      exact absurd values.symm (entries_ne_zeroFiller (by omega))
    | zeros first' last' => rw [show first = first' from first_eq, show last = last' from last_eq]

theorem Tiles.eq_of_texts {start' : Nat} {shown' : List Row} (tiles : Tiles m start shown stop)
    (tiles' : Tiles m' start' shown' stop) (small : stop ≤ 0x10000)
    (same : shown.map Row.text = shown'.map Row.text) : shown = shown' := by
  induction shown generalizing start start' shown' with
  | nil => exact (List.map_eq_nil_iff.mp same.symm).symm
  | cons row rest ih =>
    cases shown' with
    | nil => contradiction
    | cons row' rest' =>
      obtain ⟨-, shows, tiles⟩ := tiles
      obtain ⟨-, shows', tiles'⟩ := tiles'
      obtain ⟨text, texts⟩ := List.cons.inj same
      have before := tiles.le
      have before' := tiles'.le
      rw [Row.text_inj shows shows' (by omega) (by omega) text, ih tiles tiles' texts]

/-- Two memories are printed alike exactly if they agree from the start of the program on. -/
theorem texts_eq_iff : (rows m).map Row.text = (rows m').map Row.text ↔
    ∀ a : UInt16, 0x200 ≤ a.toNat → a.toNat ≤ 0xFFF → m.read a = m'.read a := by
  constructor
  · intro same a low high
    have rows_eq := (tiles_rows m).eq_of_texts (tiles_rows m') (by decide) same
    have tiles := tiles_rows m'
    rw [← rows_eq] at tiles
    have words := (tiles_rows m).agree tiles (k := (a.toNat - 0x200) / 16) (by omega)
    have byte := blockWords_eq_iff.mp words (a.toNat % 16) (Nat.mod_lt _ (by decide))
    have place : 0x200 + 16 * ((a.toNat - 0x200) / 16) + a.toNat % 16 = a.toNat := by omega
    rwa [place, UInt16.ofNat_toNat] at byte
  · intro bytes
    have blocks : ∀ k < blockCount, blockRow m (blockStart k) = blockRow m' (blockStart k) := by
      intro k within
      have words : blockWords m (blockStart k) = blockWords m' (blockStart k) := by
        rw [blockWords_eq_iff]
        intro j inside
        have bound : blockStart k + j < 0x1000 := by
          simp only [blockStart, blockBytes, blockCount, Layout.programStart, UInt16.reduceToNat] at *
          omega
        have value : (UInt16.ofNat (blockStart k + j)).toNat = blockStart k + j := by
          rw [UInt16.toNat_ofNat']
          omega
        apply bytes
        · rw [value]
          exact Nat.le_trans (Nat.le_add_right _ _) (Nat.le_add_right _ _)
        · rw [value]
          omega
      rw [blockRow, words, blockRow]
    have all : (List.range blockCount).map (fun k => blockRow m (blockStart k)) =
        (List.range blockCount).map fun k => blockRow m' (blockStart k) :=
      List.map_congr_left fun k member => blocks k (List.mem_range.mp member)
    rw [rows, all, rows]

end Dump
end ChipEight
