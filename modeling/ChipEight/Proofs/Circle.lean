import ChipEight.Proofs.Writes

/-! Memory as a circle. Offsets that are cut to sixteen bits, sums that wrap there and the twelve bits that
select a place come to one addition modulo the size of memory, for runs of any length. What a run of writes
leaves at a place is its last byte that falls there; what a run of reads gives is the circle from its start on,
as often round as it takes. -/
namespace ChipEight.Memory

variable {m n : Memory} {start a : UInt16} {bytes : List UInt8} {length k : Nat}

/-- The byte at a number that may lie anywhere, counted round the circle. -/
def byteAt (m : Memory) (k : Nat) : UInt8 :=
  m.bytes[(⟨k % 0x1000, Nat.mod_lt _ (by decide)⟩ : Fin 0x1000)]

theorem byteAt_congr {j : Nat} (same : k % 0x1000 = j % 0x1000) : m.byteAt k = m.byteAt j := by
  simp only [byteAt, same]

theorem read_eq_byteAt (m : Memory) (a : UInt16) : m.read a = m.byteAt a.toNat := rfl

/-- Nothing is lost by cutting an offset and a sum to words: a word wraps at a multiple of the circle. -/
theorem toNat_add_mod (a : UInt16) (k : Nat) :
    (a + UInt16.ofNat k).toNat % 0x1000 = (a.toNat + k) % 0x1000 := by
  rw [UInt16.toNat_add, UInt16.toNat_ofNat']
  omega

theorem read_add (m : Memory) (a : UInt16) (k : Nat) :
    m.read (a + UInt16.ofNat k) = m.byteAt (a.toNat + k) :=
  byteAt_congr (toNat_add_mod a k)

theorem getElem?_readRange (m : Memory) (a : UInt16) (inside : k < length) :
    (m.readRange a length)[k]? = some (m.byteAt (a.toNat + k)) := by
  rw [readRange, List.getElem?_map, List.getElem?_range inside, ← read_add]
  rfl

theorem toNat_fetch (m : Memory) (a : UInt16) : (m.fetch a).toNat =
    0x100 * (m.byteAt a.toNat).toNat + (m.byteAt (a.toNat + 1)).toNat := by
  rw [fetch, Opcode.toNat_ofBytes, ← read_add m a 1]
  rfl

theorem place_ofNat (inside : k < 0x1000) : place (UInt16.ofNat k) = ⟨k, inside⟩ := by
  apply Fin.ext
  simp only [place, UInt16.toNat_ofNat']
  omega

theorem ext_read (same : ∀ a, m.read a = n.read a) : m = n := by
  obtain ⟨bytes⟩ := m
  obtain ⟨others⟩ := n
  congr 1
  apply Vector.ext
  intro k inside
  simpa [read, place_ofNat inside] using same (UInt16.ofNat k)

/-! ### Runs of writes -/

theorem add_succ (a : UInt16) (k : Nat) :
    a + UInt16.ofNat (k + 1) = a + 1 + UInt16.ofNat k := by
  apply UInt16.toNat_inj.mp
  simp only [UInt16.toNat_add, UInt16.toNat_ofNat', UInt16.reduceToNat]
  omega

/-- The write with number `k` goes to the sum of the start and `k`, cut to a word. -/
theorem writeAll_eq_foldl (m : Memory) (start : UInt16) (bytes : List UInt8) (j : Nat) :
    m.writeAll (start + UInt16.ofNat j) bytes =
      (bytes.zipIdx j).foldl (fun n (b, k) => n.write (start + UInt16.ofNat k) b) m := by
  induction bytes generalizing m j with
  | nil => rfl
  | cons b rest ih =>
    have next : start + UInt16.ofNat j + 1 = start + UInt16.ofNat (j + 1) := by
      rw [add_succ, UInt16.add_assoc, UInt16.add_assoc, UInt16.add_comm 1]
    rw [writeAll, next, ih]
    rfl

/-- Of so many places from `start` on, the one with number `k` is the last that `a` selects. -/
structure LastAt (start : UInt16) (length : Nat) (a : UInt16) (k : Nat) : Prop where
  inside : k < length
  here : a.toNat % 0x1000 = (start.toNat + k) % 0x1000
  last : ∀ j < length, k < j → a.toNat % 0x1000 ≠ (start.toNat + j) % 0x1000

theorem exists_lastAt (within : InBlock start length a) : ∃ k, LastAt start length a k := by
  induction length with
  | zero =>
    obtain ⟨k, room, -⟩ := within
    contradiction
  | succ n ih =>
    by_cases final : a.toNat % 0x1000 = (start.toNat + n) % 0x1000
    · exact ⟨n, n.lt_succ_self, final, fun j room later => by omega⟩
    · obtain ⟨k, room, same⟩ := within
      have earlier : k ≠ n := by
        rintro rfl
        exact final same
      obtain ⟨k, inside, here, last⟩ := ih ⟨k, by omega, same⟩
      refine ⟨k, by omega, here, ?_⟩
      intro j room later
      by_cases same : j = n
      · exact same ▸ final
      · exact last j (by omega) later

/-- The last write to a place stays. -/
theorem read_writeAll_last (m : Memory) (h : LastAt start bytes.length a k) :
    bytes[k]? = some ((m.writeAll start bytes).read a) := by
  obtain ⟨inside, here, last⟩ := h
  induction bytes generalizing m start k with
  | nil => contradiction
  | cons b rest ih =>
    have next : (start + 1).toNat % 0x1000 = (start.toNat + 1) % 0x1000 := toNat_add_mod start 1
    rw [List.length_cons] at inside last
    cases k with
    | zero =>
      have outside : ¬InBlock (start + 1) rest.length a := by
        rintro ⟨j, room, same⟩
        exact last (j + 1) (by omega) (by omega) (by omega)
      have first : place start = place a := Fin.ext here.symm
      rw [writeAll, read_writeAll_outside outside, read_write, if_pos first]
      rfl
    | succ k =>
      refine ih _ (by omega) (by omega) ?_
      intro j room later
      have other := last (j + 1) (by omega) (by omega)
      omega

/-- A run that is no longer than the circle writes each of its places once. -/
theorem lastAt_of_short (short : length ≤ 0x1000) (inside : k < length) :
    LastAt start length (start + UInt16.ofNat k) k := by
  have place := toNat_add_mod start k
  exact ⟨inside, place, fun j room later => by omega⟩

theorem read_writeAll_inside (short : bytes.length ≤ 0x1000) (m : Memory) (a : UInt16)
    (inside : k < bytes.length) : (m.writeAll a bytes).read (a + UInt16.ofNat k) = bytes[k] := by
  have last : LastAt a bytes.length (a + UInt16.ofNat k) k := lastAt_of_short short inside
  have stays := read_writeAll_last m last
  rw [List.getElem?_eq_getElem inside] at stays
  exact (Option.some.inj stays).symm

theorem readRange_writeAll (short : bytes.length ≤ 0x1000) (m : Memory) (a : UInt16) :
    (m.writeAll a bytes).readRange a bytes.length = bytes := by
  apply List.ext_getElem (length_readRange _ _ _)
  intro k _ inside
  simp only [readRange, List.getElem_map, List.getElem_range]
  exact read_writeAll_inside short m a inside

/-- The law of the circle. After a run of writes that starts anywhere and is as long as it may be, each address
holds the last byte whose place it selects, or what it held before if there is none. A range that is read has the
length that was asked for and goes round the circle, and a range of no more than the circle comes back as it was
written. A word is the byte at its address and the byte behind it, where the circle closes too. -/
theorem circular_store (m : Memory) (start : UInt16) (bytes : List UInt8) :
    let written := m.writeAll start bytes
    written = bytes.zipIdx.foldl (fun n (b, k) => n.write (start + UInt16.ofNat k) b) m ∧
    (∀ a, (∃ k, LastAt start bytes.length a k ∧ bytes[k]? = some (written.read a)) ∨
      ¬InBlock start bytes.length a ∧ written.read a = m.read a) ∧
    (∀ a length, (m.readRange a length).length = length ∧
      ∀ k < length, (m.readRange a length)[k]? = some (m.byteAt (a.toNat + k))) ∧
    (bytes.length ≤ 0x1000 → written.readRange start bytes.length = bytes) ∧
    ∀ a, (m.fetch a).toNat =
      0x100 * (m.byteAt a.toNat).toNat + (m.byteAt (a.toNat + 1)).toNat := by
  intro written
  refine ⟨?_, ?_, ?_, ?_, m.toNat_fetch⟩
  · have start_zero : start + UInt16.ofNat 0 = start := UInt16.add_zero start
    rw [← writeAll_eq_foldl, start_zero]
  · intro a
    by_cases within : InBlock start bytes.length a
    · obtain ⟨k, last⟩ := exists_lastAt within
      exact .inl ⟨k, last, read_writeAll_last m last⟩
    · exact .inr ⟨within, read_writeAll_outside within⟩
  · exact fun a length => ⟨m.length_readRange a length, fun k => m.getElem?_readRange a⟩
  · exact fun short => readRange_writeAll short m start

/-- The last of 4097 bytes falls on the first one, and three bytes come back from across the end of memory. -/
theorem last_byte_laps_first :
    let lap : List UInt8 := List.replicate 0x1000 7 ++ [9]
    let few : List UInt8 := [1, 2, 3]
    let written := zero.writeAll 0xFFFF lap
    (written.read 0xFFF = 9 ∧ written.read 0xF000 = 7) ∧
    few.length ≤ 0x1000 ∧ (zero.writeAll 0xFFFE few).readRange 0xFFFE few.length = few := by
  intro lap few written
  have first : (List.replicate 0x1000 (7 : UInt8)).length = 0x1000 := List.length_replicate
  have long : lap.length = 0x1001 := by rw [List.length_append, first, List.length_singleton]
  obtain ⟨-, holds, -⟩ := circular_store zero 0xFFFF lap
  obtain ⟨-, -, -, comes_back, -⟩ := circular_store zero 0xFFFE few
  have short : few.length ≤ 0x1000 := by decide
  refine ⟨⟨?_, ?_⟩, short, comes_back short⟩
  · rcases holds 0xFFF with ⟨k, ⟨inside, here, last⟩, stays⟩ | ⟨outside, -⟩
    · rw [long] at inside last
      simp only [UInt16.reduceToNat] at here last
      have lapped : k = 0x1000 := by
        have other := last 0x1000 (by omega)
        omega
      have byte : lap[0x1000]? = some 9 := first ▸ List.getElem?_concat_length
      rw [lapped, byte] at stays
      exact (Option.some.inj stays).symm
    · exact absurd ⟨0, by omega, rfl⟩ outside
  · rcases holds 0xF000 with ⟨k, ⟨inside, here, -⟩, stays⟩ | ⟨outside, -⟩
    · rw [long] at inside
      simp only [UInt16.reduceToNat] at here
      have second : k = 1 := by omega
      rw [second] at stays
      exact (Option.some.inj stays).symm
    · exact absurd ⟨1, by omega, rfl⟩ outside

end ChipEight.Memory
