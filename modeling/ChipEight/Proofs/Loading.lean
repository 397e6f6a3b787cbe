import ChipEight.Proofs.Circle
import ChipEight.Proofs.Guard
import ChipEight.Proofs.Start

/-! Loading a font and a program. Both are copied into a region that ends before memory does, so a copy that
knows no way round comes to the same as the circular writes. A load in place is told check by check and byte by
byte; the program is checked twice on its way, and the second check finds nothing that the first has let
through. -/
namespace ChipEight

namespace Memory

variable {m n : Memory} {start s t a : UInt16} {bytes xs ys : List UInt8} {k : Nat}

/-! ### Blocks that end before memory does -/

theorem byteAt_eq_read (m : Memory) (k : Nat) : m.byteAt k = m.read (UInt16.ofNat k) := by
  rw [read_eq_byteAt, UInt16.toNat_ofNat']
  exact byteAt_congr (by omega)

theorem inBlock_iff {length : Nat} (room : start.toNat + length ≤ 0x1000) (inside : k < 0x1000) :
    InBlock start length (UInt16.ofNat k) ↔ start.toNat ≤ k ∧ k < start.toNat + length := by
  unfold InBlock
  rw [UInt16.toNat_ofNat']
  constructor
  · rintro ⟨j, short, same⟩
    omega
  · rintro ⟨lower, upper⟩
    exact ⟨k - start.toNat, by omega, by omega⟩

theorem byteAt_writeAll (room : start.toNat + bytes.length ≤ 0x1000) (m : Memory) (inside : k < 0x1000) :
    (m.writeAll start bytes).byteAt k =
      if h : start.toNat ≤ k ∧ k < start.toNat + bytes.length then bytes[k - start.toNat]
      else m.byteAt k := by
  split
  · next within =>
    obtain ⟨j, rfl⟩ := Nat.exists_eq_add_of_le within.1
    have place : j < bytes.length := by omega
    rw [← read_add, read_writeAll_inside (by omega) m start place]
    simp only [Nat.add_sub_cancel_left]
  · next outside =>
    rw [byteAt_eq_read, byteAt_eq_read,
      read_writeAll_outside (mt (inBlock_iff room inside).mp outside)]

/-- What a run of writes leaves at a place of its own does not depend on what was there. -/
theorem read_writeAll_congr (m n : Memory) (within : InBlock start bytes.length a) :
    (m.writeAll start bytes).read a = (n.writeAll start bytes).read a := by
  obtain ⟨k, last⟩ := exists_lastAt within
  have left := read_writeAll_last m last
  rw [read_writeAll_last n last] at left
  exact (Option.some.inj left).symm

/-- Blocks without a place in common may be written in either order. -/
theorem writeAll_comm (apart : ∀ a, InBlock s xs.length a → ¬InBlock t ys.length a) (m : Memory) :
    (m.writeAll s xs).writeAll t ys = (m.writeAll t ys).writeAll s xs := by
  apply ext_read
  intro a
  by_cases first : InBlock s xs.length a
  · rw [read_writeAll_outside (apart a first)]
    exact read_writeAll_congr _ _ first
  · rw [read_writeAll_outside first]
    by_cases second : InBlock t ys.length a
    · exact read_writeAll_congr _ _ second
    · rw [read_writeAll_outside second, read_writeAll_outside second, read_writeAll_outside first]

/-! ### The two regions -/

variable {font : Font} {data : List UInt8}

theorem font_room (font : Font) : Layout.fontStart.toNat + font.rows.toList.length ≤ 0x1000 := by
  rw [Vector.length_toList]
  decide

/-- The room of a program ends with memory. -/
theorem program_room (fits : data.length ≤ Layout.programRoom) :
    Layout.programStart.toNat + data.length ≤ 0x1000 :=
  Nat.add_le_of_le_sub' (by decide) fits

/-- The font ends before the program starts. -/
theorem font_below_program (font : Font) (fits : data.length ≤ Layout.programRoom) (a : UInt16)
    (glyphs : InBlock Layout.fontStart font.rows.toList.length a) :
    ¬InBlock Layout.programStart data.length a := by
  have room := program_room fits
  obtain ⟨j, row, here⟩ := glyphs
  rintro ⟨k, inside, same⟩
  rw [Vector.length_toList] at row
  simp only [Layout.fontStart, Layout.programStart, UInt16.reduceToNat] at here same room
  omega

theorem byteAt_loadFont (m : Memory) (font : Font) (inside : k < 0x1000) : (m.loadFont font).byteAt k =
    if h : 0x50 ≤ k ∧ k < 0xA0 then font.rows[k - 0x50] else m.byteAt k := by
  rw [loadFont, byteAt_writeAll (font_room font) m inside]
  simp only [Layout.fontStart, UInt16.reduceToNat, Vector.length_toList, Nat.reduceAdd,
    Vector.getElem_toList]

theorem byteAt_loadProgram (loaded : m.loadProgram data = .ok n) (inside : k < 0x1000) : n.byteAt k =
    if h : 0x200 ≤ k ∧ k < 0x200 + data.length then data.get ⟨k - 0x200, by omega⟩ else m.byteAt k := by
  obtain ⟨-, fits, rfl⟩ := loadProgram_eq_ok.mp loaded
  rw [byteAt_writeAll (program_room fits) m inside]
  rfl

theorem loadFont_comm (m : Memory) (font : Font) (data : List UInt8) :
    (m.loadFont font).loadProgram data = (m.loadProgram data).map (·.loadFont font) := by
  unfold loadProgram
  split
  · rfl
  · split
    · rfl
    · next fits =>
      have apart := font_below_program font (Nat.le_of_not_lt fits)
      exact congrArg Except.ok (writeAll_comm apart m)

/-- The byte at each address when a machine starts. -/
def imageByte (font : Font) (data : List UInt8) (k : Nat) : UInt8 :=
  if h : 0x50 ≤ k ∧ k < 0xA0 then font.rows[k - 0x50]
  else if h : 0x200 ≤ k ∧ k < 0x200 + data.length then data.get ⟨k - 0x200, by omega⟩
  else 0

theorem byteAt_image (loaded : (zero.loadFont font).loadProgram data = .ok n) (inside : k < 0x1000) :
    n.byteAt k = imageByte font data k := by
  have blank : zero.byteAt k = 0 := by simp [byteAt, zero]
  rw [byteAt_loadProgram loaded inside, byteAt_loadFont zero font inside, blank, imageByte]
  split
  · next program => rw [dif_neg (by omega)]
  · rfl

end Memory

/-! ### Loading in place -/

/-- What ends a load early. -/
inductive LoadStop where
  | refused (fault : ConfigFault)
  | breach (breach : Breach)
  deriving DecidableEq, Repr

/-- A load changes memory in place; what was written before it ends stays written. -/
abbrev Loader (α : Type) := EStateM LoadStop Memory α

namespace Loader

def guarded {α : Type} : Guarded α → Loader α
  | .ok a => return a
  | .error b => throw (.breach b)

/-- Writes the bytes one after the other from place `k` on. -/
def copy (k : Nat) : List UInt8 → Loader Unit
  | [] => return
  | b :: rest => do
    let place ← guarded (Guard.place 0x1000 k)
    modify fun m => ⟨m.bytes.set place b⟩
    copy (k + 1) rest

/-- Replaces a block of memory, which has to lie inside it, by bytes that have to be as many. -/
def replace (start length : Nat) (bytes : List UInt8) : Loader Unit := do
  if Layout.memorySize < start + length then
    throw (.breach (.place Layout.memorySize (start + length)))
  let bytes ← guarded (Guard.block length bytes)
  copy start bytes

def font (f : Font) : Loader Unit := replace Layout.fontStart.toNat Font.size f.rows.toList

def program (data : List UInt8) : Loader Unit := do
  if data = [] then throw (.refused .emptyRom)
  if Layout.programRoom < data.length then throw (.refused (.romTooLarge data.length))
  replace Layout.programStart.toNat data.length data

/-- Answers how a load ended and goes on with the memory that it left. -/
def attempt (x : Loader Unit) : Loader (Except LoadStop Unit) := fun m =>
  match x.run m with
  | .ok a n => .ok (.ok a) n
  | .error stop n => .ok (.error stop) n

/-- The end of a load that is refused as a whole or writes everything. -/
def settle (m : Memory) : Except ConfigFault Memory → EStateM.Result LoadStop Memory Unit
  | .ok n => .ok () n
  | .error fault => .error (.refused fault) m

variable {m n : Memory} {start k : Nat} {bytes : List UInt8}

theorem run_copy (room : k + bytes.length ≤ 0x1000) (m : Memory) :
    (copy k bytes).run m = .ok () (m.writeAll (UInt16.ofNat k) bytes) := by
  induction bytes generalizing k m with
  | nil => rfl
  | cons b rest ih =>
    rw [List.length_cons] at room
    have inside : k < 0x1000 := by omega
    have checked : (guarded (Guard.place 0x1000 k)).run m = .ok ⟨k, inside⟩ m := by
      rw [Guard.place_of_lt inside]
      rfl
    have written : m.write (UInt16.ofNat k) b = ⟨m.bytes.set k b⟩ := by
      simp only [Memory.write, Memory.place_ofNat inside]
    have next : UInt16.ofNat k + 1 = UInt16.ofNat (k + 1) := (UInt16.ofNat_add k 1).symm
    rw [Memory.writeAll, written, next]
    exact (run_bind checked _).trans (ih (by omega) _)

theorem run_replace (room : start + bytes.length ≤ 0x1000) (m : Memory) :
    (replace start bytes.length bytes).run m = .ok () (m.writeAll (UInt16.ofNat start) bytes) := by
  have inside : ¬Layout.memorySize < start + bytes.length := Nat.not_lt.mpr room
  rw [replace, if_neg inside, Guard.block_of_length rfl]
  exact run_copy room m

theorem run_font (f : Font) (m : Memory) : (font f).run m = .ok () (m.loadFont f) := by
  have run := run_replace (Memory.font_room f) m
  rw [Vector.length_toList] at run
  exact run

theorem run_program (data : List UInt8) (m : Memory) :
    (program data).run m = settle m (m.loadProgram data) := by
  unfold program Memory.loadProgram
  by_cases empty : data = []
  · rw [if_pos empty, if_pos empty]
    rfl
  · rw [if_neg empty, if_neg empty]
    by_cases long : Layout.programRoom < data.length
    · rw [if_pos long, if_pos long]
      rfl
    · rw [if_neg long, if_neg long]
      exact run_replace (Memory.program_room (Nat.le_of_not_lt long)) m

theorem run_attempt {x : Loader Unit} (done : x.run m = .ok () n) :
    (attempt x).run m = .ok (.ok ()) n := by
  change attempt x m = _
  rw [attempt, done]

theorem run_attempt_error {x : Loader Unit} {stop : LoadStop} (stopped : x.run m = .error stop n) :
    (attempt x).run m = .ok (.error stop) n := by
  change attempt x m = _
  rw [attempt, stopped]

/-- Whichever load comes first, memory and the answer are the same, also for a program that is refused. -/
theorem font_comm_program (f : Font) (data : List UInt8) (m : Memory) :
    (do font f; attempt (program data)).run m =
      (do let answer ← attempt (program data); font f; return answer).run m := by
  have behind := run_program data (m.loadFont f)
  have ahead := run_program data m
  rw [Memory.loadFont_comm] at behind
  rw [run_bind (run_font f m)]
  cases loaded : m.loadProgram data with
  | ok n =>
    rw [loaded] at ahead behind
    rw [run_attempt behind, run_bind (run_attempt ahead), run_bind (run_font f n)]
    rfl
  | error fault =>
    rw [loaded] at ahead behind
    rw [run_attempt_error behind, run_bind (run_attempt_error ahead), run_bind (run_font f m)]
    rfl

end Loader

/-! ### The rom and the machine -/

variable {name : String} {data : List UInt8} {rom : Rom}

theorem Rom.ofBytes_eq_ok : ofBytes name data = .ok rom ↔
    1 ≤ data.length ∧ data.length ≤ Layout.programRoom ∧ rom = ⟨name, data⟩ := by
  unfold ofBytes
  by_cases empty : data.length = 0
  · simp [empty]
  · by_cases long : Layout.programRoom < data.length
    · simp [empty, long, Nat.not_le_of_lt long]
    · simp [empty, long, Nat.le_of_not_lt long, Nat.one_le_iff_ne_zero, eq_comm]

/-- The load refuses what the rom refuses, for the same reason. -/
theorem Memory.loadProgram_eq_map (name : String) (data : List UInt8) (m : Memory) :
    m.loadProgram data =
      (Rom.ofBytes name data).map fun rom => m.writeAll Layout.programStart rom.data := by
  unfold loadProgram Rom.ofBytes
  by_cases empty : data = []
  · rw [if_pos empty, if_pos (List.length_eq_zero_iff.mpr empty)]
    rfl
  · rw [if_neg empty, if_neg (mt List.length_eq_zero_iff.mp empty)]
    split <;> rfl

namespace Chip

/-- Nothing has happened to the machine yet. -/
structure Fresh (c : Chip) : Prop where
  registers : ∀ x, c.registers.v.get x = 0
  index : c.registers.i = 0
  pc : c.registers.pc = 0x200
  delay : c.timers.delay = 0
  sound : c.timers.sound = 0
  stack : c.stack.frames = []
  screen : ∀ p, c.screen.pixels.get p = false
  keys : ∀ k, c.keypad.held.get k = false

theorem fresh_boot (rom : Rom) (config : Config) (random : RandomStream) :
    (boot rom config random).Fresh where
  registers x := Vector.getElem_replicate x.isLt
  index := rfl
  pc := rfl
  delay := rfl
  sound := rfl
  stack := rfl
  screen p := Vector.getElem_replicate p.isLt
  keys k := Vector.getElem_replicate k.isLt

/-- The law of the start. A rom takes one to 3584 bytes, and what it takes starts a machine in every
configuration, with the font, the program and nothing else in memory, and nothing done yet. The second check of
the length gives the answer of the first. In place, a load never reaches past its block or past memory, writes
its own region and leaves the rest, and a refused program leaves all of memory; the two loads may change
places. -/
theorem starts_from_image (name : String) (data : List UInt8) :
    ((∃ rom, Rom.ofBytes name data = .ok rom) ↔ 1 ≤ data.length ∧ data.length ≤ 3584) ∧
    (∀ rom, Rom.ofBytes name data = .ok rom → ∀ config random, ∃ c,
      start rom config random = .ok c ∧ c.Fresh ∧
      (do Loader.font config.font; Loader.program rom.data).run .zero = .ok () c.memory ∧
      ∀ k < 0x1000, c.memory.byteAt k = Memory.imageByte config.font data k) ∧
    ∀ (m : Memory) (font : Font),
      (m.loadProgram data =
        (Rom.ofBytes name data).map fun rom => m.writeAll Layout.programStart rom.data) ∧
      (Loader.font font).run m = .ok () (m.loadFont font) ∧
      (Loader.program data).run m = Loader.settle m (m.loadProgram data) ∧
      (∀ fault, Rom.ofBytes name data = .error fault →
        (Loader.program data).run m = .error (.refused fault) m) ∧
      (∀ k < 0x1000, (m.loadFont font).byteAt k =
        if h : 0x50 ≤ k ∧ k < 0xA0 then font.rows[k - 0x50] else m.byteAt k) ∧
      (∀ n, m.loadProgram data = .ok n → ∀ k < 0x1000, n.byteAt k =
        if h : 0x200 ≤ k ∧ k < 0x200 + data.length then data.get ⟨k - 0x200, by omega⟩
        else m.byteAt k) ∧
      (do Loader.font font; Loader.attempt (Loader.program data)).run m =
        (do let answer ← Loader.attempt (Loader.program data)
            Loader.font font
            return answer).run m := by
  refine ⟨?_, ?_, ?_⟩
  · constructor
    · rintro ⟨rom, made⟩
      obtain ⟨filled, fits, -⟩ := Rom.ofBytes_eq_ok.mp made
      exact ⟨filled, fits⟩
    · rintro ⟨filled, fits⟩
      exact ⟨_, Rom.ofBytes_eq_ok.mpr ⟨filled, fits, rfl⟩⟩
  · intro rom made config random
    have loaded := Memory.loadProgram_eq_map name data (Memory.zero.loadFont config.font)
    obtain ⟨filled, fits, rfl⟩ := Rom.ofBytes_eq_ok.mp made
    rw [made] at loaded
    have program : data ≠ [] := List.ne_nil_of_length_pos filled
    refine ⟨boot ⟨name, data⟩ config random, start_eq_ok_iff.mpr ⟨program, fits, rfl⟩,
      fresh_boot _ config random, ?_, ?_⟩
    · rw [run_bind (Loader.run_font config.font .zero), Loader.run_program, loaded]
      rfl
    · exact fun k inside => Memory.byteAt_image loaded inside
  · intro m font
    refine ⟨m.loadProgram_eq_map name data, Loader.run_font font m, Loader.run_program data m, ?_,
      fun k => m.byteAt_loadFont font, fun n loaded k => Memory.byteAt_loadProgram loaded,
      Loader.font_comm_program font data m⟩
    intro fault refused
    rw [Loader.run_program, m.loadProgram_eq_map name, refused]
    rfl

/-- A program that fills its room to the last byte of memory, and one that is a byte longer. -/
theorem last_byte_of_full_program :
    let full : List UInt8 := List.replicate 3584 0xFF
    let large : List UInt8 := 0xFF :: full
    (Rom.ofBytes "FULL" full = .ok ⟨"FULL", full⟩ ∧
      ∃ c, start ⟨"FULL", full⟩ .standard (.cycle []) = .ok c ∧ c.memory.byteAt 0xFFF = 0xFF ∧
        c.memory.byteAt 0x1FF = 0 ∧ c.memory.byteAt 0x50 = 0xF0) ∧
    Rom.ofBytes "LARGE" large = .error (.romTooLarge 3585) ∧
      (Loader.program large).run .zero = .error (.refused (.romTooLarge 3585)) .zero := by
  intro full large
  have length : full.length = 3584 := List.length_replicate
  have longer : large.length = 3585 := by rw [List.length_cons, length]
  obtain ⟨-, starts, -⟩ := starts_from_image "FULL" full
  obtain ⟨-, -, loads⟩ := starts_from_image "LARGE" large
  have made : Rom.ofBytes "FULL" full = .ok ⟨"FULL", full⟩ :=
    Rom.ofBytes_eq_ok.mpr ⟨by rw [length]; decide, by rw [length]; decide, rfl⟩
  have refused : Rom.ofBytes "LARGE" large = .error (.romTooLarge 3585) := by
    rw [Rom.ofBytes, if_neg (by rw [longer]; decide), if_pos (by rw [longer]; decide), longer]
  obtain ⟨c, started, -, -, bytes⟩ := starts _ made .standard (.cycle [])
  obtain ⟨-, -, -, unchanged, -⟩ := loads .zero .builtIn
  refine ⟨⟨made, c, started, ?_, ?_, ?_⟩, refused, unchanged _ refused⟩
  · rw [bytes _ (by decide), Memory.imageByte, dif_neg (by decide), dif_pos (by rw [length]; decide)]
    exact List.getElem_replicate _
  · rw [bytes _ (by decide)]
    rfl
  · rw [bytes _ (by decide)]
    rfl

end Chip
end ChipEight
