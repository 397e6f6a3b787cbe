import ChipEight.Keypad
import ChipEight.Memory
import ChipEight.Proofs.Sprite
import ChipEight.Registers
import Mathlib.Data.Nat.Bitwise

/-! Memory, keypad and screen with every access looked at before it is made: a place has to lie in
its table, a number has to fit its width, a block has to be as long as what it replaces. The numbers
are computed as a machine computes them, by masks and sums. No access is ever refused, and the
guarded operations give what the plain ones give. -/
namespace ChipEight

/-- What a guard refuses. -/
inductive Breach where
  /-- A register or a key that does not exist. -/
  | violation (violation : Violation)
  /-- A place beyond the end of a table. -/
  | place (length index : Nat)
  /-- A number that does not fit its width. -/
  | overflow (width value : Nat)
  /-- A block of the wrong length. -/
  | lengths (target source : Nat)
  deriving DecidableEq, Repr

/-- What a guarded operation gives. -/
abbrev Guarded (α : Type) := Except Breach α

section
variable {ε σ α β : Type} {x : EStateM ε σ α} {s t : σ}

theorem run_bind {a : α} (done : x.run s = .ok a t) (next : α → EStateM ε σ β) :
    (x >>= next).run s = (next a).run t := by
  rw [EStateM.run_bind, done]

theorem run_bind_error {stop : ε} (stopped : x.run s = .error stop t) (next : α → EStateM ε σ β) :
    (x >>= next).run s = .error stop t := by
  rw [EStateM.run_bind, stopped]

end

namespace Guard

/-- A place in a table of `length` entries. -/
def place (length index : Nat) : Guarded (Fin length) :=
  if h : index < length then .ok ⟨index, h⟩ else .error (.place length index)

/-- A number of `width` bits. -/
def fit (width value : Nat) : Guarded Nat :=
  if value < 2 ^ width then .ok value else .error (.overflow width value)

/-- The bytes that replace a block of `length` bytes. -/
def block (length : Nat) (bytes : List UInt8) : Guarded (List UInt8) :=
  if bytes.length = length then .ok bytes else .error (.lengths length bytes.length)

/-- The register with number `x`. -/
def register (x : Nat) : Guarded Register := (Register.ofNat x).mapError .violation

theorem place_of_lt {length index : Nat} (h : index < length) :
    place length index = .ok ⟨index, h⟩ := dif_pos h

theorem fit_of_lt {width value : Nat} (h : value < 2 ^ width) : fit width value = .ok value :=
  if_pos h

theorem block_of_length {length : Nat} {bytes : List UInt8} (h : bytes.length = length) :
    block length bytes = .ok bytes := if_pos h

theorem register_of_lt {x : Nat} (h : x < 16) : register x = .ok ⟨x, h⟩ := by
  rw [register, Register.ofNat_of_lt h]
  rfl

theorem register_of_le {x : Nat} (h : 16 ≤ x) :
    register x = .error (.violation (.noRegister x)) := by
  rw [register, Register.ofNat_of_le h]
  rfl

/-! ### Memory -/

/-- The place on the circle that the low twelve bits of an address select. -/
def select (a : UInt16) : Guarded (Fin 0x1000) := place 0x1000 (a &&& 0xFFF).toNat

def read (m : Memory) (a : UInt16) : Guarded UInt8 := do
  let k ← select a
  return m.bytes[k]

def write (m : Memory) (a : UInt16) (b : UInt8) : Guarded Memory := do
  let k ← select a
  return ⟨m.bytes.set k b⟩

def writeAll (m : Memory) (a : UInt16) : List UInt8 → Guarded Memory
  | [] => .ok m
  | b :: bs => do
    let m ← write m a b
    writeAll m (a + 1) bs

def fetch (m : Memory) (a : UInt16) : Guarded Opcode := do
  let high ← read m a
  let low ← read m (a + 1)
  return .ofBytes high low

def readRange (m : Memory) (a : UInt16) (length : Nat) : Guarded (List UInt8) :=
  (List.range length).mapM fun k => read m (a + UInt16.ofNat k)

theorem select_eq (a : UInt16) : select a = .ok (Memory.place a) := by
  have mask : (a &&& 0xFFF).toNat = a.toNat % 0x1000 := by
    rw [UInt16.toNat_and]
    exact Nat.and_two_pow_sub_one_eq_mod a.toNat 12
  have bound : (a &&& 0xFFF).toNat < 0x1000 := by
    rw [mask]
    exact Nat.mod_lt _ (by decide)
  rw [select, place_of_lt bound]
  exact congrArg Except.ok (Fin.ext mask)

theorem read_eq (m : Memory) (a : UInt16) : read m a = .ok (m.read a) := by
  rw [read, select_eq]
  rfl

theorem write_eq (m : Memory) (a : UInt16) (b : UInt8) : write m a b = .ok (m.write a b) := by
  rw [write, select_eq]
  rfl

theorem writeAll_eq (m : Memory) (a : UInt16) (bytes : List UInt8) :
    writeAll m a bytes = .ok (m.writeAll a bytes) := by
  induction bytes generalizing m a with
  | nil => rfl
  | cons b bs ih =>
    rw [writeAll, write_eq]
    exact ih _ _

theorem fetch_eq (m : Memory) (a : UInt16) : fetch m a = .ok (m.fetch a) := by
  rw [fetch, read_eq, read_eq]
  rfl

theorem mapM_ok {α β : Type} (f : α → β) (xs : List α) :
    (xs.mapM fun x => (.ok (f x) : Guarded β)) = .ok (xs.map f) := by
  induction xs with
  | nil => rfl
  | cons x xs ih =>
    rw [List.mapM_cons, ih]
    rfl

theorem readRange_eq (m : Memory) (a : UInt16) (length : Nat) :
    readRange m a length = .ok (m.readRange a length) := by
  unfold readRange
  simp only [read_eq]
  exact mapM_ok _ _

/-! ### Keypad -/

/-- A key event; a key number beyond the last key is told apart before it is used. -/
def keyEvent (p : Keypad) : KeyEvent → Guarded Keypad
  | .press k =>
    if 16 ≤ k then .ok p
    else do
      let k ← place 16 k
      return p.press k
  | .release k =>
    if 16 ≤ k then .ok p
    else do
      let k ← place 16 k
      return p.release k
  | event => .ok (p.after event)

theorem keyEvent_eq (p : Keypad) (event : KeyEvent) : keyEvent p event = .ok (p.after event) := by
  cases event with
  | press k =>
    by_cases h : k < 16
    · rw [keyEvent, if_neg (Nat.not_le_of_lt h), place_of_lt h]
      rfl
    · rw [keyEvent, if_pos (Nat.le_of_not_lt h), Keypad.after, Keypad.press, dif_neg h]
  | release k =>
    by_cases h : k < 16
    · rw [keyEvent, if_neg (Nat.not_le_of_lt h), place_of_lt h]
      rfl
    · rw [keyEvent, if_pos (Nat.le_of_not_lt h), Keypad.after, Keypad.release, dif_neg h]
  | releaseAll | close | reopen => rfl

/-! ### Screen -/

/-- The pixel at a position, by its row and its column. -/
def pixel (position : Nat) : Guarded Screen.Pixel := do
  let y ← place 32 (position / 64)
  let x ← place 64 (position % 64)
  return Screen.pixelAt x y

/-- The bits of one sprite row, from the left, up to the last pixel of the screen. -/
def drawBits (start : Nat) (row : UInt8) : List Nat → Screen × Bool → Guarded (Screen × Bool)
  | [], drawn => .ok drawn
  | j :: rest, drawn => do
    let position ← fit 64 (start + j)
    if Screen.size ≤ position then return drawn
    let distance ← fit 3 j
    if row &&& (0x80 >>> UInt8.ofNat distance) = 0 then drawBits start row rest drawn
    else do
      let p ← pixel position
      drawBits start row rest (Screen.turnOver drawn p)

/-- The rows of a sprite, the first of them row `i`, down to the last row of the screen. -/
def drawRows (x y i : Nat) : List UInt8 → Screen × Bool → Guarded (Screen × Bool)
  | [], drawn => .ok drawn
  | row :: rest, drawn => do
    let line ← fit 64 (y + i)
    let before ← fit 64 (line * Screen.width)
    let start ← fit 64 (before + x)
    if Screen.size ≤ start then return drawn
    let drawn ← drawBits start row (List.range Screen.spriteWidth) drawn
    drawRows x y (i + 1) rest drawn

def draw (s : Screen) (x y : UInt8) (sprite : List UInt8) : Guarded (Screen × Bool) :=
  drawRows (x.toNat % Screen.width) (y.toNat % Screen.height) 0 sprite (s, false)

theorem mask_eq_zero_iff (row : UInt8) {j : Nat} (h : j < 8) :
    row &&& (0x80 >>> UInt8.ofNat j) = 0 ↔ Screen.rowBit row j = false := by
  have mask : (0x80 >>> UInt8.ofNat j : UInt8).toNat = 2 ^ (7 - j) := by
    have all : ∀ k : Fin 8, (0x80 >>> UInt8.ofNat k : UInt8).toNat = 2 ^ (7 - k.val) := by decide
    exact all ⟨j, h⟩
  rw [← UInt8.toNat_inj, UInt8.toNat_and, mask, Nat.and_two_pow]
  unfold Screen.rowBit
  cases row.toNat.testBit (7 - j) <;> simp

theorem pixel_eq {position : Nat} (h : position < 2048) : pixel position = .ok ⟨position, h⟩ := by
  rw [pixel, place_of_lt (by omega), place_of_lt (by omega)]
  refine congrArg Except.ok (Fin.ext ?_)
  simp only [Screen.pixelAt]
  omega

/-- The early end of a row agrees with leaving out every bit that falls off the screen. -/
theorem drawBits_eq {start : Nat} (row : UInt8) (onScreen : start < 2048) (j n : Nat)
    (narrow : j + n ≤ 8) (drawn : Screen × Bool) :
    drawBits start row (List.range' j n) drawn =
      .ok (((List.range' j n).filterMap (Screen.covered? start row)).foldl
        Screen.turnOver drawn) := by
  induction n generalizing j drawn with
  | zero => rfl
  | succ n ih =>
    rw [List.range'_succ, drawBits, fit_of_lt (by omega)]
    by_cases off : 2048 ≤ start + j
    · have rest : (j :: List.range' (j + 1) n).filterMap (Screen.covered? start row) = [] := by
        rw [List.filterMap_eq_nil_iff, ← List.range'_succ]
        intro k member
        have := List.mem_range'_1.mp member
        exact Screen.covered?_of_le (by omega)
      rw [rest]
      exact if_pos off
    · have bit := mask_eq_zero_iff row (j := j) (by omega)
      have next := ih (j + 1) (by omega)
      refine (if_neg off).trans ?_
      rw [fit_of_lt (by omega), List.filterMap_cons]
      cases set : Screen.rowBit row j with
      | false =>
        have clear : Screen.covered? start row j = none := by simp [Screen.covered?, set]
        rw [clear, ← next]
        exact if_pos (bit.mpr set)
      | true =>
        have covers : Screen.covered? start row j = some ⟨start + j, by omega⟩ :=
          Screen.covered?_eq_some.mpr ⟨rfl, set⟩
        rw [covers, List.foldl_cons, ← next]
        refine (if_neg (by simp [bit, set])).trans ?_
        rw [pixel_eq (by omega)]
        rfl

/-- The early end of a sprite agrees with leaving out every row that falls off the screen. -/
theorem drawRows_eq {x y : Nat} (hx : x < 64) (hy : y < 32) (i : Nat) (near : i ≤ 32)
    (sprite : List UInt8) (drawn : Screen × Bool) :
    drawRows x y i sprite drawn =
      .ok ((Screen.covered ((y + i) * 64 + x) sprite).foldl Screen.turnOver drawn) := by
  induction sprite generalizing i drawn with
  | nil => rfl
  | cons row rest ih =>
    have before : (y + i) * Screen.width < 2 ^ 64 := by
      simp only [Screen.width]
      omega
    have start : (y + i) * Screen.width + x < 2 ^ 64 := by
      simp only [Screen.width]
      omega
    rw [drawRows, fit_of_lt (by omega), ok_bind, fit_of_lt before, ok_bind, fit_of_lt start, ok_bind]
    by_cases off : 2048 ≤ (y + i) * 64 + x
    · rw [Screen.covered_of_le _ off]
      exact if_pos off
    · have bits : drawBits ((y + i) * Screen.width + x) row (List.range Screen.spriteWidth) drawn =
          .ok (((List.range Screen.spriteWidth).filterMap
            (Screen.covered? ((y + i) * 64 + x) row)).foldl Screen.turnOver drawn) := by
        rw [List.range_eq_range']
        exact drawBits_eq row (Nat.lt_of_not_le off) 0 8 (by omega) drawn
      have below : (y + (i + 1)) * 64 + x = (y + i) * 64 + x + Screen.width := by
        simp only [Screen.width]
        omega
      refine (if_neg off).trans ?_
      rw [bits, ok_bind, ih (i + 1) (by omega), below, Screen.covered, List.foldl_append]

theorem draw_eq (s : Screen) (x y : UInt8) (sprite : List UInt8) :
    draw s x y sprite = .ok (s.draw x y sprite) := by
  have column : x.toNat % Screen.width < 64 := Nat.mod_lt _ (by decide)
  have line : y.toNat % Screen.height < 32 := Nat.mod_lt _ (by decide)
  rw [draw, drawRows_eq column line 0 (by omega), Screen.draw_eq_foldl]
  rfl

end Guard
end ChipEight
