import ChipEight.Proofs.Failure
import ChipEight.Proofs.Interruption
import ChipEight.Proofs.KeyWait
import ChipEight.Proofs.Start

/-! Where a machine goes on. The next program counter is put together from the fetch, from the instruction and
from the cut to the size of memory; here it is told by the word alone, in one table over the patterns, with the
registers, the stack and the keypad as the step finds them. -/
namespace ChipEight

/-- The register that the nibble `X` names. -/
def Opcode.vx (w : Opcode) : Register := ⟨w.x, w.x_lt⟩

/-- The register that the nibble `Y` names. -/
def Opcode.vy (w : Opcode) : Register := ⟨w.y, w.y_lt⟩

/-- The register whose value the jump `BNNN` adds. -/
def Opcode.jumpRegister (w : Opcode) (dialect : Dialect) : Register where
  val := if dialect.jumpAddsVx then w.x else 0
  isLt := by
    split
    · exact w.x_lt
    · decide

/-- The wait began on a keypad that has become this one. -/
def KeyWait.GoesOnAt (w : KeyWait) (p : Keypad) : Prop :=
  ∃ before events, w = Keypad.beginWait before ∧ p = before.afterAll events

/-- A wait is called off by a closed keypad only: a count that has moved on comes with a latest key. -/
theorem KeyWait.GoesOnAt.cancelled_iff {w : KeyWait} {p : Keypad} (h : w.GoesOnAt p) :
    w.poll p = .cancelled ↔ p.closed = true := by
  obtain ⟨before, events, rfl, rfl⟩ := h
  constructor
  · intro cancelled
    obtain untouched | ⟨k, latest⟩ := Key.untouched_or_latest events
    · have none : events.countP KeyEvent.hits = 0 := by simpa [List.countP_eq_zero] using untouched
      have few : events.countP KeyEvent.hits < 2 ^ 64 := by omega
      exact (poll_eq_cancelled_iff few).mp cancelled
    · have last := Keypad.last_of_latest latest before
      unfold poll at cancelled
      rw [last] at cancelled
      split at cancelled
      · next closed => exact closed
      · split at cancelled <;> contradiction
  · exact Chip.poll_of_closed

namespace Chip

/-- The word leaves out the next one. -/
def Skips (c : Chip) (w : Opcode) : Prop :=
  w.family = 0x3 ∧ c.v w.vx = w.nn ∨
  w.family = 0x4 ∧ c.v w.vx ≠ w.nn ∨
  w.family = 0x5 ∧ w.n = 0 ∧ c.v w.vx = c.v w.vy ∨
  w.family = 0x9 ∧ w.n = 0 ∧ c.v w.vx ≠ c.v w.vy ∨
  w.family = 0xE ∧ w.nn = 0x9E ∧ c.keypad.held.get (c.keyOf w.x) = true ∨
  w.family = 0xE ∧ w.nn = 0xA1 ∧ c.keypad.held.get (c.keyOf w.x) = false

instance (c : Chip) (w : Opcode) : Decidable (c.Skips w) := inferInstanceAs (Decidable (_ ∨ _))

/-- Where the machine goes on after the word at its program counter. -/
def successor (c : Chip) : Nat :=
  let w := c.nextOpcode
  let p := c.registers.pc.toNat
  if w.family = 0x1 ∨ w.family = 0x2 then w.nnn.toNat
  else if w.family = 0xB then
    (w.nnn.toNat + (c.v (w.jumpRegister c.dialect)).toNat) % 0x1000
  else if w = 0x00EE then (c.stack.frames.headD 0).toNat % 0x1000
  else if c.Skips w then (p + 4) % 0x1000
  else if w.IsMisc 0x0A ∧ c.keypad.closed = true then p
  else (p + 2) % 0x1000

variable {c : Chip} {wait : KeyWait}

theorem ne_ret_of_family {w : Opcode} (other : w.family ≠ 0) : w ≠ 0x00EE := by
  rintro rfl
  exact other rfl

theorem successor_of_jump (jump : c.nextOpcode.family = 0x1 ∨ c.nextOpcode.family = 0x2) :
    c.successor = c.nextOpcode.nnn.toNat := if_pos jump

theorem successor_of_offset (family : c.nextOpcode.family = 0xB) : c.successor =
    (c.nextOpcode.nnn.toNat +
      (c.v (c.nextOpcode.jumpRegister c.dialect)).toNat) % 0x1000 := by
  simp [successor, family]

theorem successor_of_ret (word : c.nextOpcode = 0x00EE) :
    c.successor = (c.stack.frames.headD 0).toNat % 0x1000 := by
  have family : Opcode.family 0x00EE = 0 := rfl
  simp [successor, word, family]

theorem successor_of_clear (word : c.nextOpcode = 0x00E0) :
    c.successor = (c.registers.pc.toNat + 2) % 0x1000 := by
  have family : Opcode.family 0x00E0 = 0 := rfl
  simp [successor, Skips, Opcode.IsMisc, word, family]

theorem successor_of_plain (plain : c.nextOpcode.family ∈ [0x6, 0x7, 0x8, 0xA, 0xC, 0xD]) :
    c.successor = (c.registers.pc.toNat + 2) % 0x1000 := by
  have ret : c.nextOpcode ≠ 0x00EE := by
    apply ne_ret_of_family
    rintro zero
    simp [zero] at plain
  simp only [List.mem_cons, List.not_mem_nil, or_false] at plain
  rcases plain with family | family | family | family | family | family <;>
    simp [successor, Skips, Opcode.IsMisc, ret, family]

theorem successor_of_skip (skip : c.nextOpcode.family ∈ [0x3, 0x4, 0x5, 0x9, 0xE]) : c.successor =
    (c.registers.pc.toNat + if c.Skips c.nextOpcode then 4 else 2) % 0x1000 := by
  have ret : c.nextOpcode ≠ 0x00EE := by
    apply ne_ret_of_family
    rintro zero
    simp [zero] at skip
  simp only [List.mem_cons, List.not_mem_nil, or_false] at skip
  rcases skip with family | family | family | family | family <;>
    by_cases skips : c.Skips c.nextOpcode <;> simp [successor, skips, Opcode.IsMisc, ret, family]

theorem successor_of_misc {nn : UInt8} (misc : c.nextOpcode.IsMisc nn) : c.successor =
    if nn = 0x0A ∧ c.keypad.closed = true then c.registers.pc.toNat
    else (c.registers.pc.toNat + 2) % 0x1000 := by
  obtain ⟨family, rfl⟩ := misc
  have ret : c.nextOpcode ≠ 0x00EE := ne_ret_of_family (by simp [family])
  simp [successor, Skips, Opcode.IsMisc, ret, family]

theorem not_skips_of_not_listed {w : Opcode} (outside : w.listed = false) : ¬c.Skips w := by
  rintro (⟨family, -⟩ | ⟨family, -⟩ | ⟨family, low, -⟩ | ⟨family, low, -⟩ | ⟨family, low, -⟩ |
    ⟨family, low, -⟩)
  all_goals simp_all [Opcode.listed]

theorem successor_of_not_listed (outside : c.nextOpcode.listed = false) :
    c.successor = (c.registers.pc.toNat + 2) % 0x1000 := by
  have elsewhere {t : Nat} (whole : t ∈ [0x1, 0x2, 0xB]) : c.nextOpcode.family ≠ t := by
    rintro rfl
    simp only [List.mem_cons, List.not_mem_nil, or_false] at whole
    rcases whole with family | family | family <;> simp [Opcode.listed, family] at outside
  have ret : c.nextOpcode ≠ 0x00EE := by
    intro ret
    rw [ret] at outside
    contradiction
  have await : ¬c.nextOpcode.IsMisc 0x0A := by
    rintro ⟨family, low⟩
    simp [Opcode.listed, family, low] at outside
  have skips := not_skips_of_not_listed (c := c) outside
  simp [successor, elsewhere, ret, await, skips]

/-- A condition that a word states holds exactly if the word leaves out the next one. -/
theorem skips_iff_of_fits {w : Opcode} {condition : Condition} {told : Bool} (fits : condition.Fits w)
    (holds : c.holds condition = .ok told) : c.Skips w ↔ told = true := by
  cases condition with
  | equal x nn | notEqual x nn =>
    obtain ⟨family, rfl, rfl⟩ := fits
    rw [Chip.holds, register_of_lt w.x_lt] at holds
    cases holds
    simp [Skips, family, Opcode.vx]
  | sameRegister x y | otherRegister x y =>
    obtain ⟨family, low, rfl, rfl⟩ := fits
    rw [Chip.holds, register_of_lt w.x_lt, register_of_lt w.y_lt] at holds
    cases holds
    simp [Skips, family, low, Opcode.vx, Opcode.vy]
  | keyHeld x | keyUp x =>
    obtain ⟨family, low, rfl⟩ := fits
    rw [Chip.holds, register_of_lt w.x_lt, ok_bind, keyHeld_eq] at holds
    cases holds
    simp [Skips, family, low]

theorem family_of_skip {w : Opcode} {condition : Condition} (fits : condition.Fits w) :
    w.family ∈ [0x3, 0x4, 0x5, 0x9, 0xE] := by
  cases condition <;> simp [fits.1]

/-! ### The move of each instruction -/

theorem pc_stay (c : Chip) : c.fetched.registers.pc.toNat % 0x1000 =
    (c.registers.pc.toNat + 2) % 0x1000 := by
  rw [toNat_pc_fetched, Nat.mod_mod]

theorem pc_skip (c : Chip) : (c.fetched.registers.pc + Opcode.bytes).toNat % 0x1000 =
    (c.registers.pc.toNat + 4) % 0x1000 := by
  have behind := c.toNat_pc_fetched
  simp only [Opcode.bytes, UInt16.toNat_add, UInt16.reduceToNat]
  omega

/-- The way back over a word ends at the word, at the end of memory too. -/
theorem pc_back (inside : c.registers.pc.toNat < 0x1000) :
    (c.fetched.registers.pc - Opcode.bytes).toNat % 0x1000 = c.registers.pc.toNat := by
  have back := congrArg (fun d : Chip => d.registers.pc.toNat) (fetched_back inside)
  rw [← back]
  exact (toNat_pc_setPc _ _).symm

theorem pc_jump (w : Opcode) : w.nnn.toNat % 0x1000 = w.nnn.toNat := by
  rw [Opcode.toNat_nnn, Nat.mod_mod]

/-- A sum with a register has room in a word, so that only the cut to the size of memory counts. -/
theorem pc_offset (w : Opcode) (b : UInt8) :
    (w.nnn + b.toUInt16).toNat % 0x1000 = (w.nnn.toNat + b.toNat) % 0x1000 := by
  rw [UInt16.toNat_add, UInt8.toNat_toUInt16]
  omega

theorem pc_of_completes (inside : c.registers.pc.toNat < 0x1000) (begun : wait.GoesOnAt c.keypad)
    {i : Instruction} {e : Effect} (fits : i.Fits c.nextOpcode)
    (rule : Completes wait c.fetched i e) :
    (e.chip.move e.move).registers.pc.toNat = c.successor := by
  rw [move, toNat_pc_setPc, rule.pc]
  cases rule with
  | load | add | alu | setIndex | random | draw =>
    exact c.pc_stay.trans (successor_of_plain (by simp [fits.1])).symm
  | readDelay | setDelay | setSound | addIndex | pointAtGlyph | storeDecimal | storeBlock
  | loadBlock =>
    rw [successor_of_misc fits.1, if_neg (by simp)]
    exact c.pc_stay
  | unknown w => exact c.pc_stay.trans (successor_of_not_listed fits.2).symm
  | clear => exact c.pc_stay.trans (successor_of_clear fits).symm
  | ret top =>
    have stacked : c.stack.frames = _ := top
    rw [successor_of_ret fits, stacked]
    rfl
  | jump nnn =>
    obtain ⟨family, rfl⟩ := fits
    exact (pc_jump _).trans (successor_of_jump (.inl family)).symm
  | call nnn =>
    obtain ⟨family, rfl⟩ := fits
    exact (pc_jump _).trans (successor_of_jump (.inr family)).symm
  | @jumpOffset _ _ r chosen =>
    obtain ⟨family, rfl, rfl⟩ := fits
    have register : r = c.nextOpcode.jumpRegister c.dialect := Fin.ext chosen
    rw [successor_of_offset family, ← register]
    exact pc_offset _ _
  | @skip _ told holds =>
    have skips : c.Skips c.nextOpcode ↔ told = true := skips_iff_of_fits (c := c.fetched) fits holds
    rw [successor_of_skip (family_of_skip fits)]
    cases told with
    | true =>
      rw [if_pos (skips.mpr rfl)]
      exact c.pc_skip
    | false =>
      rw [if_neg (by simp [skips])]
      exact c.pc_stay
  | key x pressed =>
    have opened : ¬c.keypad.closed = true := by
      intro closed
      have cancelled : wait.poll c.fetched.keypad = .cancelled := begun.cancelled_iff.mpr closed
      rw [pressed] at cancelled
      contradiction
    rw [successor_of_misc fits.1, if_neg fun both => opened both.2]
    exact c.pc_stay
  | cancelled x closed =>
    rw [successor_of_misc fits.1, if_pos ⟨rfl, begun.cancelled_iff.mp closed⟩]
    exact pc_back inside

/-- The law of the program counter. A step that does not fail goes on where the table of the words says, from
anywhere in memory. It fails for a call on a full stack, for a return on an empty one, and as long as nothing has
ended its key wait. -/
theorem step_goes_on (inside : c.registers.pc.toNat < 0x1000) (begun : wait.GoesOnAt c.keypad) :
    (∀ s, (c.step wait).result = .ok s → (c.step wait).chip.registers.pc.toNat = c.successor) ∧
    ((∀ s, (c.step wait).result ≠ .ok s) ↔
      c.nextOpcode.family = 0x2 ∧ CallStack.capacity ≤ c.stack.depth ∨
      c.nextOpcode = 0x00EE ∧ c.stack.depth = 0 ∨
      c.nextOpcode.IsMisc 0x0A ∧ wait.poll c.keypad = .pending) := by
  refine ⟨?_, ?_⟩
  · intro s done
    obtain ⟨e, rule, run⟩ := completes_of_step done
    rw [run]
    exact pc_of_completes inside begun (Instruction.fits_decode _) rule
  · rw [← step_overflow_iff, ← step_underflow_iff, ← step_waiting_iff]
    constructor
    · intro never
      cases result : (c.step wait).result with
      | ok s => exact absurd result (never s)
      | error h =>
        obtain ⟨rfl, -⟩ | ⟨rfl, -⟩ | ⟨rfl, -⟩ := step_error_cases result
        · exact .inl rfl
        · exact .inr (.inl rfl)
        · exact .inr (.inr rfl)
    · rintro (fails | fails | fails) s <;> simp [fails]

/-- The program stores a skip in the last place of memory, so that its second byte is the first one. -/
theorem skip_across_the_end :
    let c := (boot ⟨"AROUND", [0x60, 0x40, 0xAF, 0xFF, 0xF0, 0x55, 0x1F, 0xFF]⟩ .standard
      (.cycle [])).turnAll (.replicate 4 (.step ⟨0⟩))
    c.registers.pc.toNat < 0x1000 ∧ KeyWait.GoesOnAt ⟨0⟩ c.keypad ∧ c.registers.pc = 0xFFF ∧
      (c.step ⟨0⟩).result = .ok .quiet ∧ (c.step ⟨0⟩).chip.registers.pc.toNat = 3 := by
  intro c
  obtain ⟨answer, pc, keypad, goal⟩ :
      (c.step ⟨0⟩).result.toOption = some .quiet ∧ c.registers.pc = 0xFFF ∧
      c.keypad = .initial ∧ c.successor = 3 := by
    decide +kernel
  have done : (c.step ⟨0⟩).result = .ok .quiet := by
    cases result : (c.step ⟨0⟩).result with
    | ok signal => simpa [result, Except.toOption] using answer
    | error h => simp [result, Except.toOption] at answer
  have inside : c.registers.pc.toNat < 0x1000 := by
    rw [pc]
    decide
  have begun : KeyWait.GoesOnAt ⟨0⟩ c.keypad := ⟨.initial, [], rfl, keypad⟩
  have goes_on := (step_goes_on inside begun).1 _ done
  exact ⟨inside, begun, pc, done, goes_on.trans goal⟩

end Chip
end ChipEight
