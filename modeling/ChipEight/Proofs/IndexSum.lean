import ChipEight.Proofs.Index

/-! The sum `FX1E` and its flag. The index keeps sixteen bits, and the flag is read off what they hold
after the sum: it tells whether the sum lies past `0xFFF` as long as sixteen bits hold the whole of it. A
sum that they do not hold ends among the lowest addresses again and raises no flag, far past `0xFFF` as it
is. A loop that goes on adding comes to such a sum. -/
namespace ChipEight

namespace Registers

theorem toNat_sum (a : UInt16) (b : UInt8) :
    (a + b.toUInt16).toNat = (a.toNat + b.toNat) % 0x10000 := by
  rw [UInt16.toNat_add, UInt8.toNat_toUInt16]

theorem toNat_index_addIndex (r : Registers) (setsFlag : Bool) (x : Register) :
    (r.addIndex setsFlag x).i.toNat = (r.i.toNat + (r.get x).toNat) % 0x10000 := by
  have sum : (r.addIndex setsFlag x).i = r.i + (r.get x).toUInt16 := by
    cases setsFlag <;> rfl
  rw [sum, toNat_sum]

theorem pc_addIndex (r : Registers) (setsFlag : Bool) (x : Register) :
    (r.addIndex setsFlag x).pc = r.pc := by
  cases setsFlag <;> rfl

theorem get_addIndex_of_ne (r : Registers) (setsFlag : Bool) (x : Register) {k : Register}
    (other : k ≠ .flag) : (r.addIndex setsFlag x).get k = r.get k := by
  cases setsFlag with
  | false => rfl
  | true => exact (get_set _ _ _ _).trans (if_neg other.symm)

/-- A sum that goes round falls below `0x100`, since no byte is larger. -/
theorem flag_addIndex (r : Registers) (x : Register) :
    (r.addIndex true x).get .flag =
      if 0xFFF < r.i.toNat + (r.get x).toNat ∧ r.i.toNat + (r.get x).toNat < 0x10000
      then 1 else 0 := by
  have index := r.i.toNat_lt
  have addend := (r.get x).toNat_lt
  have limit : UInt16.toNat 0x1000 = 0x1000 := rfl
  have past : 0x1000 ≤ r.i + (r.get x).toUInt16 ↔
      0xFFF < r.i.toNat + (r.get x).toNat ∧ r.i.toNat + (r.get x).toNat < 0x10000 := by
    rw [UInt16.le_iff_toNat_le, toNat_sum, limit]
    omega
  refine (get_set _ _ _ _).trans ?_
  simp [past]

end Registers

theorem Instruction.decode_of_sum {w : Opcode} (sum : w.IsMisc 0x1E) : decode w = .addIndex w.x := by
  rw [decode_of_misc sum]
  rfl

namespace Chip

variable {c : Chip} {x : Register}

theorem step_sum (sum : c.nextOpcode.IsMisc 0x1E) (adds : x.val = c.nextOpcode.x) (wait : KeyWait) :
    c.step wait = ⟨{ c.fetched with
      registers := c.fetched.registers.addIndex c.dialect.indexSetsFlag x }.move .stay, .ok .quiet⟩ := by
  have rule : Completes wait c.fetched (.decode c.nextOpcode) { chip := c.fetched.addIndex x } := by
    rw [Instruction.decode_of_sum sum, ← adds]
    exact .addIndex x
  rw [step_of_completes rule, addIndex_registers]
  rfl

theorem v_step_sum (sum : c.nextOpcode.IsMisc 0x1E) (adds : x.val = c.nextOpcode.x) (wait : KeyWait)
    (k : Register) : (c.step wait).chip.v k =
      (c.fetched.registers.addIndex c.dialect.indexSetsFlag x).get k := by
  rw [step_sum sum adds]
  rfl

theorem flag_step_sum (sum : c.nextOpcode.IsMisc 0x1E) (adds : x.val = c.nextOpcode.x)
    (on : c.dialect.indexSetsFlag = true) (wait : KeyWait) : (c.step wait).chip.v .flag =
      if 0xFFF < c.registers.i.toNat + (c.v x).toNat ∧ c.registers.i.toNat + (c.v x).toNat < 0x10000
      then 1 else 0 := by
  rw [v_step_sum sum adds, on]
  exact c.fetched.registers.flag_addIndex x

/-- The law of the sum. The index becomes the sum modulo `0x10000`. With its rule on, the flag tells
whether the sum lies past `0xFFF`, except that it stays down for a sum past `0xFFFF`; with the rule off
it is left alone, as all other registers always are. -/
theorem index_sum_flag (sum : c.nextOpcode.IsMisc 0x1E) (wait : KeyWait) :
    let x : Register := ⟨c.nextOpcode.x, c.nextOpcode.x_lt⟩
    let total := c.registers.i.toNat + (c.v x).toNat
    let d := (c.step wait).chip
    (c.step wait).result = .ok .quiet ∧
    d.registers.i.toNat = total % 0x10000 ∧
    (c.dialect.indexSetsFlag = true →
      d.v .flag = if 0xFFF < total ∧ total < 0x10000 then 1 else 0) ∧
    (c.dialect.indexSetsFlag = false → d.v .flag = c.v .flag) ∧
    ∀ k, k ≠ .flag → d.v k = c.v k := by
  intro x total d
  have run := step_sum (x := x) sum rfl wait
  have after := v_step_sum (x := x) sum rfl wait
  refine ⟨?_, ?_, ?_, ?_, ?_⟩
  · rw [run]
  · simp only [d, run]
    exact c.fetched.registers.toNat_index_addIndex _ x
  · intro on
    exact flag_step_sum (x := x) sum rfl on wait
  · intro off
    rw [after, off]
    rfl
  · intro k other
    rw [after]
    exact c.fetched.registers.get_addIndex_of_ne _ x other

/-- The flag is both what is added and where the answer goes. -/
theorem index_sum_of_flag :
    let c := (boot ⟨"FLAG", [0x6F, 0xFF, 0xAF, 0x01, 0xFF, 0x1E]⟩ .standard (.cycle [])).turnAll
      (.replicate 2 (.step ⟨0⟩))
    let d := (c.step ⟨0⟩).chip
    (c.nextOpcode.IsMisc 0x1E ∧ c.dialect.indexSetsFlag = true) ∧
    (c.step ⟨0⟩).result = .ok .quiet ∧ d.registers.i.toNat = 0x1000 ∧ d.v .flag = 1 := by
  intro c d
  obtain ⟨sum, on, index, addend⟩ : c.nextOpcode.IsMisc 0x1E ∧ c.dialect.indexSetsFlag = true ∧
      c.registers.i = 0xF01 ∧ c.v ⟨c.nextOpcode.x, c.nextOpcode.x_lt⟩ = 0xFF := by
    decide +kernel
  obtain ⟨quiet, place, flag, -⟩ := index_sum_flag sum ⟨0⟩
  rw [index, addend] at place flag
  exact ⟨⟨sum, on⟩, quiet, place, flag on⟩

/-- The word is the sum `FX1E`, and behind it stands a jump back to it. -/
structure Climbing (x : Register) (c : Chip) : Prop where
  addend : x ≠ .flag
  sum : c.nextOpcode.IsMisc 0x1E
  adds : x.val = c.nextOpcode.x
  jump : (c.memory.fetch (c.registers.pc + Opcode.bytes)).family = 0x1
  back : (c.memory.fetch (c.registers.pc + Opcode.bytes)).nnn = c.registers.pc

/-- The second machine stands where the first did, with `VX` added to the index so many times. -/
structure Raised (x : Register) (n : Nat) (c d : Chip) : Prop where
  memory : d.memory = c.memory
  dialect : d.dialect = c.dialect
  pc : d.registers.pc = c.registers.pc
  addend : d.v x = c.v x
  index : d.registers.i.toNat = (c.registers.i.toNat + n * (c.v x).toNat) % 0x10000

theorem Raised.word {n : Nat} {d : Chip} (raised : Raised x n c d) : d.nextOpcode = c.nextOpcode := by
  rw [nextOpcode, raised.memory, raised.pc]
  rfl

theorem Climbing.raised {n : Nat} {d : Chip} (climbing : Climbing x c) (raised : Raised x n c d) :
    Climbing x d := by
  constructor
  · exact climbing.addend
  · rw [raised.word]
    exact climbing.sum
  · rw [raised.word]
    exact climbing.adds
  · rw [raised.memory, raised.pc]
    exact climbing.jump
  · rw [raised.memory, raised.pc]
    exact climbing.back

theorem Raised.trans {n m : Nat} {d e : Chip} (first : Raised x n c d) (second : Raised x m d e) :
    Raised x (n + m) c e where
  memory := second.memory.trans first.memory
  dialect := second.dialect.trans first.dialect
  pc := second.pc.trans first.pc
  addend := second.addend.trans first.addend
  index := by
    rw [second.index, first.index, first.addend, Nat.mod_add_mod, Nat.add_mul, Nat.add_assoc]

theorem step_jump (jump : c.nextOpcode.family = 0x1) (wait : KeyWait) :
    c.step wait = ⟨c.fetched.move (.jump c.nextOpcode.nnn), .ok .quiet⟩ := by
  have rule : Completes wait c.fetched (.decode c.nextOpcode)
      { chip := c.fetched, move := .jump c.nextOpcode.nnn } := by
    rw [Instruction.decode_of_jump jump]
    exact .jump _
  exact step_of_completes rule

theorem Climbing.round (climbing : Climbing x c) (wait : KeyWait) :
    Raised x 1 c (c.turnAll (.replicate 2 (.step wait))) := by
  obtain ⟨addend, sum, adds, jump, back⟩ := climbing
  have summed := step_sum sum adds wait
  let s := (c.step wait).chip
  have pc : Memory.place s.registers.pc = Memory.place (c.registers.pc + Opcode.bytes) := by
    simp only [s, summed]
    refine (Memory.place_mod _).trans ?_
    rw [PcMove.apply, Registers.pc_addIndex]
    exact Memory.place_mod _
  have word : s.nextOpcode = c.memory.fetch (c.registers.pc + Opcode.bytes) := by
    have memory : s.memory = c.memory := by
      simp only [s, summed]
      rfl
    rw [nextOpcode, memory, Memory.fetch_place pc]
  rw [← word] at jump back
  have jumped := step_jump jump wait
  have run : c.turnAll (.replicate 2 (.step wait)) = s.fetched.move (.jump s.nextOpcode.nnn) :=
    congrArg Outcome.chip jumped
  rw [run]
  constructor
  · simp only [s, summed]
    rfl
  · simp only [s, summed]
    rfl
  · have inside : s.nextOpcode.nnn % 0x1000 = s.nextOpcode.nnn := by
      apply UInt16.toNat_inj.mp
      simp [Opcode.nnn]
    exact inside.trans back
  · simp only [s, summed]
    exact c.fetched.registers.get_addIndex_of_ne _ x addend
  · simp only [s, summed, Nat.one_mul]
    exact c.fetched.registers.toNat_index_addIndex _ x

theorem turnAll_replicate_add (c : Chip) (turn : Turn) (n m : Nat) :
    c.turnAll (.replicate (n + m) turn) = (c.turnAll (.replicate n turn)).turnAll (.replicate m turn) := by
  rw [← turnAll_append, List.replicate_append_replicate]

/-- The loop adds as often as it goes round, modulo `0x10000`. -/
theorem Climbing.rounds (climbing : Climbing x c) (wait : KeyWait) (n : Nat) :
    Raised x n c (c.turnAll (.replicate (2 * n) (.step wait))) := by
  induction n generalizing c with
  | zero =>
    refine ⟨rfl, rfl, rfl, rfl, ?_⟩
    have bound := c.registers.i.toNat_lt
    simp only [Nat.zero_mul, Nat.add_zero]
    exact (Nat.mod_eq_of_lt bound).symm
  | succ n ih =>
    have first := climbing.round wait
    have later := ih (climbing.raised first)
    rw [Nat.add_comm n 1, Nat.mul_add, turnAll_replicate_add]
    exact first.trans later

/-- Every such loop comes to a sum past `0xFFFF`, and that sum raises no flag. -/
theorem Climbing.passes_word (climbing : Climbing x c) (on : c.dialect.indexSetsFlag = true)
    (more : 0 < (c.v x).toNat) (wait : KeyWait) :
    let rounds := (0xFFFF - c.registers.i.toNat) / (c.v x).toNat
    let d := c.turnAll (.replicate (2 * rounds) (.step wait))
    Raised x rounds c d ∧ 0xFFFF < d.registers.i.toNat + (d.v x).toNat ∧
      (d.step wait).result = .ok .quiet ∧ (d.step wait).chip.v .flag = 0 := by
  intro rounds d
  have raised : Raised x rounds c d := climbing.rounds wait rounds
  have there := climbing.raised raised
  have below : rounds * (c.v x).toNat ≤ 0xFFFF - c.registers.i.toNat := Nat.div_mul_le_self _ _
  have above : 0xFFFF - c.registers.i.toNat < rounds * (c.v x).toNat + (c.v x).toNat :=
    Nat.lt_div_mul_add more
  have index : d.registers.i.toNat = c.registers.i.toNat + rounds * (c.v x).toNat := by
    have start := c.registers.i.toNat_lt
    rw [raised.index]
    omega
  have past : 0xFFFF < d.registers.i.toNat + (d.v x).toNat := by
    rw [index, raised.addend]
    omega
  have flag := flag_step_sum there.sum there.adds (raised.dialect ▸ on) wait
  refine ⟨raised, past, ?_, ?_⟩
  · rw [step_sum there.sum there.adds]
  · rw [flag]
    exact if_neg fun within => absurd past (by omega)

/-- From `0xFFF` on the index takes 240 rounds to `0xFF0F`, and the next sum passes `0xFFFF`. -/
theorem climb_past_word :
    let rom : Rom := ⟨"CLIMB", [0x60, 0xFF, 0xAF, 0xFF, 0xF0, 0x1E, 0x12, 0x04]⟩
    let c := (boot rom .standard (.cycle [])).turnAll (.replicate 482 (.step ⟨0⟩))
    start rom .standard (.cycle []) = .ok (boot rom .standard (.cycle [])) ∧
    c.dialect.indexSetsFlag = true ∧ c.nextOpcode = 0xF01E ∧
    0xFFF < c.registers.i.toNat + (c.v 0).toNat ∧
    (c.step ⟨0⟩).result = .ok .quiet ∧ (c.step ⟨0⟩).chip.v .flag = 0 := by
  intro rom c
  let b := (boot rom .standard (.cycle [])).turnAll (.replicate 2 (.step ⟨0⟩))
  obtain ⟨word, pc, index, addend, behind, on⟩ : b.nextOpcode = 0xF01E ∧
      b.registers.pc = 0x204 ∧ b.registers.i = 0xFFF ∧ b.v 0 = 0xFF ∧
      b.memory.fetch (b.registers.pc + Opcode.bytes) = 0x1204 ∧ b.dialect.indexSetsFlag = true := by
    decide +kernel
  have climbing : Climbing 0 b := by
    constructor
    · decide
    · rw [word]
      decide
    · rw [word]
      decide
    · rw [behind]
      decide
    · rw [behind, pc]
      decide
  have rounds : (0xFFFF - b.registers.i.toNat) / (b.v 0).toNat = 240 := by
    rw [index, addend]
    rfl
  have more : 0 < (b.v 0).toNat := by
    rw [addend]
    decide
  have turns : c = b.turnAll (.replicate (2 * 240) (.step ⟨0⟩)) := turnAll_replicate_add _ _ 2 480
  obtain ⟨raised, past, quiet, flag⟩ := climbing.passes_word on more ⟨0⟩
  rw [rounds, ← turns] at raised past quiet flag
  -- the 482 turns are not to be computed
  clear_value c
  refine ⟨?_, ?_, raised.word.trans word, ?_, quiet, flag⟩
  · exact start_eq_ok_iff.mpr ⟨by decide, by decide, rfl⟩
  · rw [raised.dialect]
    exact on
  · omega

end Chip
end ChipEight
