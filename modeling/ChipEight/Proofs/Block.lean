import ChipEight.Proofs.Circle

/-! Blocks of registers in memory. The store and the load of a block go round the circle of memory byte by
byte, each from the same place, and no block is longer than the circle. So a load gives back what was
stored there, and storing what was loaded there changes nothing. -/
namespace ChipEight

namespace Memory

theorem write_read (m : Memory) (a : UInt16) : m.write a (m.read a) = m := by
  unfold write read
  simp

theorem readRange_succ (m : Memory) (a : UInt16) (n : Nat) :
    m.readRange a (n + 1) = m.read a :: m.readRange (a + 1) n := by
  have start : a + UInt16.ofNat 0 = a := UInt16.add_zero a
  simp only [readRange, List.range_succ_eq_map, List.map_cons, List.map_map, start]
  congr 1
  apply List.map_congr_left
  intro k _
  exact congrArg m.read (add_succ a k)

/-- Writing back what is there changes nothing, however often it goes round. -/
theorem writeAll_readRange (m : Memory) (a : UInt16) (n : Nat) :
    m.writeAll a (m.readRange a n) = m := by
  induction n generalizing a with
  | zero => rfl
  | succ n ih => rw [readRange_succ, writeAll, write_read, ih]

end Memory

namespace Registers

theorem getElem_upTo (r : Registers) {x : Register} {k : Nat} (inside : k < (r.upTo x).length)
    (bound : k < 16) : (r.upTo x)[k] = r.get ⟨k, bound⟩ := by
  simp [upTo, get]

theorem upTo_fillUpTo (r : Registers) (x : Register) (m : Memory) (a : UInt16) :
    (r.fillUpTo x fun k => m.read (a + UInt16.ofNat k)).upTo x = m.readRange a (x + 1) := by
  apply List.ext_getElem
  · rw [length_upTo, Memory.length_readRange]
  · intro k inside within
    rw [Memory.length_readRange] at within
    have bound : k < 16 := by omega
    have filled : (⟨k, bound⟩ : Register) ≤ x := Nat.le_of_lt_succ within
    rw [getElem_upTo _ inside bound, get_fillUpTo, if_pos filled]
    simp [Memory.readRange]

theorem get_passBlock (r : Registers) (moves : Bool) (x k : Register) :
    (r.passBlock moves x).get k = r.get k := by
  cases moves <;> rfl

theorem upTo_passBlock (r : Registers) (moves : Bool) (x y : Register) :
    (r.passBlock moves x).upTo y = r.upTo y := by
  cases moves <;> rfl

theorem toNat_index_passBlock (r : Registers) (moves : Bool) (x : Register) :
    (r.passBlock moves x).i.toNat =
      if moves then (r.i.toNat + x + 1) % 0x10000 else r.i.toNat := by
  cases moves with
  | false => rfl
  | true =>
    have sum : (r.passBlock true x).i = r.i + UInt16.ofNat (x + 1) := rfl
    rw [sum, UInt16.toNat_add, UInt16.toNat_ofNat']
    simp only [if_true]
    omega

end Registers

namespace Chip

/-- The index that a block of the registers up to `VX` leaves. -/
def behindBlock (c : Chip) (x : Register) : Nat :=
  if c.dialect.blockMovesIndex then (c.registers.i.toNat + x + 1) % 0x10000 else c.registers.i.toNat

theorem behindBlock_congr {c d : Chip} (dialect : d.dialect = c.dialect)
    (index : d.registers.i = c.registers.i) (x : Register) : d.behindBlock x = c.behindBlock x := by
  rw [behindBlock, behindBlock, dialect, index]

section
variable (c : Chip) (x : Register) (wait : KeyWait)

theorem execute_storeBlock : c.execute wait (.storeBlock x) = ⟨{ c with
    memory := c.memory.writeAll c.registers.i (c.registers.upTo x)
    registers := c.registers.passBlock c.dialect.blockMovesIndex x }.move .stay, .ok .quiet⟩ := by
  rw [execute_of_completes (.storeBlock x), passBlock_registers]
  rfl

theorem execute_loadBlock : c.execute wait (.loadBlock x) = ⟨{ c with
    registers := (c.registers.fillUpTo x fun k => c.memory.read
      (c.registers.i + UInt16.ofNat k)).passBlock c.dialect.blockMovesIndex x }.move .stay, .ok .quiet⟩ := by
  rw [execute_of_completes (.loadBlock x), passBlock_registers]
  rfl

theorem index_storeBlock :
    (c.execute wait (.storeBlock x)).chip.registers.i.toNat = c.behindBlock x := by
  rw [execute_storeBlock]
  exact c.registers.toNat_index_passBlock _ x

theorem index_loadBlock :
    (c.execute wait (.loadBlock x)).chip.registers.i.toNat = c.behindBlock x := by
  rw [execute_loadBlock]
  exact (c.registers.fillUpTo x _).toNat_index_passBlock _ x

theorem memory_storeBlock : (c.execute wait (.storeBlock x)).chip.memory =
    c.memory.writeAll c.registers.i (c.registers.upTo x) := by
  rw [execute_storeBlock]
  rfl

theorem memory_loadBlock : (c.execute wait (.loadBlock x)).chip.memory = c.memory := by
  rw [execute_loadBlock]
  rfl

theorem v_loadBlock (k : Register) : (c.execute wait (.loadBlock x)).chip.v k =
    if k ≤ x then c.memory.read (c.registers.i + UInt16.ofNat k) else c.v k := by
  rw [execute_loadBlock]
  refine (Registers.get_passBlock _ _ x k).trans ?_
  rw [Registers.get_fillUpTo]
  rfl

theorem upTo_loadBlock : (c.execute wait (.loadBlock x)).chip.registers.upTo x =
    c.memory.readRange c.registers.i (x + 1) := by
  rw [execute_loadBlock]
  refine (Registers.upTo_passBlock _ _ x x).trans ?_
  exact c.registers.upTo_fillUpTo x c.memory c.registers.i

end

theorem load_after_store {c d : Chip} {x k : Register} {wait : KeyWait} (within : k ≤ x)
    (memory : d.memory = (c.execute wait (.storeBlock x)).chip.memory)
    (index : d.registers.i = c.registers.i) :
    d.memory.read (d.registers.i + UInt16.ofNat k) = c.v k := by
  have long : k.val < (c.registers.upTo x).length := by
    rw [Registers.length_upTo]
    exact Nat.lt_succ_of_le within
  have short : (c.registers.upTo x).length ≤ 0x1000 := by
    rw [Registers.length_upTo]
    omega
  rw [memory, memory_storeBlock, index, Memory.read_writeAll_inside short _ _ long]
  exact c.registers.getElem_upTo long k.isLt

theorem store_after_load {c d : Chip} {x : Register} (wait : KeyWait)
    (memory : d.memory = (c.execute wait (.loadBlock x)).chip.memory)
    (index : d.registers.i = c.registers.i)
    (kept : d.registers.upTo x = (c.execute wait (.loadBlock x)).chip.registers.upTo x) :
    d.memory.writeAll d.registers.i (d.registers.upTo x) = c.memory := by
  rw [memory, index, kept, memory_loadBlock, upTo_loadBlock, Memory.writeAll_readRange]

/-- The law of blocks. A block that is stored comes back with a load from the same index, whatever the
registers hold by then, and a block that is loaded leaves memory as it is when it is stored again. The
load never writes memory, and both leave the index behind the block or alone, as the dialect has it. -/
theorem block_comes_back (c : Chip) (x : Register) (wait again : KeyWait) (v : Vector UInt8 16) :
    let stored := c.execute wait (.storeBlock x)
    let changed : Chip := { stored.chip with
      registers := { stored.chip.registers with v := v, i := c.registers.i } }
    let reloaded := changed.execute again (.loadBlock x)
    let loaded := c.execute wait (.loadBlock x)
    let restored := (loaded.chip.setIndex c.registers.i).execute again (.storeBlock x)
    let behind := if c.dialect.blockMovesIndex then (c.registers.i.toNat + x + 1) % 0x10000
      else c.registers.i.toNat
    (stored.result = .ok .quiet ∧ stored.chip.registers.i.toNat = behind) ∧
    (reloaded.result = .ok .quiet ∧ reloaded.chip.registers.i.toNat = behind ∧
      (∀ k, reloaded.chip.v k = if k ≤ x then c.v k else changed.v k) ∧
      reloaded.chip.memory = stored.chip.memory) ∧
    (loaded.result = .ok .quiet ∧ loaded.chip.registers.i.toNat = behind ∧
      loaded.chip.memory = c.memory) ∧
    restored.result = .ok .quiet ∧ restored.chip.registers.i.toNat = behind ∧
      restored.chip.memory = c.memory := by
  intro stored changed reloaded loaded restored behind
  refine ⟨⟨?_, ?_⟩, ⟨?_, ?_, ?_, ?_⟩, ⟨?_, ?_, ?_⟩, ?_, ?_, ?_⟩
  · exact congrArg Outcome.result (c.execute_storeBlock x wait)
  · exact c.index_storeBlock x wait
  · exact congrArg Outcome.result (changed.execute_loadBlock x again)
  · have dialect : changed.dialect = c.dialect := execute_dialect wait _ c
    exact (changed.index_loadBlock x again).trans (behindBlock_congr dialect rfl x)
  · intro k
    refine (changed.v_loadBlock x again k).trans ?_
    by_cases within : k ≤ x
    · rw [if_pos within, if_pos within]
      exact load_after_store within rfl rfl
    · rw [if_neg within, if_neg within]
  · exact changed.memory_loadBlock x again
  · exact congrArg Outcome.result (c.execute_loadBlock x wait)
  · exact c.index_loadBlock x wait
  · exact c.memory_loadBlock x wait
  · exact congrArg Outcome.result ((loaded.chip.setIndex c.registers.i).execute_storeBlock x again)
  · have dialect : (loaded.chip.setIndex c.registers.i).dialect = c.dialect := execute_dialect wait _ c
    exact (index_storeBlock _ x again).trans (behindBlock_congr dialect rfl x)
  · exact (memory_storeBlock _ x again).trans (store_after_load wait rfl rfl rfl)

end Chip
end ChipEight
