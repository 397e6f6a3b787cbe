import ChipEight.Chip
import ChipEight.Session

/-! The machine at its start. A rom that is neither empty nor too long always gives a machine, and
always the same one; a session around it needs a rate besides. -/
namespace ChipEight

theorem Memory.loadProgram_eq_ok {m n : Memory} {program : List UInt8} :
    m.loadProgram program = .ok n ↔
      program ≠ [] ∧ program.length ≤ Layout.programRoom ∧
        n = m.writeAll Layout.programStart program := by
  unfold loadProgram
  by_cases empty : program = []
  · simp [empty]
  · by_cases long : Layout.programRoom < program.length
    · simp [empty, long, Nat.not_le_of_lt long]
    · simp [empty, long, Nat.le_of_not_lt long, eq_comm]

namespace Chip

/-- The machine that a fitting rom starts as. -/
def boot (rom : Rom) (config : Config) (random : RandomStream) : Chip where
  name := rom.name
  opcode := 0
  memory := (Memory.zero.loadFont config.font).writeAll Layout.programStart rom.data
  registers := .initial
  stack := .empty
  timers := .zero
  screen := .blank
  keypad := .initial
  random
  dialect := config.dialect

variable {rom : Rom} {config : Config} {random : RandomStream} {c : Chip}

theorem start_eq_ok_iff : start rom config random = .ok c ↔
    rom.data ≠ [] ∧ rom.data.length ≤ Layout.programRoom ∧ c = boot rom config random := by
  simp only [start, startImage, bind_eq_ok, pure_eq_ok, Memory.loadProgram_eq_ok]
  constructor
  · rintro ⟨memory, ⟨filled, fits, rfl⟩, rfl⟩
    exact ⟨filled, fits, rfl⟩
  · rintro ⟨filled, fits, rfl⟩
    exact ⟨_, ⟨filled, fits, rfl⟩, rfl⟩

end Chip

namespace Session

variable {rom : Rom} {config : Config} {random : RandomStream} {s : Session}

theorem open?_eq_ok_iff : open? rom config random = .ok s ↔
    config.rate ≠ 0 ∧ ∃ c, Chip.start rom config random = .ok c ∧ s = around c := by
  by_cases zero : config.rate = 0
  · simp [open?, zero, throw, throwThe, MonadExceptOf.throw, bind, Except.bind]
  · unfold open?
    cases Chip.start rom config random with
    | error fault => simp [zero, bind, Except.bind]
    | ok c => simp [zero, bind, Except.bind, pure, Except.pure, eq_comm]

end Session
end ChipEight
