import ChipEight.Proofs.Guard.Machine
import ChipEight.Proofs.Session.Moves
import ChipEight.Proofs.Simulation
import ChipEight.Proofs.Start

/-! The rules of a dialect one by one. Each rule concerns the instructions of a few words, and among those
only the ones for which it makes a difference. Two machines whose dialects differ in a single rule stay the
same as long as they meet no such word, and no dialect is ever changed. -/
namespace ChipEight

/-- The rules that a dialect settles. -/
inductive Dialect.Rule where
  | shiftsVy
  | jumpAddsVx
  | blockMovesIndex
  | indexSetsFlag
  deriving DecidableEq, Repr

def Dialect.holds (d : Dialect) : Rule → Bool
  | .shiftsVy => d.shiftsVy
  | .jumpAddsVx => d.jumpAddsVx
  | .blockMovesIndex => d.blockMovesIndex
  | .indexSetsFlag => d.indexSetsFlag

def AluOp.shifts : AluOp → Bool
  | .shiftRight | .shiftLeft => true
  | _ => false

/-- A rule makes a difference to an instruction. -/
def Instruction.Heeds : Instruction → Dialect.Rule → Prop
  | .alu op x y, .shiftsVy => op.shifts = true ∧ x ≠ y
  | .jumpOffset _ x, .jumpAddsVx => x ≠ 0
  | .storeBlock _, .blockMovesIndex => True
  | .loadBlock _, .blockMovesIndex => True
  | .addIndex _, .indexSetsFlag => True
  | _, _ => False

/-- A rule makes a difference to a word. -/
def Opcode.Heeds (w : Opcode) : Dialect.Rule → Prop
  | .shiftsVy => w.family = 0x8 ∧ w.n ∈ [0x6, 0xE] ∧ w.x ≠ w.y
  | .jumpAddsVx => w.family = 0xB ∧ w.x ≠ 0
  | .blockMovesIndex => w.IsMisc 0x55 ∨ w.IsMisc 0x65
  | .indexSetsFlag => w.IsMisc 0x1E

instance (w : Opcode) : (rule : Dialect.Rule) → Decidable (w.Heeds rule)
  | .shiftsVy => inferInstanceAs (Decidable (_ ∧ _))
  | .jumpAddsVx => inferInstanceAs (Decidable (_ ∧ _))
  | .blockMovesIndex => inferInstanceAs (Decidable (_ ∨ _))
  | .indexSetsFlag => inferInstanceAs (Decidable (w.IsMisc 0x1E))

theorem AluOp.selects_shift {n : UInt8} {op : AluOp} (decoded : AluOp.decode? n = some op)
    (shifts : op.shifts = true) : n ∈ [0x6, 0xE] := by
  unfold AluOp.decode? at decoded
  split at decoded
  all_goals first | contradiction | (cases decoded; first | contradiction | decide)

theorem Opcode.heeds_of_fits {w : Opcode} {i : Instruction} {rule : Dialect.Rule} (fits : i.Fits w)
    (heeds : i.Heeds rule) : w.Heeds rule := by
  cases i with
  | alu op x y =>
    obtain ⟨family, decoded, rfl, rfl⟩ := fits
    cases rule with
    | shiftsVy => exact ⟨family, AluOp.selects_shift decoded heeds.1, heeds.2⟩
    | _ => contradiction
  | _ => cases rule <;> simp_all [Instruction.Heeds, Instruction.Fits, Opcode.Heeds]

/-- Where a shift takes its value from is all that the rule decides. -/
theorem AluOp.eval_congr {op : AluOp} {shiftsVy shiftsVy' : Bool} {vx vy : UInt8}
    (same : shiftsVy = shiftsVy' ∨ op.shifts = false ∨ vx = vy) :
    op.eval shiftsVy vx vy = op.eval shiftsVy' vx vy := by
  rcases same with rfl | other | rfl
  · rfl
  · cases op with
    | shiftRight | shiftLeft => contradiction
    | _ => rfl
  · simp only [AluOp.eval, ite_self]

namespace Chip

/-- The same machine, but perhaps for one rule of the dialect. -/
structure SameBut (rule : Dialect.Rule) (c d : Chip) : Prop where
  others : d = { c with dialect := d.dialect }
  rules : ∀ other, other ≠ rule → d.dialect.holds other = c.dialect.holds other

namespace SameBut

variable {rule : Dialect.Rule} {c d : Chip} {dialect : Dialect}

theorem speaking (c : Chip)
    (rules : ∀ other, other ≠ rule → dialect.holds other = c.dialect.holds other) :
    SameBut rule c { c with dialect } := ⟨rfl, rules⟩

theorem eq_speaking (h : SameBut rule c d) : ∃ dialect : Dialect,
    (∀ other, other ≠ rule → dialect.holds other = c.dialect.holds other) ∧
    d = { c with dialect } :=
  ⟨d.dialect, h.rules, h.others⟩

theorem tie : Tie (SameBut rule) where
  word h := by
    obtain ⟨dialect, -, rfl⟩ := h.eq_speaking
    rfl
  pc h := by
    obtain ⟨dialect, -, rfl⟩ := h.eq_speaking
    rfl
  setPc h a := by
    obtain ⟨dialect, rules, rfl⟩ := h.eq_speaking
    exact speaking _ rules
  latest h w := by
    obtain ⟨dialect, rules, rfl⟩ := h.eq_speaking
    exact speaking _ rules
  drawn h := by
    obtain ⟨dialect, rules, rfl⟩ := h.eq_speaking
    exact speaking _ rules

theorem after (h : SameBut rule c d) (stimulus : Stimulus) :
    SameBut rule (c.after stimulus) (d.after stimulus) := by
  obtain ⟨dialect, rules, rfl⟩ := h.eq_speaking
  cases stimulus <;> exact speaking _ rules

theorem combine (rules : ∀ other, other ≠ rule → dialect.holds other = c.dialect.holds other)
    (op : AluOp) (x y : Register) (calm : ¬(Instruction.alu op x y).Heeds rule) :
    SameBut rule (c.combine op x y) ({ c with dialect }.combine op x y) := by
  have same : op.eval dialect.shiftsVy (c.registers.get x) (c.registers.get y) =
      op.eval c.dialect.shiftsVy (c.registers.get x) (c.registers.get y) := by
    apply AluOp.eval_congr
    by_cases other : .shiftsVy = rule
    · subst other
      by_cases shifts : op.shifts = true
      · have same : x = y := by
          by_contra differs
          exact calm ⟨shifts, fun same => differs (Fin.ext same)⟩
        exact .inr (.inr (congrArg c.registers.get same))
      · exact .inr (.inl (Bool.eq_false_iff.mpr shifts))
    · exact .inl (rules .shiftsVy other)
  have registers : c.registers.combine dialect.shiftsVy op x y =
      c.registers.combine c.dialect.shiftsVy op x y := by
    unfold Registers.combine
    rw [same]
  rw [combine_registers, combine_registers]
  change SameBut rule _
    { c with dialect, registers := c.registers.combine dialect.shiftsVy op x y }
  rw [registers]
  exact speaking _ rules

theorem addIndex (rules : ∀ other, other ≠ rule → dialect.holds other = c.dialect.holds other)
    (x : Register) (calm : .indexSetsFlag ≠ rule) :
    SameBut rule (c.addIndex x) ({ c with dialect }.addIndex x) := by
  have same : dialect.indexSetsFlag = c.dialect.indexSetsFlag := rules .indexSetsFlag calm
  rw [addIndex_registers, addIndex_registers, same]
  exact speaking _ rules

theorem passBlock (h : SameBut rule c d) (x : Register) (calm : .blockMovesIndex ≠ rule) :
    SameBut rule (c.passBlock x) (d.passBlock x) := by
  obtain ⟨dialect, rules, rfl⟩ := h.eq_speaking
  have same : dialect.blockMovesIndex = c.dialect.blockMovesIndex := rules .blockMovesIndex calm
  rw [passBlock_registers, passBlock_registers, same]
  exact speaking _ rules

/-- The register that a jump adds: one rule chooses between two, which may be the same. -/
theorem chosen_eq (rules : ∀ other, other ≠ rule → dialect.holds other = c.dialect.holds other)
    (nnn : UInt16) (x : Nat) (calm : ¬(Instruction.jumpOffset nnn x).Heeds rule) :
    (if dialect.jumpAddsVx then x else 0) = if c.dialect.jumpAddsVx then x else 0 := by
  by_cases other : .jumpAddsVx = rule
  · subst other
    have zero : x = 0 := by
      by_contra differs
      exact calm differs
    rw [zero, ite_self, ite_self]
  · have same : dialect.jumpAddsVx = c.dialect.jumpAddsVx := rules .jumpAddsVx other
    rw [same]

/-- An instruction to which the rule makes no difference. -/
theorem effect (h : SameBut rule c d) (wait : KeyWait) {i : Instruction} (calm : ¬i.Heeds rule) :
    Agree (Effect.Tied (SameBut rule)) (c.effect wait i) (d.effect wait i) := by
  obtain ⟨dialect, rules, rfl⟩ := h.eq_speaking
  cases i with
  | clear | jump | setIndex | unknown => exact .ok ⟨speaking _ rules, rfl, rfl⟩
  | ret | call | load | add | random | readDelay | setDelay | setSound | pointAtGlyph | storeDecimal =>
    exact .bind _ fun _ => .ok ⟨speaking _ rules, rfl, rfl⟩
  | draw x y n => exact .bind _ fun x => .bind _ fun y => .ok ⟨speaking _ rules, rfl, rfl⟩
  | skip condition =>
    exact Tie.skip h (by cases condition <;> rfl)
  | jumpOffset nnn x =>
    simp only [Chip.effect, chosen_eq rules nnn x calm]
    exact .bind _ fun r => .ok ⟨speaking _ rules, rfl, rfl⟩
  | awaitKey x => exact tie.awaitKey h rfl (fun y b => speaking (c.setV y b) rules) x
  | alu op x y =>
    refine .bind_of_ok _ fun r named => .bind_of_ok _ fun s named' => .ok ⟨?_, rfl, rfl⟩
    rw [← register_eq_ok.mp named, ← register_eq_ok.mp named'] at calm
    exact combine rules op r s calm
  | addIndex x =>
    have other : .indexSetsFlag ≠ rule := by
      rintro rfl
      exact calm trivial
    exact .bind _ fun x => .ok ⟨addIndex rules x other, rfl, rfl⟩
  | storeBlock x =>
    have other : .blockMovesIndex ≠ rule := by
      rintro rfl
      exact calm trivial
    exact .bind _ fun x => .ok ⟨(speaking (c.store _) rules).passBlock x other, rfl, rfl⟩
  | loadBlock x =>
    have other : .blockMovesIndex ≠ rule := by
      rintro rfl
      exact calm trivial
    exact .bind _ fun x => .ok ⟨(speaking (c.fill x) rules).passBlock x other, rfl, rfl⟩

end SameBut

theorem act_dialect (c : Chip) (op : Operation) : (c.act op).chip.dialect = c.dialect := by
  cases op with
  | turn t =>
    cases t with
    | step wait => exact c.step_dialect wait
    | outside stimulus => exact c.after_dialect stimulus
  | execute wait i => exact c.execute_dialect wait i

variable {rule : Dialect.Rule} {c d : Chip}

/-- Each rule stands alone. Two machines whose dialects differ in one rule take the same steps and differ
in nothing else after each of them, as long as they meet no word to which the rule makes a difference; and
nothing that is done to a machine or to a session changes a dialect. -/
theorem rule_stands_alone (same : SameBut rule c d) (turns : List Turn)
    (calm : ∀ t ∈ c.takenAll turns, ¬t.word.Heeds rule) :
    (c.takenAll turns = d.takenAll turns ∧ SameBut rule (c.turnAll turns) (d.turnAll turns)) ∧
    (∀ (k : Chip) (op : Operation), (k.act op).chip.dialect = k.dialect) ∧
    ∀ (s : Session) (ms : List Session.Move), (s.moves ms).chip.dialect = s.chip.dialect := by
  refine ⟨?_, act_dialect, Session.moves_dialect⟩
  refine SameBut.tie.run (fun _ w => ¬w.Heeds rule) ?_ (fun stimulus h => h.after stimulus) same
    turns calm
  intro c d w wait h calm
  exact h.effect wait fun heeds => calm (Opcode.heeds_of_fits (Instruction.fits_decode w) heeds)

/-- A shift in place and a jump that adds `V0` are the same under both rules. -/
theorem shift_in_place_stands_alone :
    let c := boot ⟨"SHIFT", [0x61, 0x83, 0x81, 0x1E, 0xB2, 0x06, 0xF1, 0x1E]⟩ .standard (.cycle [])
    let d : Chip := { c with dialect := ⟨true, false, false, true⟩ }
    let turns : List Turn := [.step ⟨0⟩, .outside .tick, .step ⟨0⟩, .step ⟨0⟩, .step ⟨0⟩]
    (SameBut .shiftsVy c d ∧ ∀ t ∈ c.takenAll turns, ¬t.word.Heeds .shiftsVy) ∧
    ((c.turnAll turns).v 1 = 6 ∧ c.dialect ≠ d.dialect) ∧
    (c.takenAll turns = d.takenAll turns ∧ SameBut .shiftsVy (c.turnAll turns) (d.turnAll turns)) := by
  intro c d turns
  have same : SameBut .shiftsVy c d := by
    refine .speaking c fun other differs => ?_
    cases other with
    | shiftsVy => contradiction
    | _ => rfl
  obtain ⟨calm, shifted, differ⟩ : (∀ t ∈ c.takenAll turns, ¬t.word.Heeds .shiftsVy) ∧
      (c.turnAll turns).v 1 = 6 ∧ c.dialect ≠ d.dialect := by
    decide +kernel
  exact ⟨⟨same, calm⟩, ⟨shifted, differ⟩, (rule_stands_alone same turns calm).1⟩

end Chip
end ChipEight
