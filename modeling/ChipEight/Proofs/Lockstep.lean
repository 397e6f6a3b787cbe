import ChipEight.Proofs.Simulation

/-! What a program can notice of the outside. Timers, keys and random bytes may differ between two
machines as they like: an instruction is told about them in four ways only. Two machines that are told
the same do the same, fail for the same reason, and treat the outside alike. -/
namespace ChipEight

/-- The part of a machine that nothing from outside reaches. -/
structure Inside where
  registers : Registers
  memory : Memory
  stack : CallStack
  screen : Screen
  dialect : Dialect
  deriving DecidableEq

/-- The rest of a machine. -/
structure Outside where
  name : String
  opcode : Opcode
  timers : Timers
  keypad : Keypad
  random : RandomStream

/-- What an instruction is told from outside. -/
inductive Notice where
  | nothing
  | delay (b : UInt8)
  | held (pressed : Bool)
  | reply (reply : KeyReply)
  | byte (b : UInt8)
  deriving DecidableEq, Repr

namespace Chip

def inside (c : Chip) : Inside := ⟨c.registers, c.memory, c.stack, c.screen, c.dialect⟩

/-- The machine in another outside. -/
def beside (c : Chip) (o : Outside) : Chip :=
  { c with
    name := o.name
    opcode := o.opcode
    timers := o.timers
    keypad := o.keypad
    random := o.random }

/-- The key that the low nibble of a register names. -/
def keyOf (c : Chip) (x : Nat) : Key :=
  let register : Register := ⟨x % 16, Nat.mod_lt _ (by decide)⟩
  ⟨(c.v register).toNat % 16, Nat.mod_lt _ (by decide)⟩

/-- What an instruction is told: the delay timer, a key's state, the end of a key wait or a byte. -/
def told (c : Chip) (wait : KeyWait) : Instruction → Notice
  | .readDelay _ => .delay c.timers.delay
  | .skip (.keyHeld x) | .skip (.keyUp x) => .held (c.keypad.held.get (c.keyOf x))
  | .awaitKey _ => .reply (wait.poll c.keypad)
  | .random .. => .byte (c.random.byteAt c.random.drawn)
  | _ => .nothing

/-- The machines `c'` and `d'` come from `c` and `d` in the same way: inside they are the same, the
keypad is untouched, and timers and random bytes that were the same still are. -/
structure Echo (c d c' d' : Chip) : Prop where
  inside : c'.inside = d'.inside
  keypad : c'.keypad = c.keypad
  keypad' : d'.keypad = d.keypad
  timers : c.timers = d.timers → c'.timers = d'.timers
  random : c.random = d.random → c'.random = d'.random

variable {c d c' d' : Chip} {o : Outside} {wait wait' : KeyWait} {i : Instruction}

theorem eq_beside (same : c.inside = d.inside) : ∃ o, d = c.beside o := by
  obtain ⟨registers, memory, stack, screen, dialect⟩ := Inside.mk.inj same
  refine ⟨⟨d.name, d.opcode, d.timers, d.keypad, d.random⟩, ?_⟩
  rw [beside, registers, memory, stack, screen, dialect]

theorem combine_beside (c : Chip) (o : Outside) (op : AluOp) (x y : Register) :
    (c.beside o).combine op x y = (c.combine op x y).beside o := by
  rw [combine_registers, combine_registers]
  rfl

theorem addIndex_beside (c : Chip) (o : Outside) (x : Register) :
    (c.beside o).addIndex x = (c.addIndex x).beside o := by
  rw [addIndex_registers, addIndex_registers]
  rfl

theorem passBlock_beside (c : Chip) (o : Outside) (x : Register) :
    (c.beside o).passBlock x = (c.passBlock x).beside o := by
  rw [passBlock_registers, passBlock_registers]
  rfl

theorem store_beside (c : Chip) (o : Outside) (bytes : List UInt8) :
    (c.beside o).store bytes = (c.store bytes).beside o := rfl

theorem fill_beside (c : Chip) (o : Outside) (x : Register) :
    (c.beside o).fill x = (c.fill x).beside o := rfl

theorem nextOpcode_same (same : c.inside = d.inside) : c.nextOpcode = d.nextOpcode := by
  obtain ⟨o, rfl⟩ := eq_beside same
  rfl

/-- What does not touch the outside, and does the same in any other one. -/
theorem Echo.of_beside (keypad : c'.keypad = c.keypad) (timers : c'.timers = c.timers)
    (random : c'.random = c.random) : Echo c (c.beside o) c' (c'.beside o) where
  inside := rfl
  keypad
  keypad' := rfl
  timers same := timers.trans same
  random same := random.trans same

end Chip

/-- Effects on two machines that a program cannot tell apart. -/
structure Effect.Echo (c d : Chip) (e e' : Effect) : Prop where
  chip : Chip.Echo c d e.chip e'.chip
  move : e.move = e'.move
  signal : e.signal = e'.signal

theorem Effect.Echo.of_beside {c c' : Chip} {o : Outside} {move : PcMove} {signal : Signal}
    (keypad : c'.keypad = c.keypad) (timers : c'.timers = c.timers) (random : c'.random = c.random) :
    Effect.Echo c (c.beside o) ⟨c', move, signal⟩ ⟨c'.beside o, move, signal⟩ :=
  ⟨.of_beside keypad timers random, rfl, rfl⟩

namespace Chip

variable {c d c' d' : Chip} {o : Outside} {wait wait' : KeyWait} {i : Instruction}

theorem keyHeld_eq (c : Chip) (x : Register) :
    c.keyHeld x = .ok (c.keypad.held.get (c.keyOf x)) := by
  have nibble : (c.v x).toNat % 16 < 16 := Nat.mod_lt _ (by decide)
  have key : c.keyOf x = ⟨(c.v x).toNat % 16, nibble⟩ := by
    simp [keyOf, Nat.mod_eq_of_lt x.isLt]
  rw [keyHeld, Keypad.isPressed, dif_pos nibble, key]
  rfl

theorem holds_beside {condition : Condition}
    (told : c.told wait (.skip condition) = (c.beside o).told wait' (.skip condition)) :
    (c.beside o).holds condition = c.holds condition := by
  cases condition with
  | equal | notEqual | sameRegister | otherRegister => rfl
  | keyHeld x | keyUp x =>
    simp only [holds]
    cases named : register x with
    | error h => rfl
    | ok r =>
      obtain rfl := register_eq_ok.mp named
      rw [ok_bind, ok_bind, keyHeld_eq, keyHeld_eq, ← Notice.held.inj told]

/-- An instruction that is told the same has the same effect, or fails for the same reason. -/
theorem effect_agree (same : c.inside = d.inside) (told : c.told wait i = d.told wait' i) :
    Agree (Effect.Echo c d) (c.effect wait i) (d.effect wait' i) := by
  obtain ⟨o, rfl⟩ := eq_beside same
  cases i with
  | clear | jump | setIndex | unknown => exact .ok (.of_beside rfl rfl rfl)
  | ret | call | jumpOffset | load | add | pointAtGlyph | storeDecimal =>
    exact .bind _ fun _ => .ok (.of_beside rfl rfl rfl)
  | draw x y n => exact .bind _ fun _ => .bind _ fun _ => .ok (.of_beside rfl rfl rfl)
  | skip condition =>
    simp only [effect, holds_beside told]
    exact .bind _ fun _ => .ok (.of_beside rfl rfl rfl)
  | alu op x y =>
    refine .bind _ fun x => .bind _ fun y => .ok ?_
    have only := c.combine_only op x y
    rw [combine_beside]
    exact .of_beside only.keypad only.timers only.random
  | addIndex x =>
    refine .bind _ fun x => .ok ?_
    have only := c.addIndex_only x
    rw [addIndex_beside]
    exact .of_beside only.keypad only.timers only.random
  | storeBlock x =>
    refine .bind _ fun x => .ok ?_
    have passed := (c.store (c.registers.upTo x)).passBlock_only x
    rw [store_beside, passBlock_beside]
    exact .of_beside passed.keypad passed.timers passed.random
  | loadBlock x =>
    refine .bind _ fun x => .ok ?_
    have filled := c.fill_only x
    have passed := (c.fill x).passBlock_only x
    rw [fill_beside, passBlock_beside]
    exact .of_beside (passed.keypad.trans filled.keypad) (passed.timers.trans filled.timers)
      (passed.random.trans filled.random)
  | readDelay x =>
    have delay : c.timers.delay = o.timers.delay := Notice.delay.inj told
    refine .bind _ fun x => .ok ?_
    rw [delay]
    exact .of_beside rfl rfl rfl
  | awaitKey x =>
    have reply : wait.poll c.keypad = wait'.poll (c.beside o).keypad := Notice.reply.inj told
    refine .bind _ fun x => ?_
    rw [reply]
    cases wait'.poll (c.beside o).keypad with
    | key k => exact .ok (.of_beside rfl rfl rfl)
    | cancelled => exact .ok (.of_beside rfl rfl rfl)
    | pending => exact .error .waiting
  | random x nn =>
    have byte : c.random.byte = o.random.byte := Notice.byte.inj told
    refine .bind _ fun x => .ok ⟨⟨?_, rfl, rfl, id, fun same => ?_⟩, rfl, rfl⟩
    · rw [byte]
      rfl
    · exact congrArg RandomStream.next same
  | setDelay x =>
    exact .bind _ fun x => .ok
      ⟨⟨rfl, rfl, rfl, fun same => congrArg (Timers.setDelay · (c.v x)) same, id⟩, rfl, rfl⟩
  | setSound x =>
    exact .bind _ fun x => .ok
      ⟨⟨rfl, rfl, rfl, fun same => congrArg (Timers.setSound · (c.v x)) same, id⟩, rfl, rfl⟩

theorem Echo.tie (c d : Chip) : Tie (Echo c d) where
  word echo := nextOpcode_same echo.inside
  pc echo := congrArg (fun k : Inside => k.registers.pc) echo.inside
  setPc echo a :=
    { echo with
      inside := congrArg (fun k : Inside => { k with registers := k.registers.setPc a }) echo.inside }
  latest echo _ := ⟨echo.inside, echo.keypad, echo.keypad', echo.timers, echo.random⟩
  drawn echo :=
    { echo with random := fun same => congrArg RandomStream.next (echo.random same) }

theorem told_fetched (c : Chip) (wait : KeyWait) (i : Instruction) :
    c.fetched.told wait i = c.told wait i := by
  cases i with
  | skip condition => cases condition <;> rfl
  | _ => rfl

/-- What the next step is told. -/
def notice (c : Chip) (wait : KeyWait) : Notice := c.told wait (.decode c.nextOpcode)

/-- Steps of two machines that are the same inside and told the same. -/
theorem step_lockstep (same : c.inside = d.inside) (told : c.notice wait = d.notice wait') :
    (c.step wait).result = (d.step wait').result ∧
      Echo c d (c.step wait).chip (d.step wait').chip := by
  have word : c.nextOpcode = d.nextOpcode := nextOpcode_same same
  have still : Echo c d c d := ⟨same, rfl, rfl, id, id⟩
  have fetched : c.fetched.inside = d.fetched.inside := ((Echo.tie c d).fetched still).inside
  rw [notice, notice, ← word, ← told_fetched c, ← told_fetched d] at told
  refine (Echo.tie c d).step still ((effect_agree fetched told).mono fun related => ?_)
  exact ⟨⟨related.chip.inside, related.chip.keypad, related.chip.keypad', related.chip.timers,
    related.chip.random⟩, related.move, related.signal⟩

end Chip
end ChipEight
