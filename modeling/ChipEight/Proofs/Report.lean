import ChipEight.Proofs.Dump
import ChipEight.Proofs.Start
import ChipEight.Report

/-! The printed state is the state, as far as it is printed. Below the name no line holds a line feed, so
the lines can be cut out of the text again; the tables have as many lines as they have room for, and what
each line says is told apart by where it stands in it. A name may hold line feeds, but two machines of the
same name begin their texts alike. -/
namespace ChipEight.Report

open Text

variable {c d : Chip}

/-- The lines below the name. -/
def body (c : Chip) : List String :=
  ["\tOpcode :", indent (Hex.word c.opcode), "\tProgram Counter :",
    indent (Hex.word c.registers.pc), "\tIndex :", indent (Hex.word c.registers.i), "\tTimers :",
    indent (timerLine c.timers), "\tRegister :"] ++
  table 0 2 (c.registers.v.toList.map UInt8.toUInt16) ++
  ["\tStack (depth " ++ toString c.stack.depth ++ ") :"] ++
  table 0 2 (stackValues c.stack) ++
  ["\tMemory :"] ++
  (Dump.rows c.memory).map (fun row => indent row.text) ++
  ["\x7d"]

theorem lines_eq (c : Chip) :
    lines c = ["Chipset \x7b", "\tProgram Name :", indent c.name] ++ body c := by
  simp [lines, body]

theorem body_ne_nil (c : Chip) : body c ≠ [] := by
  simp [body]

theorem indent_inj {a b : String} : indent a = indent b ↔ a = b := String.append_right_inj _

theorem plain_indent {line : String} (plain : Plain line) : Plain (indent line) := by
  have tabs : Plain "\t\t" := by decide
  exact tabs.append plain

theorem length_table (first n : Nat) (values : List UInt16) : (table first n values).length = n := by
  induction n generalizing first values with
  | zero => rfl
  | succ n ih => rw [table, List.length_cons, ih]

theorem plain_table (first n : Nat) (values : List UInt16) :
    ∀ line ∈ table first n values, Plain line := by
  induction n generalizing first values with
  | zero => nofun
  | succ n ih =>
    intro line member
    rcases List.mem_cons.mp member with rfl | later
    · exact plain_indent ((Dump.plain_range _ _).append (Dump.plain_entries _))
    · exact ih _ _ line later

/-- A table with a line for every eight values shows all of them. -/
theorem table_inj {first n : Nat} {values values' : List UInt16} (length : values.length = 8 * n)
    (length' : values'.length = 8 * n) (same : table first n values = table first n values') :
    values = values' := by
  induction n generalizing first values values' with
  | zero =>
    rw [List.eq_nil_of_length_eq_zero length, List.eq_nil_of_length_eq_zero length']
  | succ n ih =>
    obtain ⟨line, rest⟩ := List.cons.inj same
    have front := (String.append_right_inj _).mp (indent_inj.mp line)
    have eight : values.take 8 = values'.take 8 :=
      Dump.entries_inj (by simp only [List.length_take]; omega) front
    have others : values.drop 8 = values'.drop 8 :=
      ih (by rw [List.length_drop]; omega) (by rw [List.length_drop]; omega) rest
    rw [← List.take_append_drop 8 values, eight, others, List.take_append_drop]

theorem timerLine_inj {t u : Timers} (same : timerLine t = timerLine u) : t = u := by
  have chars := congrArg String.toList same
  simp only [timerLine, String.toList_append, List.append_assoc] at chars
  obtain ⟨delay, chars⟩ := List.append_inj (List.append_cancel_left chars) (by simp [Hex.length_word])
  have sound := List.append_cancel_left chars
  have delay := UInt8.toUInt16_inj.mp (Hex.word_inj (String.toList_inj.mp delay))
  have sound := UInt8.toUInt16_inj.mp (Hex.word_inj (String.toList_inj.mp sound))
  cases t
  cases u
  exact congr (congrArg Timers.mk delay) sound

theorem plain_timerLine (t : Timers) : Plain (timerLine t) := by
  have delay : Plain "delay " := by decide
  have sound : Plain " sound " := by decide
  exact ((delay.append (Hex.plain_word _)).append sound).append (Hex.plain_word _)

theorem toString_inj {n k : Nat} (same : toString n = toString k) : n = k := by
  have chars := congrArg (fun text => Nat.ofDigitChars 10 text.toList 0) same
  simpa using chars

theorem plain_toString (n : Nat) : Plain (toString n) := by
  intro feed
  rw [Nat.toString_eq_repr, Nat.toList_repr] at feed
  have digit := Nat.isDigit_of_mem_toDigits (by decide) (by decide) feed
  contradiction

theorem stackValues_inj {s t : CallStack} (depth : s.depth = t.depth)
    (same : stackValues s = stackValues t) : s = t := by
  have lengths : s.toList.length = t.toList.length := by
    simpa [CallStack.toList, CallStack.depth] using depth
  obtain ⟨addresses, -⟩ := List.append_inj same lengths
  exact CallStack.ext (List.reverse_inj.mp addresses)

theorem length_stackValues (s : CallStack) : (stackValues s).length = 16 := by
  have fits := s.depth_le
  simp only [stackValues, CallStack.toList, List.length_append, List.length_reverse,
    List.length_replicate, CallStack.depth, CallStack.capacity] at *
  omega

theorem plain_body (c : Chip) : ∀ line ∈ body c, Plain line := by
  have word (w : UInt16) : Plain (indent (Hex.word w)) := plain_indent (Hex.plain_word w)
  have timers : Plain (indent (timerLine c.timers)) := plain_indent (plain_timerLine c.timers)
  have depth : Plain ("\tStack (depth " ++ toString c.stack.depth ++ ") :") := by
    have opening : Plain "\tStack (depth " := by decide
    have closing : Plain ") :" := by decide
    exact (opening.append (plain_toString _)).append closing
  simp only [body, List.forall_mem_append, List.forall_mem_cons]
  refine ⟨⟨⟨⟨⟨⟨?values, plain_table _ _ _⟩, depth, nofun⟩, plain_table _ _ _⟩, by decide, nofun⟩,
    ?dump⟩, by decide, nofun⟩
  case values =>
    exact ⟨by decide, word _, by decide, word _, by decide, word _, by decide, timers, by decide,
      nofun⟩
  case dump =>
    intro line member
    obtain ⟨row, -, rfl⟩ := List.mem_map.mp member
    exact plain_indent row.plain_text

theorem registers_eq {r r' : Registers} (pc : r.pc = r'.pc) (index : r.i = r'.i)
    (values : r.v.toList.map UInt8.toUInt16 = r'.v.toList.map UInt8.toUInt16) : r = r' := by
  have bytes := (List.map_inj_right fun _ _ same => UInt8.toUInt16_inj.mp same).mp values
  have v : r.v = r'.v := Vector.toList_inj.mp bytes
  cases r
  cases r'
  cases pc
  cases index
  cases v
  rfl

/-- Two machines agree in all that is printed below the name. -/
structure Alike (c d : Chip) : Prop where
  opcode : c.opcode = d.opcode
  registers : c.registers = d.registers
  timers : c.timers = d.timers
  stack : c.stack = d.stack
  program : ∀ a : UInt16, 0x200 ≤ a.toNat → a.toNat ≤ 0xFFF → c.memory.read a = d.memory.read a

theorem body_inj (same : body c = body d) : Alike c d := by
  simp only [body, List.append_assoc, List.cons_append, List.nil_append, List.cons.injEq,
    indent_inj, true_and] at same
  obtain ⟨opcode, pc, index, timers, same⟩ := same
  obtain ⟨registers, same⟩ := List.append_inj same (by rw [length_table, length_table])
  obtain ⟨depth, same⟩ := List.cons.inj same
  obtain ⟨stack, same⟩ := List.append_inj same (by rw [length_table, length_table])
  have texts := List.append_cancel_right (List.cons.inj same).2
  constructor
  · exact Hex.word_inj opcode
  · have values := table_inj (by simp) (by simp) registers
    exact registers_eq (Hex.word_inj pc) (Hex.word_inj index) values
  · exact timerLine_inj timers
  · have depth := toString_inj
      ((String.append_right_inj _).mp ((String.append_left_inj _).mp depth))
    have addresses := table_inj (length_stackValues _) (length_stackValues _) stack
    exact stackValues_inj depth addresses
  · have indented : ((Dump.rows c.memory).map Dump.Row.text).map indent =
        ((Dump.rows d.memory).map Dump.Row.text).map indent := by
      rw [List.map_map, List.map_map]
      exact texts
    exact Dump.texts_eq_iff.mp
      ((List.map_inj_right fun _ _ same => indent_inj.mp same).mp indented)

theorem Alike.body (alike : Alike c d) : body c = body d := by
  have texts := congrArg (List.map indent) (Dump.texts_eq_iff.mpr alike.program)
  rw [List.map_map, List.map_map] at texts
  have rows : (Dump.rows c.memory).map (fun row => indent row.text) =
      (Dump.rows d.memory).map fun row => indent row.text := texts
  rw [Report.body, Report.body, alike.opcode, alike.registers, alike.timers, alike.stack, rows]

/-- The print law. Two machines of one name are printed alike exactly if they agree in the latest word, in
all registers, in both timers, in their stacks and in every byte from the start of the program on. -/
theorem report_eq_iff (name : c.name = d.name) : c.report = d.report ↔ Alike c d := by
  rw [Chip.report, Chip.report, lines_eq, lines_eq, name]
  constructor
  · intro same
    have below := unlines_append_inj (body_ne_nil c) (body_ne_nil d) same
    have bodies := unlines_inj (body_ne_nil c) (body_ne_nil d) (plain_body c) (plain_body d) below
    exact body_inj bodies
  · intro alike
    rw [alike.body]

/-- A byte below the program and the keypad are not printed; the last byte of memory, in a row of zeros
otherwise, is. -/
theorem last_byte_is_printed :
    let c := Chip.boot ⟨"BLANK", [0x00, 0xE0]⟩ .standard (.cycle [])
    let low := { c with memory := c.memory.write 0x100 7, keypad := c.keypad.after .close }
    let high := { c with memory := c.memory.write 0xFFF 7 }
    (c.name = low.name ∧ c.name = high.name) ∧
    c.report = low.report ∧ c.report ≠ high.report := by
  intro c low high
  refine ⟨⟨rfl, rfl⟩, ?_, ?_⟩
  · refine (report_eq_iff (c := c) (d := low) rfl).mpr ⟨rfl, rfl, rfl, rfl, ?_⟩
    intro a above _
    have elsewhere : Memory.place 0x100 ≠ Memory.place a := by
      intro same
      have value : 0x100 = a.toNat % 0x1000 := congrArg Fin.val same
      omega
    rw [Memory.read_write, if_neg elsewhere]
  · intro same
    obtain ⟨-, -, -, -, bytes⟩ := (report_eq_iff (c := c) (d := high) rfl).mp same
    have zero : c.memory.read 0xFFF = 0 := by decide +kernel
    have last := bytes 0xFFF (by decide) (Nat.le_refl _)
    rw [zero, Memory.read_write, if_pos rfl] at last
    exact absurd last (by decide)

end ChipEight.Report
