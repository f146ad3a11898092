import Chip8.Proofs.Disassembly
import Chip8.Proofs.Lines
import Chip8.Proofs.Messages

namespace Chip8

namespace Cursor

/-- From one cursor on, unknown instructions are found one after the other, and then none. -/
inductive Finds : Cursor → List Item → Prop
  | stop {c d : Cursor} (h : (findUnknown.run c).value = (none, d)) : Finds c []
  | found {c d : Cursor} {item : Item} {items : List Item}
      (first : (findUnknown.run c).value = (some item, d)) (later : Finds d items) :
      Finds c (item :: items)

theorem Finds.unique {c : Cursor} {xs ys : List Item} (hx : Finds c xs) (hy : Finds c ys) :
    xs = ys := by
  induction hx generalizing ys with
  | stop h =>
      cases hy with
      | stop => rfl
      | found first => rw [h] at first; cases first
  | found first later ih =>
      cases hy with
      | stop h => rw [h] at first; cases first
      | found first' later' =>
          rw [first] at first'
          cases first'
          rw [ih later']

def unknownLeft (c : Cursor) : List Located := c.left.filter (·.instruction.isUnknown)

theorem findUnknown_value (c : Cursor) :
    ∃ d, (findUnknown.run c).value = (c.unknownLeft.head?.map .ok, d) ∧
      d.unknownLeft = c.unknownLeft.tail := by
  refine ⟨c.skip (c.left.findIdx (·.instruction.isUnknown) + 1), ?_, ?_⟩
  · rw [unknownLeft, List.head?_filter]
    exact congrArg Logged.value (findUnknown_eq c)
  · rw [unknownLeft, left_skip, filter_drop_findIdx, unknownLeft]

theorem finds_unknownLeft (c : Cursor) : Finds c (c.unknownLeft.map .ok) := by
  induction hu : c.unknownLeft generalizing c with
  | nil =>
      obtain ⟨d, hd, -⟩ := c.findUnknown_value
      rw [hu] at hd
      exact .stop hd
  | cons l ls ih =>
      obtain ⟨d, hd, hl⟩ := c.findUnknown_value
      rw [hu] at hd hl
      exact .found hd (ih d hl)

end Cursor

namespace Program

theorem finds_iff (bytes : List UInt8) (found : List Item) :
    Cursor.Finds (Cursor.start bytes).value found ↔
      found = (items bytes).value.filter Item.isUnknown := by
  have h := (Cursor.start bytes).value.finds_unknownLeft
  have hu : (items bytes).value.filter Item.isUnknown =
      (Cursor.start bytes).value.unknownLeft.map .ok := by
    rw [items_eq, List.filter_map]
    rfl
  rw [hu]
  constructor
  · exact fun hf => hf.unique h
  · rintro rfl
    exact h

end Program

/-- The marks of unknown opcodes and of extensions. No operand and no column has one. -/
def classMarks : List Char := ['?', '*']

theorem of_mem_classMarks {b : Char} (hb : b ∈ classMarks) :
    b ∈ marks ∧ b ≠ ' ' ∧ b ≠ ',' ∧ b ≠ '\n' := by
  simp only [classMarks, List.mem_cons, List.not_mem_nil, or_false] at hb
  rcases hb with rfl | rfl <;> simp [marks]

theorem Hex.count_upper {b : Char} (hb : b ∈ classMarks) (w n : Nat) :
    (upper w n).toList.count b = 0 := by
  apply List.count_eq_zero_of_not_mem
  intro h
  exact not_mem_marks_of_mem_upper w n b h (of_mem_classMarks hb).1

namespace Mnemonic

theorem count_text_unknown {b : Char} (hb : b ∈ classMarks) (c : Opcode) :
    (unknown c).text.toList.count b = "???0x".toList.count b + "???".toList.count b := by
  rw [toList_text_unknown, List.count_append, List.count_append, Hex.count_upper hb, Nat.add_zero]

theorem count_question (m : Mnemonic) :
    m.text.toList.count '?' = if m.isUnknown then 6 else 0 := by
  cases m with
  | known op => cases op <;> rfl
  | unknown c => exact count_text_unknown (by simp [classMarks]) c

theorem count_star (m : Mnemonic) :
    m.text.toList.count '*' = if m.isExtension then 1 else 0 := by
  cases m with
  | known op => cases op <;> rfl
  | unknown c => exact count_text_unknown (by simp [classMarks]) c

end Mnemonic

theorem Instruction.count_text {b : Char} (hb : b ∈ classMarks) (i : Instruction) :
    i.text.toList.count b = i.mnemonic.text.toList.count b := by
  obtain ⟨hm, hspace, hcomma, -⟩ := of_mem_classMarks hb
  have ho : b ∉ [',', ' '].intercalate (i.operands.map (·.text.toList)) := by
    intro h
    rcases mem_intercalate h with h | ⟨x, hx, h⟩
    · simp [hspace, hcomma] at h
    · obtain ⟨o, -, rfl⟩ := List.mem_map.mp hx
      exact o.not_mem_marks b h hm
  rw [toList_text, List.count_append, List.count_cons_of_ne hspace.symm,
    List.count_eq_zero_of_not_mem ho, Nat.add_zero]

namespace Layout

theorem count_column {b : Char} (hb : b ∈ classMarks) (shown : Bool) (w : UInt16) :
    (column shown w).count b = 0 := by
  obtain ⟨-, hspace, -, -⟩ := of_mem_classMarks hb
  cases shown with
  | false => rfl
  | true =>
      rw [column, if_pos rfl, List.count_append, Hex.count_upper hb,
        List.count_cons_of_ne hspace.symm, List.count_cons_of_ne hspace.symm, List.count_nil]

theorem count_line {b : Char} (hb : b ∈ classMarks) (l : Layout) (a : UInt16) (i : Instruction) :
    (l.line a i).toList.count b = i.mnemonic.text.toList.count b := by
  rw [toList_line, List.count_append, List.count_append, count_column hb, count_column hb,
    Instruction.count_text hb, Nat.zero_add, Nat.zero_add]

/-- A mark that the mnemonics of a class have `k` times each, and others never, counts the class. -/
theorem count_render {b : Char} (hb : b ∈ classMarks) {p : Mnemonic → Bool} {k : Nat}
    (hp : ∀ m : Mnemonic, m.text.toList.count b = if p m then k else 0) (l : Layout)
    (is : List Instruction) : (l.render is).toList.count b = k * is.countP (p ·.mnemonic) := by
  obtain ⟨-, -, -, hnewline⟩ := of_mem_classMarks hb
  rw [toList_render]
  generalize l.origin = a
  induction is generalizing a with
  | nil => rfl
  | cons i is ih =>
      rw [lines_cons, List.map_cons, List.flatMap_cons, List.count_append, ih, List.count_append,
        count_line hb, hp, List.count_cons_of_ne hnewline.symm, List.countP_cons]
      cases p i.mnemonic <;> simp [Nat.mul_add, Nat.add_comm]

end Layout

namespace LogLine

def isUnknownOpcode (line : LogLine) : Bool :=
  line.1 = .debug && "unknown opcode 0x".toList.isPrefixOf line.2.toList

theorem of_tellsTrailing {byte : UInt8} {offset : Nat} {line : LogLine}
    (h : TellsTrailing byte offset line) : line.1 = .debug ∧ isUnknownOpcode line = false := by
  obtain ⟨ds, os, -, -, rfl⟩ := h
  refine ⟨rfl, ?_⟩
  simp only [isUnknownOpcode, String.toList_append, List.append_assoc]
  rfl

theorem of_tellsUnknown {word : Nat} {line : LogLine} (h : TellsUnknown word line) :
    line.1 = .debug ∧ isUnknownOpcode line = true := by
  obtain ⟨ds, -, rfl⟩ := h
  simp [isUnknownOpcode]

end LogLine

theorem Instruction.of_mem_lines_remarks {is : List Instruction} {line : LogLine}
    (h : line ∈ (remarks is).lines) : line.1 = .debug ∧ line.isUnknownOpcode = true := by
  rw [Log.lines, remarks, List.map_map] at h
  obtain ⟨i, -, rfl⟩ := List.mem_map.mp h
  exact LogLine.of_tellsUnknown (LogLine.tellsUnknown_ofMessage i.raw)

namespace Program

theorem of_mem_lines_reportTrailing {bytes : List UInt8} {line : LogLine}
    (h : line ∈ (reportTrailing bytes).log.lines) :
    line.1 = .debug ∧ line.isUnknownOpcode = false := by
  obtain ⟨byte, -, -, htells⟩ := (tellsTrailing_reportTrailing bytes).2 line h
  exact LogLine.of_tellsTrailing htells

theorem countP_lines_items (bytes : List UInt8) :
    (items bytes).log.lines.countP LogLine.isUnknownOpcode =
      (instructions bytes).countP Instruction.isUnknown := by
  have htrailing : (reportTrailing bytes).log.lines.countP LogLine.isUnknownOpcode = 0 := by
    rw [List.countP_eq_zero]
    intro line hline
    rw [(of_mem_lines_reportTrailing hline).2]
    exact Bool.false_ne_true
  have hunknown : (Instruction.remarks (instructions bytes)).lines.countP
      LogLine.isUnknownOpcode = (instructions bytes).countP Instruction.isUnknown := by
    rw [List.countP_eq_length.mpr fun line hline => (Instruction.of_mem_lines_remarks hline).2,
      Instruction.length_remarks]
  rw [items_eq, readingLog, Log.lines_append, List.countP_append, htrailing, hunknown,
    Nat.zero_add]

theorem countP_lines_disassemble (bytes : List UInt8) :
    (disassemble bytes).run.log.lines.countP LogLine.isUnknownOpcode =
      (instructions bytes).countP Instruction.isUnknown := by
  have hitems : (items bytes).log.lines = (reportTrailing bytes).log.lines ++
      (Instruction.remarks (instructions bytes)).lines := by
    rw [items_eq, readingLog, Log.lines_append]
  rw [lines_disassemble, ← hitems, List.countP_append, countP_lines_items]
  rfl

theorem filter_trace_lines (bytes : List UInt8) :
    (disassemble bytes).run.log.lines.filter (fun line => line.1 = .trace) =
      [LogLine.summary bytes.length (instructions bytes).length
        ((instructions bytes).countP Instruction.isUnknown)] := by
  have debug {lines : List LogLine} (h : ∀ line ∈ lines, line.1 = .debug) :
      lines.filter (fun line => line.1 = .trace) = [] := by
    rw [List.filter_eq_nil_iff]
    intro line hline
    simp [h line hline]
  rw [lines_disassemble, List.filter_append, List.filter_append,
    debug fun _ h => (of_mem_lines_reportTrailing h).1,
    debug fun _ h => (Instruction.of_mem_lines_remarks h).1]
  rfl

theorem length_filter_items (bytes : List UInt8) :
    ((items bytes).value.filter Item.isUnknown).length =
      (instructions bytes).countP Instruction.isUnknown := by
  rw [← List.countP_eq_length_filter, items_eq, List.countP_map, ← map_located, List.countP_map]
  rfl

/-- The views of an image count `unknown` unknown instructions, and the listing the instructions of
the extension. -/
structure Counted (l : Layout) (bytes : List UInt8) (is : List Instruction) (text : String)
    (unknown : Nat) : Prop where
  summary : (disassemble bytes).run.log.lines.filter (fun line => line.1 = .trace) =
    [LogLine.summary bytes.length is.length unknown]
  messages : (disassemble bytes).run.log.lines.countP LogLine.isUnknownOpcode = unknown
  reading_messages : (items bytes).log.lines.countP LogLine.isUnknownOpcode = unknown
  listing_log : (listing l bytes).run.log = (disassemble bytes).run.log
  search : ∀ found, Cursor.Finds (Cursor.start bytes).value found ↔
    found = (items bytes).value.filter Item.isUnknown
  found : ((items bytes).value.filter Item.isUnknown).length = unknown
  questions : text.toList.count '?' = 6 * unknown
  stars : text.toList.count '*' = is.countP (·.mnemonic.isExtension)

/-- The unknown instructions of an image are as many as its summary says, as there are messages on
unknown opcodes, as a search finds that goes on until nothing is found, and as its listing shows by
six question marks each. The instructions of the extension are as many as the stars of the listing.
-/
theorem counts_agree (l : Layout) (bytes : List UInt8) :
    ∃ is text, (disassemble bytes).run.value = .ok is ∧ (listing l bytes).run.value = .ok text ∧
      Counted l bytes is text (is.countP Instruction.isUnknown) := by
  refine ⟨instructions bytes, l.render (instructions bytes), ?_, ?_, ?_⟩
  · rw [disassemble_run]
  · rw [listing_run]
  · exact {
      summary := filter_trace_lines bytes
      messages := countP_lines_disassemble bytes
      reading_messages := countP_lines_items bytes
      listing_log := by rw [listing_run]
      search := finds_iff bytes
      found := length_filter_items bytes
      questions := Layout.count_render (by simp [classMarks]) Mnemonic.count_question l _
      stars := by
        rw [Layout.count_render (by simp [classMarks]) Mnemonic.count_star l, Nat.one_mul] }

end Program

end Chip8
