import Chip8.Proofs.Decoding
import Chip8.Proofs.Digits
import Chip8.Proofs.Lists
import Mathlib.Data.Bool.AllAny
import Mathlib.Data.List.Nodup
import Mathlib.Data.List.TakeWhile

namespace Chip8

/-- The characters that structure a listing. No column and no operand has one of them. -/
def marks : List Char := [' ', ',', '\n', '?', '*']

theorem Hex.not_mem_marks_of_mem_upper (w n : Nat) : ∀ c ∈ (upper w n).toList, c ∉ marks :=
  forall_mem_upper (by decide) w n

namespace Operand

theorem not_mem_marks (o : Operand) : ∀ c ∈ o.text.toList, c ∉ marks := by
  cases o with
  | scalar k s =>
      have hk : ∀ c ∈ k.sigil.toList, c ∉ marks := by
        cases k <;> exact List.all_iff_forall_prop.mp (by decide)
      intro c hc
      rw [text, Scalar.toList_text] at hc
      rcases List.mem_append.mp hc with hc | hc
      · exact hk c hc
      · exact Hex.not_mem_marks_of_mem_upper _ _ c hc
  | label l => cases l <;> exact List.all_iff_forall_prop.mp (by decide)

theorem text_ne_nil (o : Operand) : o.text.toList ≠ [] := by
  intro h
  have hh := congrArg List.head? h
  cases o with
  | scalar k s =>
      rw [text, Scalar.head?_text] at hh
      cases k <;> cases hh
  | label l => cases l <;> cases hh

theorem text_injective : Function.Injective text := by
  intro o p h
  have hl : o.text.toList = p.text.toList := congrArg String.toList h
  have head_ne (k : Scalar.Kind) (l : Label) :
      k.sigil.toList.head? ≠ l.text.toList.head? := by cases k <;> cases l <;> decide
  cases o with
  | scalar k s =>
      cases p with
      | scalar l t =>
          obtain rfl := Scalar.kind_of_text s t hl
          rw [Scalar.text_injective k h]
      | label l =>
          have hh := congrArg List.head? hl
          rw [text, Scalar.head?_text] at hh
          exact absurd hh (head_ne k l)
  | label l =>
      cases p with
      | scalar k s =>
          have hh := congrArg List.head? hl
          rw [text, text, Scalar.head?_text] at hh
          exact absurd hh.symm (head_ne k l)
      | label m =>
          have all : ∀ l ∈ Label.all, ∀ m ∈ Label.all, l.text = m.text → l = m := by decide
          rw [all l l.mem_all m m.mem_all h]

end Operand

namespace Mnemonic

theorem toList_text_unknown (c : Opcode) : (unknown c).text.toList =
    "???0x".toList ++ (Hex.upper 4 c.word.toNat).toList ++ "???".toList := by
  rw [text, String.toList_append, String.toList_append]

theorem mem_text_unknown {c : Opcode} {b : Char} (h : b ∈ (unknown c).text.toList) :
    b = '?' ∨ b ∉ marks := by
  have frame : ∀ b ∈ "???0x".toList ++ "???".toList, b = '?' ∨ b ∉ marks :=
    List.all_iff_forall_prop.mp (by decide)
  rw [toList_text_unknown] at h
  rcases List.mem_append.mp h with h | h
  · rcases List.mem_append.mp h with h | h
    · exact frame b (List.mem_append_left _ h)
    · exact .inr (Hex.not_mem_marks_of_mem_upper _ _ b h)
  · exact frame b (List.mem_append_right _ h)

def firstWord (m : Mnemonic) : List Char := m.text.toList.takeWhile (· != ' ')

theorem firstWord_unknown (c : Opcode) : (unknown c).firstWord = (unknown c).text.toList := by
  apply List.takeWhile_eq_self_iff.mpr
  intro b hb
  rcases mem_text_unknown hb with rfl | hb
  · rfl
  · exact bne_iff_ne.mpr (List.ne_of_not_mem_cons hb)

theorem firstWord_injective : Function.Injective firstWord := by
  intro m n h
  have hk (op : Operation) : '?' ∉ (known op).firstWord := by cases op <;> decide
  have hu (c : Opcode) : '?' ∈ (unknown c).firstWord := by
    rw [firstWord_unknown, toList_text_unknown]
    exact List.mem_append_right _ (by decide)
  cases m with
  | known op =>
      cases n with
      | known op' =>
          have nodup : (Operation.all.map (fun op => (known op).firstWord)).Nodup := by decide
          rw [List.inj_on_of_nodup_map nodup op.mem_all op'.mem_all h]
      | unknown c =>
          have hc := hu c
          rw [← h] at hc
          exact absurd hc (hk op)
  | unknown c =>
      cases n with
      | known op =>
          have hc := hu c
          rw [h] at hc
          exact absurd hc (hk op)
      | unknown d =>
          rw [firstWord_unknown, firstWord_unknown, toList_text_unknown, toList_text_unknown,
            List.append_cancel_right_eq, List.append_cancel_left_eq, String.toList_inj,
            Hex.upper_inj c.word.toNat_lt d.word.toNat_lt, UInt16.toNat_inj] at h
          rw [Opcode.word_injective h]

theorem newline_not_mem_text (m : Mnemonic) : '\n' ∉ m.text.toList := by
  cases m with
  | known op => cases op <;> decide
  | unknown c =>
      intro h
      rcases mem_text_unknown h with h | h
      · cases h
      · exact h (by decide)

theorem value?_text (m : Mnemonic) : Hex.value? ((m.text.toList ++ [' ']).take 4) = none := by
  cases m with
  | known op => cases op <;> decide
  | unknown c =>
      rw [toList_text_unknown]
      rfl

end Mnemonic

namespace Instruction

theorem toList_text (i : Instruction) : i.text.toList = i.mnemonic.text.toList ++
    ' ' :: [',', ' '].intercalate (i.operands.map (·.text.toList)) := by
  rw [text, String.toList_append, String.toList_append, String.toList_intercalate, List.map_map,
    List.append_assoc]
  rfl

theorem takeWhile_text (i : Instruction) :
    i.text.toList.takeWhile (· != ' ') = i.mnemonic.firstWord := by
  rw [toList_text, List.takeWhile_append, Mnemonic.firstWord]
  split
  next h =>
    have hp := (List.takeWhile_prefix (· != ' ')).eq_of_length h
    rw [hp]
    exact List.append_nil _
  next => rfl

theorem text_eq_iff (i j : Instruction) :
    i.text = j.text ↔ i.mnemonic = j.mnemonic ∧ i.operands = j.operands := by
  constructor
  · intro h
    have hm : i.mnemonic = j.mnemonic := by
      apply Mnemonic.firstWord_injective
      rw [← takeWhile_text, ← takeWhile_text, h]
    have hl : i.text.toList = j.text.toList := congrArg String.toList h
    rw [toList_text, toList_text, hm, List.append_cancel_left_eq] at hl
    have hs (os : List Operand) : ∀ x ∈ os.map (·.text.toList), x ≠ [] ∧ ',' ∉ x := by
      intro x hx
      obtain ⟨o, -, rfl⟩ := List.mem_map.mp hx
      exact ⟨o.text_ne_nil, fun hc => o.not_mem_marks ',' hc (by decide)⟩
    -- the mnemonics have gone, and what stands between the commas is the operands
    have ho := intercalate_inj (hs i.operands) (hs j.operands) (List.cons.inj hl).2
    have inj : Function.Injective (fun o : Operand => o.text.toList) :=
      fun o p h => Operand.text_injective (String.toList_inj.mp h)
    exact ⟨hm, List.map_injective_iff.mpr inj ho⟩
  · rintro ⟨hm, ho⟩
    rw [text, hm, ho, ← text]

theorem newline_not_mem_text (i : Instruction) : '\n' ∉ i.text.toList := by
  rw [toList_text, List.mem_append, List.mem_cons]
  rintro (h | h | h)
  · exact i.mnemonic.newline_not_mem_text h
  · cases h
  · rcases mem_intercalate h with h | ⟨x, hx, h⟩
    · revert h
      decide
    · obtain ⟨o, -, rfl⟩ := List.mem_map.mp hx
      exact o.not_mem_marks '\n' h (by decide)

theorem value?_text (i : Instruction) (cs : List Char) :
    Hex.value? ((i.text.toList ++ cs).take 4) = none := by
  have hs (ds : List Char) : i.mnemonic.text.toList ++ ' ' :: ds =
      (i.mnemonic.text.toList ++ [' ']) ++ ds := by simp
  rw [toList_text, hs, List.append_assoc, List.take_append]
  exact Hex.value?_append_of_eq_none i.mnemonic.value?_text _

/-- A text has one reading, whatever the mnemonic, the number and the kinds of the operands, and it
takes one line. -/
theorem text_uniquely_readable (m n : Mnemonic) (os ps : List Operand) (c d : Opcode) :
    ((Instruction.mk m os c).text = (Instruction.mk n ps d).text ↔ m = n ∧ os = ps) ∧
      '\n' ∉ (Instruction.mk m os c).text.toList := by
  constructor
  · exact text_eq_iff (Instruction.mk m os c) (Instruction.mk n ps d)
  · exact newline_not_mem_text (Instruction.mk m os c)

end Instruction

end Chip8
