import Chip8.Proofs.Lines
import Chip8.Proofs.Merged
import Mathlib.Tactic.TFAE

namespace Chip8.Layout

theorem getElem?_words (bytes : List UInt8) (k : Nat) (h : 2 * k + 1 < bytes.length) :
    ((Program.codes bytes).map Opcode.word)[k]? =
      some (Program.codeAt bytes k h).word := by
  rw [List.getElem?_map, Program.getElem?_codes bytes k h, Option.map_some]

theorem instructions_bytes (cs : List Opcode) :
    Program.instructions (cs.flatMap Opcode.bytes) = cs.map Opcode.instruction := by
  rw [Program.instructions, Program.codes_bytes]

/-- Listings with the word column are equal only if they list the same instructions in the same
way, and the words in them, read from their column, make the listing anew. -/
theorem listing_reads_back (l m : Layout) (hl : l.showWord = true) (hm : m.showWord = true) :
    (∀ is js : List Instruction, (∀ i ∈ is, i.Decoded) → (∀ j ∈ js, j.Decoded) →
      (l.render is = m.render js ↔ is = js ∧
        (is ≠ [] → l.showAddress = m.showAddress ∧ (l.showAddress = true → l.origin = m.origin)))) ∧
    ∀ bytes : List UInt8, ∃ text words,
      (Program.listing l bytes).run.value = .ok text ∧
      l.readWords? text = some words ∧
      words.length = bytes.length / 2 ∧
      (∀ k (h : 2 * k + 1 < bytes.length),
        words[k]? = some (Program.codeAt bytes k h).word) ∧
      (Program.listing l (words.flatMap fun w => (Opcode.ofWord w).bytes)).run.value = .ok text := by
  constructor
  · intro is js hi hj
    constructor
    · intro h
      exact lines_inj hl hm hi hj (lines_eq_of_render_eq h)
    · rintro ⟨rfl, h⟩
      cases is with
      | nil => rfl
      | cons i is =>
          obtain ⟨hs, ho⟩ := h (List.cons_ne_nil i is)
          rw [render, render, lines_congr (hl.trans hm.symm) hs ho]
  · intro bytes
    have hw : (Program.instructions bytes).map Instruction.word =
        (Program.codes bytes).map Opcode.word := by
      simp [Program.instructions]
    have hb : ((Program.codes bytes).map Opcode.word).flatMap (fun w => (Opcode.ofWord w).bytes) =
        (Program.codes bytes).flatMap Opcode.bytes := by
      simp only [List.flatMap_map, Opcode.ofWord_word]
    refine ⟨l.render (Program.instructions bytes), (Program.codes bytes).map Opcode.word,
      ?_, ?_, ?_, getElem?_words bytes, ?_⟩
    · rw [Program.listing_run]
    · rw [readWords?_render hl, hw]
    · rw [List.length_map, Program.length_codes]
    · rw [Program.listing_run, hb, instructions_bytes]
      rfl

theorem default_listing_reads_back :
    (Layout.mk 0x200 true true).showWord = true ∧ (Layout.mk 0x200 false true).showWord = true ∧
    (Layout.mk 0x200 true true).render [(Opcode.mk 0x6A 0x07).instruction] ≠
      (Layout.mk 0x200 false true).render [(Opcode.mk 0x6A 0x07).instruction] ∧
    ∃ text, (Program.listing (Layout.mk 0x200 true true) [0x6A, 0x07, 0x12]).run.value = .ok text ∧
      (Layout.mk 0x200 true true).readWords? text = some [0x6A07] := by
  obtain ⟨inj, back⟩ :=
    listing_reads_back (Layout.mk 0x200 true true) (Layout.mk 0x200 false true) rfl rfl
  refine ⟨rfl, rfl, ?_, ?_⟩
  · intro h
    have hd : (Opcode.mk 0x6A 0x07).instruction.Decoded :=
      (Instruction.decoded_iff _).mpr ⟨_, rfl⟩
    have hs := (inj _ _ (by simpa using hd) (by simpa using hd)).mp h
    exact absurd (hs.2 (List.cons_ne_nil _ _)).1 (by decide)
  · obtain ⟨text, words, ht, hw, hl, hk, -⟩ := back [0x6A, 0x07, 0x12]
    refine ⟨text, ht, ?_⟩
    have h0 := hk 0 (by decide)
    obtain ⟨w, rfl⟩ := List.length_eq_one_iff.mp hl
    rw [hw, Option.some.inj h0]
    rfl

theorem lines_bare (origin a : UInt16) (is : List Instruction) :
    lines ⟨origin, false, false⟩ a is = is.map Instruction.text := by
  have hline (a : UInt16) (i : Instruction) : line ⟨origin, false, false⟩ a i = i.text := by
    rw [line, if_neg Bool.false_ne_true, if_neg Bool.false_ne_true]
    rfl
  have h := map_counted (line ⟨origin, false, false⟩) 2 a is (g := id) hline
  rwa [List.map_id] at h

theorem render_bare_eq_iff (origin : UInt16) (is js : List Instruction) :
    render ⟨origin, false, false⟩ is = render ⟨origin, false, false⟩ js ↔
      is.map Instruction.text = js.map Instruction.text := by
  constructor
  · intro h
    have hl := lines_eq_of_render_eq h
    rw [lines_bare, lines_bare] at hl
    exact hl
  · intro h
    rw [render, render, lines_bare, lines_bare, h]

/-- Without columns a listing keeps the mnemonics and the operands, and these keep of the words all
but the numbers of the calls that are ignored and of the scrolls. -/
theorem bare_listing_tfae (origin : UInt16) (a b : List UInt8) : List.TFAE [
    ∃ text, (Program.listing ⟨origin, false, false⟩ a).run.value = .ok text ∧
      (Program.listing ⟨origin, false, false⟩ b).run.value = .ok text,
    ∃ is js, (Program.disassemble a).run.value = .ok is ∧
      (Program.disassemble b).run.value = .ok js ∧ is.length = js.length ∧
      ∀ k (hi : k < is.length) (hj : k < js.length),
        is[k].mnemonic = js[k].mnemonic ∧ is[k].operands = js[k].operands,
    a.length / 2 = b.length / 2 ∧
      ∀ k (ha : 2 * k + 1 < a.length) (hb : 2 * k + 1 < b.length),
        Merged (Program.codeAt a k ha).word (Program.codeAt b k hb).word] := by
  tfae_have 1 ↔ 2 := by
    simp only [Program.listing_run, Program.disassemble_run, Except.ok.injEq]
    constructor
    · rintro ⟨text, rfl, h⟩
      obtain ⟨hl, hk⟩ := (map_eq_map_iff _ _ _).mp ((render_bare_eq_iff origin _ _).mp h.symm)
      exact ⟨_, _, rfl, rfl, hl, fun k hi hj => (Instruction.text_eq_iff _ _).mp (hk k hi hj)⟩
    · rintro ⟨is, js, rfl, rfl, hl, hk⟩
      refine ⟨_, rfl, (render_bare_eq_iff origin _ _).mpr ?_⟩
      exact ((map_eq_map_iff _ _ _).mpr
        ⟨hl, fun k hi hj => (Instruction.text_eq_iff _ _).mpr (hk k hi hj)⟩).symm
  tfae_have 2 ↔ 3 := by
    simp only [Program.disassemble_run, Except.ok.injEq]
    constructor
    · rintro ⟨is, js, rfl, rfl, hl, hk⟩
      rw [Program.length_instructions, Program.length_instructions] at hl
      refine ⟨hl, fun k ha hb => ?_⟩
      have h := hk k ((Program.lt_length_instructions_iff a k).mpr ha)
        ((Program.lt_length_instructions_iff b k).mpr hb)
      rw [Program.getElem_instructions a k ha, Program.getElem_instructions b k hb] at h
      exact (Opcode.instruction_eq_iff_merged _ _).mp h
    · rintro ⟨hl, hk⟩
      rw [← Program.length_instructions, ← Program.length_instructions] at hl
      refine ⟨_, _, rfl, rfl, hl, fun k hi hj => ?_⟩
      have ha := (Program.lt_length_instructions_iff a k).mp hi
      have hb := (Program.lt_length_instructions_iff b k).mp hj
      rw [Program.getElem_instructions a k ha, Program.getElem_instructions b k hb]
      exact (Opcode.instruction_eq_iff_merged _ _).mpr (hk k ha hb)
  tfae_finish

end Chip8.Layout
