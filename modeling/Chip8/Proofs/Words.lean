import Chip8.Proofs.Disassembly
import Mathlib.Data.List.Nodup

namespace Chip8

theorem Opcode.bytes_ofWord (w : UInt16) :
    (ofWord w).bytes = [(w >>> 8).toUInt8, w.toUInt8] := by
  have hhi : (w >>> 8).toUInt8 = UInt8.ofNat (w.toNat / 256) := by
    rw [← UInt8.toNat_inj, UInt16.toNat_toUInt8, UInt16.toNat_shiftRight, UInt8.toNat_ofNat',
      Nat.shiftRight_eq_div_pow]
    rfl
  rw [bytes, ofWord, hhi]
  rfl

theorem Opcode.instruction_injective : Function.Injective instruction :=
  Function.LeftInverse.injective instruction_raw

namespace Program

/-- The image that holds some words, the high byte of each first. -/
def ofWords (ws : List UInt16) : List UInt8 :=
  ws.flatMap fun w : UInt16 => [(w >>> 8).toUInt8, w.toUInt8]

/-- An image without the byte that is left over at its end. -/
def whole (bytes : List UInt8) : List UInt8 := bytes.take (2 * (bytes.length / 2))

theorem flatMap_bytes_ofWord (ws : List UInt16) :
    (ws.map Opcode.ofWord).flatMap Opcode.bytes = ofWords ws := by
  rw [List.flatMap_map, ofWords]
  exact List.flatMap_congr fun w _ => Opcode.bytes_ofWord w

theorem codes_ofWords (ws : List UInt16) (last : Option UInt8) :
    codes (ofWords ws ++ last.toList) = ws.map Opcode.ofWord := by
  rw [← flatMap_bytes_ofWord]
  induction ws with
  | nil => cases last <;> rfl
  | cons w ws ih => exact congrArg (Opcode.ofWord w :: ·) ih

theorem flatMap_bytes_codes (bytes : List UInt8) :
    (codes bytes).flatMap Opcode.bytes = whole bytes := by
  fun_induction codes bytes with
  | case1 hi lo bytes ih =>
      have hl : 2 * ((hi :: lo :: bytes).length / 2) = 2 * (bytes.length / 2) + 2 := by
        simp only [List.length_cons]
        omega
      rw [List.flatMap_cons, ih, whole, whole, hl]
      rfl
  | case2 bytes h =>
      rcases bytes with _ | ⟨hi, _ | ⟨lo, bytes⟩⟩
      · rfl
      · simp [whole]
      · exact absurd rfl (h hi lo bytes)

theorem codes_eq_iff (a b : List UInt8) : codes a = codes b ↔ whole a = whole b := by
  constructor
  · intro h
    rw [← flatMap_bytes_codes, h, flatMap_bytes_codes]
  · intro h
    rw [← codes_bytes (codes a), flatMap_bytes_codes, h, ← flatMap_bytes_codes, codes_bytes]

theorem instructions_eq_iff (a b : List UInt8) :
    instructions a = instructions b ↔ whole a = whole b := by
  rw [instructions, instructions, ← codes_eq_iff]
  exact (List.map_injective_iff.mpr Opcode.instruction_injective).eq_iff

theorem instructions_ofWords (ws : List UInt16) (last : Option UInt8) :
    instructions (ofWords ws ++ last.toList) =
      ws.map fun w => (Opcode.ofWord w).instruction := by
  rw [instructions, codes_ofWords, List.map_map]
  rfl

/-- The words of an image come out once each and in their places, whether they are decoded one by
one, disassembled, read by a cursor or listed, and what comes out gives the bytes and the words
back. The byte left over changes nothing of this, so two images are disassembled alike exactly if
they are one image but for such a byte. -/
theorem words_kept :
    (∀ ws : List UInt16, ∃ is : List Instruction,
      ws.map (fun w => (decodeWord w).run.value) = is.map .ok ∧
      is.flatMap (fun i => i.raw.bytes) = ofWords ws ∧ is.map Instruction.word = ws ∧
      ∀ last : Option UInt8,
        (disassemble (ofWords ws ++ last.toList)).run.value = .ok is ∧
        (items (ofWords ws ++ last.toList)).value.map (Except.map Located.instruction) =
          is.map .ok ∧
        ∀ l, (listing l (ofWords ws ++ last.toList)).run.value = .ok (l.render is)) ∧
    ∀ a b : List UInt8,
      (disassemble a).run.value = (disassemble b).run.value ↔ whole a = whole b := by
  constructor
  · intro ws
    refine ⟨ws.map fun w => (Opcode.ofWord w).instruction, ?_, ?_, ?_, ?_⟩
    · rw [List.map_map]
      exact List.map_congr_left fun w _ => congrArg Logged.value (Opcode.ofWord w).decode_run
    · simp only [List.flatMap_map, Opcode.instruction_raw, Opcode.bytes_ofWord, ofWords]
    · simp only [List.map_map, Function.comp_def, Opcode.instruction_word, Opcode.word_ofWord,
        List.map_id']
    · intro last
      have his := instructions_ofWords ws last
      refine ⟨?_, ?_, ?_⟩
      · rw [disassemble_run, his]
      · rw [items_eq, List.map_map, ← his, ← map_located, List.map_map]
        rfl
      · intro l
        rw [listing_run, his]
  · intro a b
    rw [disassemble_run, disassemble_run, Except.ok.injEq, instructions_eq_iff]

end Program

end Chip8
