import Chip8.Proofs.Addresses
import Chip8.Proofs.Merged
import Chip8.Proofs.Words

namespace Chip8

/-- Two ignored calls or two scrolls, of which the text does not show the numbers. -/
def TextHides (v w : UInt16) : Prop :=
  (0x0100 ≤ v ∧ v ≤ 0x0FFF) ∧ (0x0100 ≤ w ∧ w ≤ 0x0FFF) ∨
    (0x00C0 ≤ v ∧ v ≤ 0x00CF) ∧ (0x00C0 ≤ w ∧ w ≤ 0x00CF)

theorem Merged.iff_textHides {v w : UInt16} (h : v ≠ w) : Merged v w ↔ TextHides v w :=
  or_iff_right h

theorem Layout.line_eq_line_iff (l : Layout) (address : UInt16) (c d : Opcode) :
    l.line address c.instruction = l.line address d.instruction ↔
      c = d ∨ l.showWord = false ∧ Merged c.word d.word := by
  cases hw : l.showWord with
  | true =>
      constructor
      · intro h
        obtain ⟨-, -, hword⟩ := line_inj hw hw h
        rw [Opcode.instruction_word, Opcode.instruction_word] at hword
        exact .inl (Opcode.word_injective hword)
      · rintro (rfl | ⟨h, -⟩)
        · rfl
        · cases h
  | false =>
      have htext : l.line address c.instruction = l.line address d.instruction ↔
          c.instruction.text = d.instruction.text := by
        rw [← String.toList_inj, toList_line, toList_line, hw, List.append_cancel_left_eq]
        exact String.toList_inj
      rw [htext, Instruction.text_eq_iff, Opcode.instruction_eq_iff_merged]
      constructor
      · exact fun h => .inr ⟨rfl, h⟩
      · rintro (rfl | ⟨-, h⟩)
        · exact .inl rfl
        · exact h

namespace Program

variable {bytes a b : List UInt8} {j : Nat} {v : UInt8}

theorem codeAt_set_eq_iff (hj : j < bytes.length) (hv : v ≠ bytes[j]) (k : Nat)
    (h : 2 * k + 1 < bytes.length) (h' : 2 * k + 1 < (bytes.set j v).length) :
    codeAt bytes k h = codeAt (bytes.set j v) k h' ↔ k ≠ j / 2 := by
  rw [codeAt, codeAt, Opcode.mk.injEq, List.getElem_set, List.getElem_set]
  by_cases hhi : j = 2 * k
  · subst hhi
    have hk : 2 * k / 2 = k := by omega
    simp [hk, hv.symm]
  · by_cases hlo : j = 2 * k + 1
    · subst hlo
      have hk : (2 * k + 1) / 2 = k := by omega
      simp [hk, hv.symm]
    · have hk : k ≠ j / 2 := by omega
      simp [hhi, hlo, hk]

theorem map_codes_eq_iff {β : Type} (f : Opcode → β) (hl : a.length = b.length) (k : Nat) :
    (codes a)[k]?.map f = (codes b)[k]?.map f ↔
      ∀ (ha : 2 * k + 1 < a.length) (hb : 2 * k + 1 < b.length),
        f (codeAt a k ha) = f (codeAt b k hb) := by
  by_cases ha : 2 * k + 1 < a.length
  · have hb : 2 * k + 1 < b.length := hl ▸ ha
    rw [getElem?_codes a k ha, getElem?_codes b k hb, Option.map_some, Option.map_some,
      Option.some.injEq]
    exact ⟨fun h _ _ => h, fun h => h ha hb⟩
  · have hn (c : List UInt8) (hc : c.length = a.length) : (codes c)[k]? = none := by
      apply List.getElem?_eq_none
      rw [length_codes]
      omega
    rw [hn a rfl, hn b hl.symm]
    exact ⟨fun _ h => absurd h ha, fun _ => rfl⟩

/-- Nothing that is read from two images tells them apart. -/
structure ReadAlike (a b : List UInt8) : Prop where
  disassemble : (disassemble a).run.value = (disassemble b).run.value
  items : (items a).value = (items b).value
  listing : ∀ l, (listing l a).run.value = (listing l b).run.value

/-- What is read from two images differs at index `k` alone. There the words `v` and `w` are read,
which differ, and a line that shows no words shows that just as far as the text does. -/
structure ReadApart (k : Nat) (v w : UInt16) (a b : List UInt8) : Prop where
  words : v ≠ w
  disassemble : ∃ is js, (disassemble a).run.value = .ok is ∧ (disassemble b).run.value = .ok js ∧
    is.length = js.length ∧ ∀ i, is[i]? = js[i]? ↔ i ≠ k
  items : ∃ xs ys : List Located, (items a).value = xs.map .ok ∧ (items b).value = ys.map .ok ∧
    ∀ i, xs[i]? = ys[i]? ↔ i ≠ k
  listing : ∀ l, ∃ s t, (listing l a).run.value = .ok s ∧ (listing l b).run.value = .ok t ∧
    (Layout.cut s.toList).length = (Layout.cut t.toList).length ∧
    ∀ i, (Layout.cut s.toList)[i]? = (Layout.cut t.toList)[i]? ↔
      i ≠ k ∨ l.showWord = false ∧ TextHides v w

theorem readAlike_of_whole_eq (h : whole a = whole b) : ReadAlike a b where
  disassemble := by rw [disassemble_run, disassemble_run, (instructions_eq_iff a b).mpr h]
  items := by rw [items_eq, items_eq, located, located, (codes_eq_iff a b).mpr h]
  listing l := by rw [listing_run, listing_run, (instructions_eq_iff a b).mpr h]

theorem whole_set_trailing (ho : bytes.length % 2 = 1) (v : UInt8) :
    whole (bytes.set (bytes.length - 1) v) = whole bytes := by
  rw [whole, whole, List.length_set]
  apply List.take_set_of_le
  omega

theorem codeAt_set_ne (hj : j < bytes.length) (hv : v ≠ bytes[j])
    (h : 2 * (j / 2) + 1 < bytes.length) (h' : 2 * (j / 2) + 1 < (bytes.set j v).length) :
    codeAt bytes (j / 2) h ≠ codeAt (bytes.set j v) (j / 2) h' :=
  fun he => (codeAt_set_eq_iff hj hv _ h h').mp he rfl

theorem map_codes_set_eq_iff {β : Type} {f : Opcode → β} (hf : Function.Injective f)
    (hj : j < bytes.length) (hv : v ≠ bytes[j]) (h : 2 * (j / 2) + 1 < bytes.length) (k : Nat) :
    (codes bytes)[k]?.map f = (codes (bytes.set j v))[k]?.map f ↔ k ≠ j / 2 := by
  rw [map_codes_eq_iff f List.length_set.symm k]
  constructor
  · rintro he rfl
    have h' : 2 * (j / 2) + 1 < (bytes.set j v).length := List.length_set.symm ▸ h
    exact codeAt_set_ne hj hv h h' (hf (he h h'))
  · intro hk ha hb
    rw [(codeAt_set_eq_iff hj hv k ha hb).mpr hk]

theorem getElem?_cut_listing (l : Layout) (bytes : List UInt8) (k : Nat) :
    (Layout.cut (l.render (instructions bytes)).toList)[k]? = (codes bytes)[k]?.map fun c =>
      (l.line (l.origin + UInt16.ofNat (2 * k)) c.instruction).toList := by
  rw [Layout.cut_render, List.getElem?_map, Layout.getElem?_lines, instructions, List.getElem?_map,
    Option.map_map, Option.map_map]
  rfl

theorem lines_set_eq_iff (l : Layout) (hj : j < bytes.length) (hv : v ≠ bytes[j])
    (h : 2 * (j / 2) + 1 < bytes.length) (h' : 2 * (j / 2) + 1 < (bytes.set j v).length) (k : Nat) :
    (Layout.cut (l.render (instructions bytes)).toList)[k]? =
        (Layout.cut (l.render (instructions (bytes.set j v))).toList)[k]? ↔
      k ≠ j / 2 ∨ l.showWord = false ∧ Merged (codeAt bytes (j / 2) h).word
        (codeAt (bytes.set j v) (j / 2) h').word := by
  rw [getElem?_cut_listing, getElem?_cut_listing, map_codes_eq_iff _ List.length_set.symm k]
  simp only [String.toList_inj, Layout.line_eq_line_iff]
  by_cases hk : k = j / 2
  · subst hk
    have hc := codeAt_set_ne hj hv h h'
    simp [h, hc]
  · have hc (ha : 2 * k + 1 < bytes.length) (hb : 2 * k + 1 < (bytes.set j v).length) :=
      (codeAt_set_eq_iff hj hv k ha hb).mpr hk
    exact ⟨fun _ => .inl hk, fun _ ha hb => .inl (hc ha hb)⟩

theorem readApart_set (hj : j < bytes.length) (hv : v ≠ bytes[j])
    (h : 2 * (j / 2) + 1 < bytes.length) (h' : 2 * (j / 2) + 1 < (bytes.set j v).length) :
    ReadApart (j / 2) (codeAt bytes (j / 2) h).word (codeAt (bytes.set j v) (j / 2) h').word
      bytes (bytes.set j v) where
  words hw := codeAt_set_ne hj hv h h' (Opcode.word_injective hw)
  disassemble := by
    refine ⟨instructions bytes, instructions (bytes.set j v), ?_, ?_, ?_, ?_⟩
    · rw [disassemble_run]
    · rw [disassemble_run]
    · rw [length_instructions, length_instructions, List.length_set]
    · intro k
      rw [instructions, instructions, List.getElem?_map, List.getElem?_map]
      exact map_codes_set_eq_iff Opcode.instruction_injective hj hv h k
  items := by
    refine ⟨located bytes, located (bytes.set j v), ?_, ?_, ?_⟩
    · rw [items_eq]
    · rw [items_eq]
    · intro k
      rw [located, located, getElem?_locate, getElem?_locate]
      apply map_codes_set_eq_iff _ hj hv h k
      intro c d hcd
      exact Opcode.instruction_injective (Located.mk.inj hcd).2
  listing l := by
    refine ⟨_, _, by rw [listing_run], by rw [listing_run], ?_, ?_⟩
    · rw [Layout.length_cut_render, Layout.length_cut_render, length_instructions,
        length_instructions, List.length_set]
    · intro k
      rw [lines_set_eq_iff l hj hv h h' k, Merged.iff_textHides]
      exact fun hw => codeAt_set_ne hj hv h h' (Opcode.word_injective hw)

/-- A byte that is replaced by another changes the instruction it belongs to and no other. A byte
left over at the end belongs to none, and then nothing changes. -/
theorem edit_stays_in_instruction (bytes : List UInt8) (j : Nat) (hj : j < bytes.length) (v : UInt8)
    (hv : v ≠ bytes[j]) :
    (bytes.length % 2 = 1 ∧ j = bytes.length - 1 → ReadAlike bytes (bytes.set j v)) ∧
    (¬(bytes.length % 2 = 1 ∧ j = bytes.length - 1) →
      ∃ (h : 2 * (j / 2) + 1 < bytes.length) (h' : 2 * (j / 2) + 1 < (bytes.set j v).length),
        ReadApart (j / 2) (codeAt bytes (j / 2) h).word (codeAt (bytes.set j v) (j / 2) h').word
          bytes (bytes.set j v)) := by
  constructor
  · rintro ⟨ho, rfl⟩
    exact readAlike_of_whole_eq (whole_set_trailing ho v).symm
  · intro hn
    have h : 2 * (j / 2) + 1 < bytes.length := by omega
    have h' : 2 * (j / 2) + 1 < (bytes.set j v).length := List.length_set.symm ▸ h
    exact ⟨h, h', readApart_set hj hv h h'⟩

theorem edit_of_ignored_call :
    1 < [0x01, 0x23, 0x6A, 0x07, 0xFF].length ∧ (0x24 : UInt8) ≠ 0x23 ∧
    ReadApart 0 0x0123 0x0124 [0x01, 0x23, 0x6A, 0x07, 0xFF] [0x01, 0x24, 0x6A, 0x07, 0xFF] := by
  refine ⟨by decide, by decide, ?_⟩
  obtain ⟨-, apart⟩ :=
    edit_stays_in_instruction [0x01, 0x23, 0x6A, 0x07, 0xFF] 1 (by decide) 0x24 (by decide)
  obtain ⟨_, _, h⟩ := apart (by decide)
  exact h

end Program

end Chip8
