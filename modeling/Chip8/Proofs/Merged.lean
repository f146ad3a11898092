import Chip8.Proofs.Decoding
import Chip8.Proofs.Rows
import Mathlib.Data.List.Nodup

namespace Chip8

namespace Slot

def shape : Slot → Scalar.Kind ⊕ Label
  | nnn => .inl .addr
  | x => .inl .reg
  | y => .inl .reg
  | n => .inl .nibble
  | kk => .inl .imm
  | v0 => .inl .reg
  | label l => .inr l

def mask : Slot → Nat
  | nnn => 0xFFF
  | x => 0xF00
  | y => 0xF0
  | n => 0xF
  | kk => 0xFF
  | v0 => 0
  | label _ => 0

end Slot

def Entry.shape : Entry → Scalar.Kind ⊕ Label
  | number k _ => .inl k
  | label l => .inr l

theorem Slot.shape_entry (w : UInt16) (s : Slot) : (s.entry w).shape = s.shape := by
  cases s <;> rfl

theorem and_field_congr {v w : Nat} (s k : Nat) (h : v / 2 ^ s % 2 ^ k = w / 2 ^ s % 2 ^ k) :
    v &&& 2 ^ s * (2 ^ k - 1) = w &&& 2 ^ s * (2 ^ k - 1) := by
  rw [and_field, and_field, h]

theorem Slot.and_mask_eq {v w : UInt16} {s : Slot} (h : s.entry v = s.entry w) :
    v.toNat &&& s.mask = w.toNat &&& s.mask := by
  cases s with
  | nnn => exact and_field_congr 0 12 (by simpa [entry] using h)
  | x => exact and_field_congr 8 4 (by simpa [entry] using h)
  | y => exact and_field_congr 4 4 (by simpa [entry] using h)
  | n => exact and_field_congr 0 4 (by simpa [entry] using h)
  | kk => exact and_field_congr 0 8 (by simpa [entry] using h)
  | v0 | label => rw [mask, Nat.and_zero, Nat.and_zero]

def Pattern.mask : Pattern → Nat
  | bits mask _ => mask
  | highByte _ _ => 0

namespace Row

/-- The bits of the word that a row fixes or its entries show. -/
def mask (r : Row) : Nat := r.slots.foldr (fun s m => s.mask ||| m) r.pattern.mask

theorem and_mask_eq {r : Row} {v w : UInt16} (hv : r.Covers v) (hw : r.Covers w)
    (h : r.entries v = r.entries w) : v.toNat &&& r.mask = w.toNat &&& r.mask := by
  obtain ⟨p, op, slots⟩ := r
  rw [entries, entries] at h
  simp only [mask]
  induction slots with
  | nil =>
      cases p with
      | bits mask value => exact Eq.trans hv hw.symm
      | highByte least greatest => exact (Nat.and_zero _).trans (Nat.and_zero _).symm
  | cons s slots ih =>
      obtain ⟨hs, hslots⟩ := List.cons.inj h
      rw [List.foldr_cons, Nat.and_or_distrib_left, Nat.and_or_distrib_left, Slot.and_mask_eq hs,
        ih hv hw hslots]

theorem eq_of_shape {r s : Row} (hr : r ∈ table) (hs : s ∈ table) {v w : UInt16}
    (hop : r.operation = s.operation) (h : r.entries v = s.entries w) : r = s := by
  have nodup : (table.map (fun r => (r.operation, r.slots.map Slot.shape))).Nodup := by decide
  have shapes (r : Row) (w : UInt16) :
      (r.entries w).map Entry.shape = r.slots.map Slot.shape := by
    rw [entries, List.map_map]
    exact List.map_congr_left fun s _ => s.shape_entry w
  have hshape : r.slots.map Slot.shape = s.slots.map Slot.shape := by
    rw [← shapes r v, h, shapes]
  exact List.inj_on_of_nodup_map nodup hr hs (Prod.ext hop hshape)

end Row

/-- Equal words, two of the ignored calls, or two of the scrolls down. -/
def Merged (v w : UInt16) : Prop :=
  v = w ∨ (0x0100 ≤ v ∧ v ≤ 0x0FFF) ∧ (0x0100 ≤ w ∧ w ≤ 0x0FFF) ∨
    (0x00C0 ≤ v ∧ v ≤ 0x00CF) ∧ (0x00C0 ≤ w ∧ w ≤ 0x00CF)

instance (v w : UInt16) : Decidable (Merged v w) := by
  unfold Merged
  infer_instance

theorem Row.merged_of_covers {r : Row} (hr : r ∈ table) {v w : UInt16} (hv : r.Covers v)
    (hw : r.Covers w) (h : r.entries v = r.entries w) : Merged v w := by
  have open_rows : ∀ r ∈ table, r.mask = 2 ^ 16 - 1 ∨ r.pattern = .highByte 0x01 0x0F ∨
      r.pattern = .bits 0xFFF0 0x00C0 := by decide
  rcases open_rows r hr with hm | hp | hp
  · left
    have he := and_mask_eq hv hw h
    rw [hm, Nat.and_two_pow_sub_one_eq_mod, Nat.and_two_pow_sub_one_eq_mod,
      Nat.mod_eq_of_lt v.toNat_lt, Nat.mod_eq_of_lt w.toNat_lt] at he
    exact UInt16.toNat_inj.mp he
  · right; left
    have range {v : UInt16} (hv : r.Covers v) : 0x0100 ≤ v ∧ v ≤ 0x0FFF := by
      rw [Covers, hp, Pattern.Covers] at hv
      rw [UInt16.le_iff_toNat_le, UInt16.le_iff_toNat_le]
      simp only [UInt16.reduceToNat]
      omega
    exact ⟨range hv, range hw⟩
  · right; right
    have range {v : UInt16} (hv : r.Covers v) : 0x00C0 ≤ v ∧ v ≤ 0x00CF := by
      have hb := v.toNat_lt
      rw [Covers, hp, Pattern.Covers] at hv
      have hf := (and_field v.toNat 4 12).symm.trans hv
      rw [UInt16.le_iff_toNat_le, UInt16.le_iff_toNat_le]
      simp only [UInt16.reduceToNat]
      omega
    exact ⟨range hv, range hw⟩

namespace Opcode

theorem meaning_of_sys {c : Opcode} (h : 0x0100 ≤ c.word ∧ c.word ≤ 0x0FFF) :
    c.meaning = .ok (some (.sys, [])) := by
  have hlo := c.lo.toNat_lt
  rw [UInt16.le_iff_toNat_le, UInt16.le_iff_toNat_le, toNat_word] at h
  simp only [UInt16.reduceToNat] at h
  have hg : c.group = 0 := by
    rw [group]
    omega
  have hi : c.hi ≠ 0 := by
    intro hi
    rw [hi, UInt8.toNat_zero] at h
    omega
  rw [meaning, hg]
  exact congrArg Except.ok (if_neg hi)

theorem meaning_of_scd {c : Opcode} (h : 0x00C0 ≤ c.word ∧ c.word ≤ 0x00CF) :
    c.meaning = .ok (some (.scd, [])) := by
  have hlo := c.lo.toNat_lt
  rw [UInt16.le_iff_toNat_le, UInt16.le_iff_toNat_le, toNat_word] at h
  simp only [UInt16.reduceToNat] at h
  have hi : c.hi = 0 := by
    apply UInt8.toNat_inj.mp
    rw [UInt8.toNat_zero]
    omega
  have hd : c.lo.toNat / 16 = 0xC := by
    rw [hi, UInt8.toNat_zero] at h
    omega
  have hc : c.control? = some .scd := by
    unfold control?
    split
    case h_8 => exact if_pos hd
    all_goals omega
  rw [meaning, group_of_hi_eq_zero hi]
  refine congrArg Except.ok ((if_pos hi).trans ?_)
  rw [hc]
  rfl

theorem instruction_eq_iff_merged (c d : Opcode) :
    c.instruction.mnemonic = d.instruction.mnemonic ∧
      c.instruction.operands = d.instruction.operands ↔ Merged c.word d.word := by
  have known {c : Opcode} {m : Operation × List Operand} (h : c.meaning = .ok (some m)) :
      c.instruction = ⟨.known m.1, m.2, c⟩ := by rw [instruction, h]
  have unknown {c : Opcode} (h : c.meaning = .ok none) : c.instruction = ⟨.unknown c, [], c⟩ := by
    rw [instruction, h]
  constructor
  · rintro ⟨hm, ho⟩
    obtain ⟨m, hc⟩ := c.meaning_ok
    obtain ⟨n, hd⟩ := d.meaning_ok
    cases m with
    | none =>
        cases n with
        | none =>
            rw [unknown hc, unknown hd] at hm
            rw [Mnemonic.unknown.inj hm]
            exact .inl rfl
        | some n =>
            rw [unknown hc, known hd] at hm
            cases hm
    | some m =>
        cases n with
        | none =>
            rw [known hc, unknown hd] at hm
            cases hm
        | some n =>
            rw [known hc, known hd] at hm ho
            obtain ⟨r, hr, hrc, hrop, hre⟩ := listed_of_meaning hc
            obtain ⟨s, hs, hsd, hsop, hse⟩ := listed_of_meaning hd
            have hop : r.operation = s.operation := by
              rw [← hrop, ← hsop, Mnemonic.known.inj hm]
            have he : r.entries c.word = s.entries d.word := by
              rw [← hre, ← hse]
              exact congrArg (List.map Operand.entry) ho
            -- the operations and the operands leave only one row for both words
            obtain rfl := Row.eq_of_shape hr hs hop he
            exact Row.merged_of_covers hr hrc hsd he
  · rintro (h | ⟨hc, hd⟩ | ⟨hc, hd⟩)
    · rw [word_injective h]
      exact ⟨rfl, rfl⟩
    · rw [known (meaning_of_sys hc), known (meaning_of_sys hd)]
      exact ⟨rfl, rfl⟩
    · rw [known (meaning_of_scd hc), known (meaning_of_scd hd)]
      exact ⟨rfl, rfl⟩

end Opcode

end Chip8
