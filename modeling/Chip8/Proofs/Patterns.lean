import Chip8.Proofs.Disassembly
import Chip8.Proofs.Merged
import Mathlib.Data.List.Pairwise

namespace Chip8

namespace Pattern

/-- A condition on the patterns alone that keeps words from falling under both. -/
def Clash : Pattern → Pattern → Prop
  | bits m v, bits n u => v &&& n ≠ u &&& m
  | bits m v, highByte a b | highByte a b, bits m v =>
      ∀ x ≤ b, a ≤ x → x &&& m / 0x100 ≠ v / 0x100
  | highByte a b, highByte c d => b < c ∨ d < a

instance (p q : Pattern) : Decidable (p.Clash q) :=
  match p, q with
  | bits m v, bits n u => inferInstanceAs (Decidable (v &&& n ≠ u &&& m))
  | bits m v, highByte a b | highByte a b, bits m v =>
      inferInstanceAs (Decidable (∀ x ≤ b, a ≤ x → x &&& m / 0x100 ≠ v / 0x100))
  | highByte a b, highByte c d => inferInstanceAs (Decidable (b < c ∨ d < a))

theorem Clash.not_covers {p q : Pattern} (h : p.Clash q) (w : UInt16) :
    ¬ (p.Covers w ∧ q.Covers w) := by
  have high {m v : Nat} (hw : w.toNat &&& m = v) : w.toNat / 0x100 &&& m / 0x100 = v / 0x100 := by
    rw [← hw]
    exact (Nat.and_div_two_pow (n := 8)).symm
  rintro ⟨hp, hq⟩
  cases p with
  | bits m v =>
      cases q with
      | bits n u =>
          apply h
          rw [← hp, ← hq, Nat.and_assoc, Nat.and_assoc, Nat.and_comm m n]
      | highByte a b => exact h _ hq.2 hq.1 (high hp)
  | highByte a b =>
      cases q with
      | bits m v => exact h _ hp.2 hp.1 (high hq)
      | highByte c d =>
          obtain ⟨hpa, hpb⟩ := hp
          obtain ⟨hqc, hqd⟩ := hq
          rcases h with h | h <;> omega

end Pattern

namespace Row

def Apart (r s : Row) : Prop := ∀ w, ¬ (r.Covers w ∧ s.Covers w)

instance : Std.Symm Apart := ⟨fun _ _ h w hw => h w hw.symm⟩

theorem pairwise_apart : table.Pairwise Apart := by
  have h : table.Pairwise (fun r s => r.pattern.Clash s.pattern) := by decide
  exact h.imp fun hc => hc.not_covers

theorem eq_of_covers {r s : Row} (hr : r ∈ table) (hs : s ∈ table) {w : UInt16}
    (hrw : r.Covers w) (hsw : s.Covers w) : r = s := by
  by_contra hne
  exact pairwise_apart.forall hr hs hne w ⟨hrw, hsw⟩

end Row

namespace Opcode

variable {c : Opcode} {g k : Nat} {r : Row}

theorem mod_of_covers {v : Nat} (hk : k ≤ 12) (hv : v < 2 ^ k)
    (h : (Pattern.bits (0xF000 ||| (2 ^ k - 1)) (0x1000 * g ||| v)).Covers c.word) :
    c.word.toNat % 2 ^ k = v := by
  have hk' : 2 ^ k ≤ 2 ^ 12 := Nat.pow_le_pow_right (by decide) hk
  have hm : c.word.toNat % 2 ^ k < 2 ^ k := Nat.mod_lt _ (Nat.two_pow_pos k)
  have low (g v : Nat) (hv : v < 2 ^ 12) : (0x1000 * g ||| v) % 2 ^ 12 = v := by
    rw [Nat.or_mod_two_pow, Nat.mod_eq_of_lt hv, Nat.mul_mod_right, Nat.zero_or]
  rw [Pattern.Covers, and_mask] at h
  rw [← low c.group _ (Nat.lt_of_lt_of_le hm hk'), h, low g v (Nat.lt_of_lt_of_le hv hk')]

theorem covers_group (c : Opcode) : (Pattern.bits 0xF000 (0x1000 * c.group)).Covers c.word := by
  have h := c.and_mask 0
  rw [Nat.pow_zero, Nat.mod_one] at h
  exact h.trans (Nat.or_zero _)

/-- The rows of a group ask for one of some numbers in the lowest bits. -/
def Keyed (group bits : Nat) (keys : List Nat) : Prop :=
  ∀ r ∈ table, (Pattern.bits 0xF000 (0x1000 * group)).Clash r.pattern ∨
    ∃ v ∈ keys, v < 2 ^ bits ∧
      r.pattern = .bits (0xF000 ||| (2 ^ bits - 1)) (0x1000 * group ||| v)

instance (group bits : Nat) (keys : List Nat) : Decidable (Keyed group bits keys) :=
  inferInstanceAs (Decidable (∀ r ∈ table, _ ∨ ∃ v ∈ keys, _))

theorem Keyed.mod_mem {keys : List Nat} (h : Keyed g k keys) (hk : k ≤ 12) (hg : c.group = g)
    (hr : r ∈ table) (hc : r.Covers c.word) : c.word.toNat % 2 ^ k ∈ keys := by
  rcases h r hr with h | ⟨v, hv, hlt, h⟩
  · subst hg
    exact absurd ⟨c.covers_group, hc⟩ (h.not_covers c.word)
  · rw [Row.Covers, h] at hc
    rw [mod_of_covers hk hlt hc]
    exact hv

theorem n_mem_of_covers (keys : List Nat) (h : Keyed g 4 keys) (hg : c.group = g) (hr : r ∈ table)
    (hc : r.Covers c.word) : c.n.toNat ∈ keys :=
  c.word_mod_n ▸ h.mod_mem (by decide) hg hr hc

theorem lo_mem_of_covers (keys : List Nat) (h : Keyed g 8 keys) (hg : c.group = g) (hr : r ∈ table)
    (hc : r.Covers c.word) : c.lo.toNat ∈ keys :=
  c.word_mod_lo ▸ h.mod_mem (by decide) hg hr hc

theorem control?_eq_none (h : c.control? = none) :
    c.lo.toNat ∉ [0xE0, 0xEE, 0xFB, 0xFC, 0xFD, 0xFE, 0xFF] ∧ c.lo.toNat / 16 ≠ 0xC := by
  unfold control? at h
  split at h
  case h_8 =>
    split at h
    next => cases h
    next hd => exact ⟨by simp_all, hd⟩
  all_goals cases h

theorem arithmetic?_eq_none (h : c.arithmetic? = none) :
    c.n.toNat ∉ [0x0, 0x1, 0x2, 0x3, 0x4, 0x5, 0x6, 0x7, 0xE] := by
  unfold arithmetic? at h
  split at h
  case h_10 => simp_all
  all_goals cases h

theorem keySkip?_eq_none (h : c.keySkip? = none) : c.lo.toNat ∉ [0x9E, 0xA1] := by
  unfold keySkip? at h
  split at h
  case h_3 => simp_all
  all_goals cases h

theorem transfer?_eq_none (h : c.transfer? = none) : c.lo.toNat ∉
    [0x07, 0x0A, 0x15, 0x18, 0x1E, 0x29, 0x30, 0x33, 0x55, 0x65, 0x75, 0x85] := by
  unfold transfer? at h
  split at h
  case h_13 => simp_all
  all_goals cases h

theorem not_covers_of_control (hi : c.hi = 0) (h : c.control? = none) :
    ∀ r ∈ table, ¬ r.Covers c.word := by
  intro r hr hc
  obtain ⟨hkeys, hscd⟩ := control?_eq_none h
  have hlo := c.lo.toNat_lt
  have hw := word_of_hi_eq_zero hi
  have hf : (Pattern.bits 0xFF00 0).Covers c.word := by
    refine (and_field c.word.toNat 8 8).trans ?_
    rw [hw, Nat.div_eq_of_lt hlo, Nat.zero_mod, Nat.mul_zero]
  have rows : ∀ r ∈ table, (Pattern.bits 0xFF00 0).Clash r.pattern ∨
      r.pattern = .bits 0xFFF0 0x00C0 ∨
      ∃ v ∈ [0xE0, 0xEE, 0xFB, 0xFC, 0xFD, 0xFE, 0xFF], r.pattern = .bits 0xFFFF v := by decide
  rcases rows r hr with hr | hr | ⟨v, hv, hr⟩
  · exact hr.not_covers c.word ⟨hf, hc⟩
  · rw [Row.Covers, hr] at hc
    have hs := (and_field c.word.toNat 4 12).symm.trans hc
    rw [hw] at hs
    omega
  · rw [Row.Covers, hr] at hc
    have hs := (Nat.and_two_pow_sub_one_eq_mod c.word.toNat 16).symm.trans hc
    rw [Nat.mod_eq_of_lt c.word.toNat_lt, hw] at hs
    exact hkeys (hs ▸ hv)

theorem not_covers_of_meaning (h : c.meaning = .ok none) :
    ∀ r ∈ table, ¬ r.Covers c.word := by
  intro r hr hc
  unfold meaning at h
  split at h
  case h_1 =>
    split at h
    next hi => exact not_covers_of_control hi (Option.map_eq_none_iff.mp (Except.ok.inj h)) r hr hc
    next => cases h
  case h_6 hg | h_10 hg =>
    have hn := n_mem_of_covers [0] (by decide) hg hr hc
    split at h
    next => cases h
    next hne => exact hne (List.mem_singleton.mp hn)
  case h_9 hg =>
    have hn := n_mem_of_covers [0x0, 0x1, 0x2, 0x3, 0x4, 0x5, 0x6, 0x7, 0xE] (by decide) hg hr hc
    exact arithmetic?_eq_none (Option.map_eq_none_iff.mp (Except.ok.inj h)) hn
  case h_15 hg =>
    have hlo := lo_mem_of_covers [0x9E, 0xA1] (by decide) hg hr hc
    exact keySkip?_eq_none (Option.map_eq_none_iff.mp (Except.ok.inj h)) hlo
  case h_16 hg =>
    have hlo := lo_mem_of_covers
      [0x07, 0x0A, 0x15, 0x18, 0x1E, 0x29, 0x30, 0x33, 0x55, 0x65, 0x75, 0x85] (by decide) hg hr hc
    exact transfer?_eq_none (Except.ok.inj h) hlo
  all_goals cases h

theorem meaning_of_covers (hr : r ∈ table) (hc : r.Covers c.word) :
    ∃ os, c.meaning = .ok (some (r.operation, os)) ∧
      os.map Operand.entry = r.entries c.word := by
  obtain ⟨m, hm⟩ := c.meaning_ok
  cases m with
  | none => exact absurd hc (not_covers_of_meaning hm r hr)
  | some m =>
      obtain ⟨s, hs, hsc, hop, he⟩ := listed_of_meaning hm
      obtain rfl := Row.eq_of_covers hr hs hc hsc
      exact ⟨m.2, hop ▸ hm, he⟩

theorem meaning_of_not_covers (h : ∀ r ∈ table, ¬ r.Covers c.word) :
    c.meaning = .ok none := by
  obtain ⟨m, hm⟩ := c.meaning_ok
  cases m with
  | none => exact hm
  | some m =>
      obtain ⟨r, hr, hc, -⟩ := listed_of_meaning hm
      exact absurd hc (h r hr)

theorem instruction_of_covers (hr : r ∈ table) (hc : r.Covers c.word) :
    c.instruction.mnemonic = .known r.operation ∧
      c.instruction.operands.map Operand.entry = r.entries c.word := by
  obtain ⟨os, hm, he⟩ := meaning_of_covers hr hc
  rw [instruction, hm]
  exact ⟨rfl, he⟩

theorem instruction_of_not_covers (h : ∀ r ∈ table, ¬ r.Covers c.word) :
    c.instruction = ⟨.unknown c, [], c⟩ := by
  rw [instruction, meaning_of_not_covers h]

end Opcode

namespace Program

/-- Disassembly reads an image as the table has it, in which no two rows have a word in common: an
instruction for each two bytes, with the operation of the row that their word falls under and with
operands of the kinds and numbers that the row takes from the fields of the word, and with the two
bytes and no operand if there is no such row. -/
theorem disassembly_follows_table :
    table.Pairwise (fun r s => ∀ w, ¬ (r.Covers w ∧ s.Covers w)) ∧
    ∀ bytes : List UInt8, ∃ is, (disassemble bytes).run.value = .ok is ∧
      is.length = bytes.length / 2 ∧
      ∀ k hi lo, bytes[2 * k]? = some hi → bytes[2 * k + 1]? = some lo →
        ∃ (i : Instruction) (w : UInt16), is[k]? = some i ∧
          w.toNat = 256 * hi.toNat + lo.toNat ∧
          (∀ r ∈ table, r.Covers w →
            i.mnemonic = .known r.operation ∧ i.operands.map Operand.entry = r.entries w) ∧
          ((∀ r ∈ table, ¬ r.Covers w) → i.mnemonic = .unknown ⟨hi, lo⟩ ∧ i.operands = []) := by
  refine ⟨Row.pairwise_apart, ?_⟩
  intro bytes
  refine ⟨instructions bytes, ?_, length_instructions bytes, ?_⟩
  · rw [disassemble_run]
  · intro k hi lo hhi hlo
    let c : Opcode := ⟨hi, lo⟩
    have hc : (codes bytes)[k]? = some c := (getElem?_codes_eq_some_iff bytes k c).mpr ⟨hhi, hlo⟩
    refine ⟨c.instruction, c.word, ?_, c.toNat_word, ?_, ?_⟩
    · rw [instructions, List.getElem?_map, hc, Option.map_some]
    · intro r hr hw
      exact Opcode.instruction_of_covers hr hw
    · intro hn
      rw [Opcode.instruction_of_not_covers hn]
      exact ⟨rfl, rfl⟩

end Program

end Chip8
