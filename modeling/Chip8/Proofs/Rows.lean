import Chip8.Decode
import Chip8.Proofs.Digits
import Chip8.Table

namespace Chip8

theorem and_field (w s k : Nat) : w &&& 2 ^ s * (2 ^ k - 1) = 2 ^ s * (w / 2 ^ s % 2 ^ k) := by
  rw [← Nat.mod_add_div (w &&& _) (2 ^ s), Nat.and_mod_two_pow, Nat.and_div_two_pow,
    Nat.mul_mod_right, Nat.and_zero, Nat.zero_add, Nat.mul_div_cancel_left _ (Nat.two_pow_pos s),
    Nat.and_two_pow_sub_one_eq_mod]

/-- The operand that decoding takes for a slot from the bytes. -/
def Slot.read (c : Opcode) : Slot → Operand
  | nnn => c.nnn
  | x => c.x
  | y => c.y
  | n => c.n
  | kk => c.kk
  | v0 => Scalar.ofNat .reg 0
  | label l => l

theorem Slot.entry_read (c : Opcode) (s : Slot) : (s.read c).entry = s.entry c.word := by
  have hlo := c.lo.toNat_lt
  have number {k : Scalar.Kind} {m n : Nat} (h : m % 2 ^ (4 * k.digits) = n) :
      (Operand.scalar k (.ofNat k m)).entry = .number k n :=
    congrArg (Entry.number k) ((Scalar.toNat_ofNat k m).trans h)
  cases s with
  | v0 => rfl
  | label l => rfl
  | nnn | x | y | n | kk =>
      rw [entry, c.toNat_word]
      apply number
      simp only [Scalar.Kind.digits]
      omega

namespace Opcode

/-- A row of the table covers the opcode and gives it this meaning. -/
def Listed (c : Opcode) (m : Operation × List Operand) : Prop :=
  ∃ r ∈ table, r.Covers c.word ∧ m.1 = r.operation ∧ m.2.map Operand.entry = r.entries c.word

theorem group_eq (c : Opcode) : c.group = c.word.toNat / 2 ^ 12 % 2 ^ 4 := by
  have hi := c.hi.toNat_lt
  have lo := c.lo.toNat_lt
  rw [group, toNat_word]
  omega

theorem and_mask (c : Opcode) (k : Nat) :
    c.word.toNat &&& (0xF000 ||| (2 ^ k - 1)) = 0x1000 * c.group ||| c.word.toNat % 2 ^ k := by
  rw [Nat.and_or_distrib_left, Nat.and_two_pow_sub_one_eq_mod, group_eq]
  exact congrArg (· ||| _) (and_field c.word.toNat 12 4)

theorem Listed.of_row {c : Opcode} (r : Row) (hr : r ∈ table) (hc : r.Covers c.word) :
    c.Listed (r.operation, r.slots.map (Slot.read c)) := by
  refine ⟨r, hr, hc, rfl, ?_⟩
  rw [List.map_map, Row.entries]
  exact List.map_congr_left fun s _ => s.entry_read c

theorem Listed.of_fields {c : Opcode} (op : Operation) (slots : List Slot) (k : Nat) {g v : Nat}
    (hr : ⟨.bits (0xF000 ||| (2 ^ k - 1)) (0x1000 * g ||| v), op, slots⟩ ∈ table)
    (hg : c.group = g) (hv : c.word.toNat % 2 ^ k = v) :
    c.Listed (op, slots.map (Slot.read c)) := by
  apply of_row _ hr
  rw [Row.Covers, Pattern.Covers, and_mask, hg, hv]

theorem word_mod_n (c : Opcode) : c.word.toNat % 2 ^ 4 = c.n.toNat := by
  rw [toNat_word, n, Scalar.toNat_ofNat]
  simp only [Scalar.Kind.width, Scalar.Kind.digits]
  omega

theorem word_mod_lo (c : Opcode) : c.word.toNat % 2 ^ 8 = c.lo.toNat := by
  have lo := c.lo.toNat_lt
  rw [toNat_word]
  omega

theorem word_of_hi_eq_zero {c : Opcode} (h : c.hi = 0) : c.word.toNat = c.lo.toNat := by
  rw [toNat_word, h]
  exact Nat.zero_add _

theorem group_of_hi_eq_zero {c : Opcode} (h : c.hi = 0) : c.group = 0 := by
  rw [group, h]
  rfl

theorem highByte_of_group {c : Opcode} (hg : c.group = 0) (hi : c.hi ≠ 0) :
    0x01 ≤ c.word.toNat / 0x100 ∧ c.word.toNat / 0x100 ≤ 0x0F := by
  have hlo := c.lo.toNat_lt
  have hne : c.hi.toNat ≠ 0 := fun h => hi (UInt8.toNat_inj.mp h)
  rw [group] at hg
  rw [toNat_word]
  omega

theorem listed_control {c : Opcode} (hi : c.hi = 0) {op : Operation}
    (h : c.control? = some op) : c.Listed (op, []) := by
  have hg := group_of_hi_eq_zero hi
  have hw := word_of_hi_eq_zero hi
  have hlo := c.lo.toNat_lt
  have whole {v : Nat} (hv : c.lo.toNat = v) : c.word.toNat % 2 ^ 12 = v := by
    rw [hw]
    omega
  unfold control? at h
  split at h
  case h_1 hv => cases h; exact .of_fields .cls [] 12 (by decide) hg (whole hv)
  case h_2 hv => cases h; exact .of_fields .ret [] 12 (by decide) hg (whole hv)
  case h_3 hv => cases h; exact .of_fields .scr [] 12 (by decide) hg (whole hv)
  case h_4 hv => cases h; exact .of_fields .scl [] 12 (by decide) hg (whole hv)
  case h_5 hv => cases h; exact .of_fields .exit [] 12 (by decide) hg (whole hv)
  case h_6 hv => cases h; exact .of_fields .low [] 12 (by decide) hg (whole hv)
  case h_7 hv => cases h; exact .of_fields .high [] 12 (by decide) hg (whole hv)
  case h_8 =>
    split at h
    next hv =>
      cases h
      apply Listed.of_row ⟨.bits 0xFFF0 0x00C0, .scd, []⟩ (by decide)
      refine (and_field c.word.toNat 4 12).trans ?_
      rw [hw]
      omega
    next => cases h

theorem listed_arithmetic {c : Opcode} (hg : c.group = 8) {op : Operation}
    (h : c.arithmetic? = some op) : c.Listed (op, [c.x, c.y]) := by
  have hn := c.word_mod_n
  unfold arithmetic? at h
  split at h
  case h_1 hv => cases h; exact .of_fields .ld [.x, .y] 4 (by decide) hg (hn.trans hv)
  case h_2 hv => cases h; exact .of_fields .or [.x, .y] 4 (by decide) hg (hn.trans hv)
  case h_3 hv => cases h; exact .of_fields .and [.x, .y] 4 (by decide) hg (hn.trans hv)
  case h_4 hv => cases h; exact .of_fields .xor [.x, .y] 4 (by decide) hg (hn.trans hv)
  case h_5 hv => cases h; exact .of_fields .add [.x, .y] 4 (by decide) hg (hn.trans hv)
  case h_6 hv => cases h; exact .of_fields .sub [.x, .y] 4 (by decide) hg (hn.trans hv)
  case h_7 hv => cases h; exact .of_fields .shr [.x, .y] 4 (by decide) hg (hn.trans hv)
  case h_8 hv => cases h; exact .of_fields .subn [.x, .y] 4 (by decide) hg (hn.trans hv)
  case h_9 hv => cases h; exact .of_fields .shl [.x, .y] 4 (by decide) hg (hn.trans hv)
  case h_10 => cases h

theorem listed_keySkip {c : Opcode} (hg : c.group = 0xE) {op : Operation}
    (h : c.keySkip? = some op) : c.Listed (op, [c.x]) := by
  have hk := c.word_mod_lo
  unfold keySkip? at h
  split at h
  case h_1 hv => cases h; exact .of_fields .skp [.x] 8 (by decide) hg (hk.trans hv)
  case h_2 hv => cases h; exact .of_fields .sknp [.x] 8 (by decide) hg (hk.trans hv)
  case h_3 => cases h

theorem listed_transfer {c : Opcode} (hg : c.group = 0xF) {m : Operation × List Operand}
    (h : c.transfer? = some m) : c.Listed m := by
  have row (op : Operation) (slots : List Slot) {v : Nat} (hv : c.lo.toNat = v)
      (hr : ⟨.bits 0xF0FF (0xF000 ||| v), op, slots⟩ ∈ table) :
      c.Listed (op, slots.map (Slot.read c)) :=
    .of_fields op slots 8 hr hg (c.word_mod_lo.trans hv)
  unfold transfer? at h
  split at h
  case h_1 hv => cases h; exact row .ld [.x, .label .delayTimer] hv (by decide)
  case h_2 hv => cases h; exact row .ld [.x, .label .key] hv (by decide)
  case h_3 hv => cases h; exact row .ld [.label .delayTimer, .x] hv (by decide)
  case h_4 hv => cases h; exact row .ld [.label .soundTimer, .x] hv (by decide)
  case h_5 hv => cases h; exact row .add [.label .index, .x] hv (by decide)
  case h_6 hv => cases h; exact row .ld [.label .font, .x] hv (by decide)
  case h_7 hv => cases h; exact row .ldExt [.label .largeFont, .x] hv (by decide)
  case h_8 hv => cases h; exact row .ld [.label .decimal, .x] hv (by decide)
  case h_9 hv => cases h; exact row .ld [.label .index, .x] hv (by decide)
  case h_10 hv => cases h; exact row .ld [.x, .label .index] hv (by decide)
  case h_11 hv => cases h; exact row .ldExt [.label .flags, .x] hv (by decide)
  case h_12 hv => cases h; exact row .ldExt [.x, .label .flags] hv (by decide)
  case h_13 => cases h

theorem listed_of_meaning {c : Opcode} {m : Operation × List Operand}
    (h : c.meaning = .ok (some m)) : c.Listed m := by
  -- most groups are one row, or one row for those that end in zero
  have plain (op : Operation) (slots : List Slot) {g : Nat} (hg : c.group = g)
      (hr : ⟨.bits 0xF000 (0x1000 * g ||| 0), op, slots⟩ ∈ table) :
      c.Listed (op, slots.map (Slot.read c)) :=
    .of_fields op slots 0 hr hg (Nat.mod_one _)
  have pair (op : Operation) {g : Nat} (hg : c.group = g) (hn : c.n.toNat = 0)
      (hr : ⟨.bits 0xF00F (0x1000 * g ||| 0), op, [.x, .y]⟩ ∈ table) :
      c.Listed (op, [c.x, c.y]) :=
    .of_fields op [.x, .y] 4 hr hg (c.word_mod_n.trans hn)
  unfold meaning at h
  split at h
  case h_1 hg =>
    split at h
    next hi =>
      obtain ⟨op, hop, rfl⟩ := Option.map_eq_some_iff.mp (Except.ok.inj h)
      exact listed_control hi hop
    next hi =>
      cases h
      exact .of_row ⟨.highByte 0x01 0x0F, .sys, []⟩ (by decide) (highByte_of_group hg hi)
  case h_2 hg => cases h; exact plain .jmp [.nnn] hg (by decide)
  case h_3 hg => cases h; exact plain .call [.nnn] hg (by decide)
  case h_4 hg => cases h; exact plain .se [.x, .kk] hg (by decide)
  case h_5 hg => cases h; exact plain .sne [.x, .kk] hg (by decide)
  case h_6 hg =>
    split at h
    next hn => cases h; exact pair .se hg hn (by decide)
    next => cases h
  case h_7 hg => cases h; exact plain .ld [.x, .kk] hg (by decide)
  case h_8 hg => cases h; exact plain .add [.x, .kk] hg (by decide)
  case h_9 hg =>
    obtain ⟨op, hop, rfl⟩ := Option.map_eq_some_iff.mp (Except.ok.inj h)
    exact listed_arithmetic hg hop
  case h_10 hg =>
    split at h
    next hn => cases h; exact pair .sne hg hn (by decide)
    next => cases h
  case h_11 hg => cases h; exact plain .ld [.label .index, .nnn] hg (by decide)
  case h_12 hg => cases h; exact plain .jp [.v0, .nnn] hg (by decide)
  case h_13 hg => cases h; exact plain .rnd [.x, .kk] hg (by decide)
  case h_14 hg => cases h; exact plain .drw [.x, .y, .n] hg (by decide)
  case h_15 hg =>
    obtain ⟨op, hop, rfl⟩ := Option.map_eq_some_iff.mp (Except.ok.inj h)
    exact listed_keySkip hg hop
  case h_16 hg => exact listed_transfer hg (Except.ok.inj h)
  case h_17 => cases h

end Opcode

end Chip8
