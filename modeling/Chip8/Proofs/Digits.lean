import Chip8.Hex
import Chip8.Operand
import Mathlib.Algebra.Group.Nat.Defs

namespace Chip8

namespace Hex

theorem value?_append_digit {cs : List Char} {n d : Nat} (hn : value? cs = some n) (hd : d < 16) :
    value? (cs ++ [Nat.digitChar d]) = some (16 * n + d) := by
  have hf : List.foldlM (fun n c => (digit? c).map (16 * n + ·)) 0 cs = some n := hn
  rw [value?, List.foldlM_append, hf]
  simp [digit?_digitChar hd]

/-- Digits read back as the number they were taken from, up to the digits that were left out. -/
theorem value?_digits (w n : Nat) : value? (digits w n) = some (n % 16 ^ w) := by
  induction w generalizing n with
  | zero => simp [digits, value?, Nat.mod_one]
  | succ w ih =>
      rw [digits, value?_append_digit (ih (n / 16)) (Nat.mod_lt n (by decide)), Nat.pow_succ',
        Nat.mod_mul, Nat.add_comm]

theorem toList_upper (w n : Nat) : (upper w n).toList = (digits w n).map Char.toUpper :=
  String.toList_ofList

theorem length_upper (w n : Nat) : (upper w n).toList.length = w := by
  rw [toList_upper, List.length_map, length_digits]

theorem mem_digits {w n : Nat} {c : Char} (h : c ∈ digits w n) :
    ∃ d, d < 16 ∧ c = Nat.digitChar d := by
  induction w generalizing n with
  | zero => cases h
  | succ w ih =>
      rcases List.mem_append.mp h with h | h
      · exact ih h
      · exact ⟨n % 16, Nat.mod_lt n (by decide), List.mem_singleton.mp h⟩

theorem forall_mem_upper {p : Char → Prop} (hp : ∀ d < 16, p (Nat.digitChar d).toUpper)
    (w n : Nat) : ∀ c ∈ (upper w n).toList, p c := by
  intro c hc
  rw [toList_upper] at hc
  obtain ⟨b, hb, rfl⟩ := List.mem_map.mp hc
  obtain ⟨d, hd, rfl⟩ := mem_digits hb
  exact hp d hd

theorem digit?_toUpper (c : Char) : digit? c.toUpper = digit? c := by
  by_cases h : 'a'.val ≤ c.val ∧ c.val ≤ 'z'.val
  · have all : ∀ n < 123, 97 ≤ n → digit? (Char.ofNat n).toUpper = digit? (Char.ofNat n) := by
      decide
    have hl : 97 ≤ c.toNat := UInt32.le_iff_toNat_le.mp h.1
    have hu : c.toNat ≤ 122 := UInt32.le_iff_toNat_le.mp h.2
    have hc := all c.toNat (by omega) hl
    rwa [Char.ofNat_toNat] at hc
  · exact congrArg digit? (dif_neg h)

theorem value?_upper (w n : Nat) : value? (upper w n).toList = some (n % 16 ^ w) := by
  rw [toList_upper, value?, List.foldlM_map]
  simp only [digit?_toUpper]
  exact value?_digits w n

theorem upper_inj {w m n : Nat} (hm : m < 16 ^ w) (hn : n < 16 ^ w) :
    upper w m = upper w n ↔ m = n := by
  constructor
  · intro h
    have hv := value?_upper w m
    rw [h, value?_upper, Nat.mod_eq_of_lt hm, Nat.mod_eq_of_lt hn] at hv
    exact (Option.some.inj hv).symm
  · rintro rfl
    rfl

theorem value?_append_of_eq_none {cs : List Char} (h : value? cs = none) (ds : List Char) :
    value? (cs ++ ds) = none := by
  rw [value?, List.foldlM_append]
  exact congrArg (· >>= _) h

end Hex

theorem head?_toDigits {b n : Nat} (hb : 1 < b) (hb' : b ≤ 16) (hn : 0 < n) :
    (Nat.toDigits b n).head? ≠ some '0' := by
  induction n using Nat.strongRecOn with
  | ind n ih =>
      by_cases h : n < b
      · have all : ∀ n < 16, 0 < n → [Nat.digitChar n].head? ≠ some '0' := by decide
        rw [Nat.toDigits_of_lt_base h]
        exact all n (Nat.lt_of_lt_of_le h hb') hn
      · have hd : 0 < n / b := Nat.div_pos (Nat.le_of_not_lt h) (Nat.lt_of_succ_lt hb)
        rw [Nat.toDigits_of_base_le hb (Nat.le_of_not_lt h), List.head?_append]
        cases hh : (Nat.toDigits b (n / b)).head? with
        | none => exact absurd (List.head?_eq_none_iff.mp hh) Nat.toDigits_ne_nil
        | some c =>
            have hc := ih (n / b) (Nat.div_lt_self hn hb) hd
            rwa [hh] at hc

namespace Hex

def lowerDigits : List Char := "0123456789abcdef".toList

def upperDigits : List Char := "0123456789ABCDEF".toList

/-- The text consists of some letters and stands for `n`. -/
structure Spells (letters : List Char) (n : Nat) (s : String) : Prop where
  mem : ∀ c ∈ s.toList, c ∈ letters
  value : value? s.toList = some n

def Padded (letters : List Char) (w n : Nat) (s : String) : Prop :=
  Spells letters n s ∧ s.toList.length = w

/-- No zero stands in front, unless it is the whole number. -/
def Unpadded (letters : List Char) (n : Nat) (s : String) : Prop :=
  Spells letters n s ∧ s ≠ "" ∧ (s.toList.head? = some '0' → s = "0")

theorem mem_lowerDigits {d : Nat} (h : d < 16) : Nat.digitChar d ∈ lowerDigits := by
  have all : ∀ d < 16, Nat.digitChar d ∈ lowerDigits := by decide
  exact all d h

theorem padded_upper {w n : Nat} (h : n < 16 ^ w) : Padded upperDigits w n (upper w n) := by
  have all : ∀ d < 16, (Nat.digitChar d).toUpper ∈ upperDigits := by decide
  refine ⟨⟨forall_mem_upper all w n, ?_⟩, length_upper w n⟩
  rw [value?_upper, Nat.mod_eq_of_lt h]

theorem padded_lower {w n : Nat} (h : n < 16 ^ w) : Padded lowerDigits w n (lower w n) := by
  have hl : (lower w n).toList = digits w n := String.toList_ofList
  refine ⟨⟨?_, ?_⟩, ?_⟩
  · intro c hc
    rw [hl] at hc
    obtain ⟨d, hd, rfl⟩ := mem_digits hc
    exact mem_lowerDigits hd
  · rw [hl, value?_digits, Nat.mod_eq_of_lt h]
  · rw [hl, length_digits]

theorem value?_toDigits (n : Nat) : value? (Nat.toDigits 16 n) = some n := by
  induction n using Nat.strongRecOn with
  | ind n ih =>
      by_cases h : n < 16
      · rw [Nat.toDigits_of_lt_base h]
        have hv : value? ([] ++ [Nat.digitChar n]) = some (16 * 0 + n) := value?_append_digit rfl h
        rwa [List.nil_append, Nat.mul_zero, Nat.zero_add] at hv
      · rw [Nat.toDigits_of_base_le (by decide) (Nat.le_of_not_lt h),
          value?_append_digit (ih (n / 16) (by omega)) (Nat.mod_lt n (by decide)), Nat.div_add_mod]

theorem mem_toDigits {n : Nat} {c : Char} (h : c ∈ Nat.toDigits 16 n) : c ∈ lowerDigits := by
  induction n using Nat.strongRecOn with
  | ind n ih =>
      by_cases hn : n < 16
      · rw [Nat.toDigits_of_lt_base hn, List.mem_singleton] at h
        exact h ▸ mem_lowerDigits hn
      · rw [Nat.toDigits_of_base_le (by decide) (Nat.le_of_not_lt hn)] at h
        rcases List.mem_append.mp h with h | h
        · exact ih (n / 16) (by omega) h
        · exact List.mem_singleton.mp h ▸ mem_lowerDigits (Nat.mod_lt n (by decide))

theorem unpadded_shortest (n : Nat) : Unpadded lowerDigits n (shortest n) := by
  have hl : (shortest n).toList = Nat.toDigits 16 n := String.toList_ofList
  refine ⟨⟨?_, ?_⟩, ?_, ?_⟩
  · intro c hc
    rw [hl] at hc
    exact mem_toDigits hc
  · rw [hl, value?_toDigits]
  · intro h
    rw [h] at hl
    exact Nat.toDigits_ne_nil hl.symm
  · intro h
    rw [hl] at h
    cases n with
    | zero => rfl
    | succ n => exact absurd h (head?_toDigits (by decide) (by decide) (Nat.succ_pos n))

end Hex

namespace Scalar

variable {k : Kind}

theorem toNat_ofNat (k : Kind) (n : Nat) : (ofNat k n).toNat = n % 2 ^ k.width :=
  BitVec.toNat_ofNat n k.width

theorem toNat_lt (s : Scalar k) : s.toNat < 2 ^ k.width := s.bits.isLt

theorem ofNat_eq_iff (k : Kind) (m n : Nat) :
    ofNat k m = ofNat k n ↔ m % 2 ^ k.width = n % 2 ^ k.width := by
  rw [← toNat_inj, toNat_ofNat, toNat_ofNat]

theorem toList_text (s : Scalar k) :
    s.text.toList = k.sigil.toList ++ (Hex.upper k.digits s.toNat).toList := String.toList_append

theorem text_injective (k : Kind) : Function.Injective (text (k := k)) := by
  intro s t h
  have hl : s.text.toList = t.text.toList := congrArg String.toList h
  rw [toList_text, toList_text, List.append_cancel_left_eq, String.toList_inj] at hl
  have hw : 2 ^ k.width = 16 ^ k.digits := by rw [Kind.width, Nat.pow_mul]
  exact toNat_inj.mp ((Hex.upper_inj (hw ▸ s.toNat_lt) (hw ▸ t.toNat_lt)).mp hl)

theorem head?_text (s : Scalar k) : s.text.toList.head? = k.sigil.toList.head? := by
  have hk : k.sigil.toList.head?.isSome := by cases k <;> decide
  rw [toList_text, List.head?_append, Option.or_of_isSome hk]

theorem kind_of_text {k l : Kind} (s : Scalar k) (t : Scalar l)
    (h : s.text.toList = t.text.toList) : k = l := by
  have hh := congrArg List.head? h
  rw [head?_text, head?_text] at hh
  have hl := congrArg List.length h
  rw [toList_text, toList_text, List.length_append, List.length_append, Hex.length_upper,
    Hex.length_upper] at hl
  revert hh hl
  cases k <;> cases l <;> decide

end Scalar

end Chip8
