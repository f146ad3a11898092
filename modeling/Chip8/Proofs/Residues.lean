import Chip8.Proofs.RoundTrip

namespace Chip8

namespace Json

theorem variant?_eq_some_iff (v : Json) (name : String) (held : Option Json) :
    v.variant? = some (name, held) ↔
      v = .str name ∧ held = none ∨ ∃ w, v = .obj [(name, w)] ∧ held = some w := by
  unfold variant?
  split
  next => simp [eq_comm]
  next => simp [eq_comm]
  next hs ho =>
    constructor
    · intro h
      cases h
    · rintro (⟨rfl, -⟩ | ⟨w, rfl, -⟩)
      · exact (hs _ rfl).elim
      · exact (ho _ _ rfl).elim

theorem variant?_eq_some_some_iff (v : Json) (name : String) (held : Json) :
    v.variant? = some (name, some held) ↔ v = .obj [(name, held)] := by
  rw [variant?_eq_some_iff]
  simp

theorem choice?_eq_some_iff {α : Type} {all : List α} {tag : α → String}
    (nodup : (all.map tag).Nodup) {a : α} (ha : a ∈ all) (v : Json) :
    choice? all tag v = some a ↔ v = .str (tag a) ∨ v = .obj [(tag a, .null)] := by
  have hfind {name : String} (h : all.find? (fun b => tag b = name) = some a) : tag a = name := by
    simpa using List.find?_some h
  constructor
  · intro h
    unfold choice? at h
    split at h
    next name hv =>
      obtain ⟨rfl, -⟩ | ⟨w, -, hw⟩ := (variant?_eq_some_iff v name none).mp hv
      · exact .inl (by rw [hfind h])
      · cases hw
    next name hv =>
      obtain rfl := (variant?_eq_some_some_iff v name null).mp hv
      exact .inr (by rw [hfind h])
    next => cases h
  · rintro (rfl | rfl)
    · exact choice?_tag nodup ha
    · exact choice?_tag nodup ha

end Json

namespace Scalar

variable {k : Kind}

theorem ofJson?_eq_some_iff (v : Json) (s : Scalar k) :
    Serial.ofJson? v = some s ↔ ∃ n ≤ k.max, v = .nat n ∧ s = ofNat k n := by
  have h : (Serial.ofJson? v : Option (Scalar k)) = (v.natUpTo? k.max).map (ofNat k) := rfl
  rw [h, Option.map_eq_some_iff]
  simp only [Json.natUpTo?_eq_some_iff]
  constructor
  · rintro ⟨n, ⟨rfl, hn⟩, rfl⟩
    exact ⟨n, hn, rfl, rfl⟩
  · rintro ⟨n, hn, rfl, rfl⟩
    exact ⟨n, ⟨rfl, hn⟩, rfl⟩

theorem isSome_ofJson?_iff (k : Kind) (v : Json) :
    (Serial.ofJson? v : Option (Scalar k)).isSome ↔ ∃ n ≤ k.max, v = .nat n := by
  rw [Option.isSome_iff_exists]
  simp only [ofJson?_eq_some_iff]
  constructor
  · rintro ⟨s, n, hn, hv, -⟩
    exact ⟨n, hn, hv⟩
  · rintro ⟨n, hn, hv⟩
    exact ⟨ofNat k n, n, hn, hv, rfl⟩

theorem eq_ofNat_of_ofJson? {n : Nat} {s : Scalar k} (h : Serial.ofJson? (.nat n) = some s) :
    s = ofNat k n := by
  obtain ⟨m, -, hm, rfl⟩ := (ofJson?_eq_some_iff _ s).mp h
  rw [Json.nat.inj hm]

theorem compare_ofNat (k : Kind) (m n : Nat) :
    compare (ofNat k m) (ofNat k n) = compare (m % 2 ^ k.width) (n % 2 ^ k.width) := by
  rw [← toNat_ofNat, ← toNat_ofNat]
  rfl

theorem text_ofNat (k : Kind) (n : Nat) :
    (ofNat k n).text = k.sigil ++ Hex.upper k.digits (n % 2 ^ k.width) := by
  rw [text, toNat_ofNat]

theorem write_ofNat (k : Kind) (n : Nat) :
    Serial.write (ofNat k n) = toString (n % 2 ^ k.width) := by
  have h : Serial.write (ofNat k n) = String.ofList (Nat.toDigits 10 (ofNat k n).toNat) := rfl
  rw [h, toNat_ofNat, Nat.toString_eq_repr, Nat.repr_eq_ofList_toDigits]

/-- Numbers of digits alone are read up to `max`, and what is read of one, by itself or under a name
as an operand, is its remainder by `2 ^ width`, in value, in order, in JSON and in text. -/
structure Masks (k : Kind) (name : String) (max width : Nat) : Prop where
  accepts (v : Json) : (Serial.ofJson? v : Option (Scalar k)).isSome ↔ ∃ n ≤ max, v = .nat n
  value (n : Nat) (s : Scalar k) : Serial.ofJson? (.nat n) = some s → s.toNat = n % 2 ^ width
  order (m n : Nat) (s t : Scalar k) : Serial.ofJson? (.nat m) = some s →
    Serial.ofJson? (.nat n) = some t → (s = t ↔ m % 2 ^ width = n % 2 ^ width) ∧
      compare s t = compare (m % 2 ^ width) (n % 2 ^ width)
  shown (n : Nat) (s : Scalar k) : Serial.ofJson? (.nat n) = some s →
    Serial.write s = toString (n % 2 ^ width) ∧
      s.text = k.sigil ++ Hex.upper k.digits (n % 2 ^ width)
  operand (n : Nat) (o : Operand) : Serial.ofJson? (.obj [(name, .nat n)]) = some o →
    Serial.toJson o = .obj [(name, .nat (n % 2 ^ width))] ∧
      o.text = k.sigil ++ Hex.upper k.digits (n % 2 ^ width)

theorem masks (k : Kind) : Masks k k.tag k.max k.width where
  accepts v := isSome_ofJson?_iff k v
  value n s h := by rw [eq_ofNat_of_ofJson? h, toNat_ofNat]
  order m n s t hs ht := by
    rw [eq_ofNat_of_ofJson? hs, eq_ofNat_of_ofJson? ht]
    exact ⟨ofNat_eq_iff k m n, compare_ofNat k m n⟩
  shown n s h := by
    rw [eq_ofNat_of_ofJson? h]
    exact ⟨write_ofNat k n, text_ofNat k n⟩
  operand n o h := by
    rw [Operand.ofJson?_tag] at h
    obtain ⟨s, hs, rfl⟩ := Option.map_eq_some_iff.mp h
    obtain rfl := eq_ofNat_of_ofJson? hs
    refine ⟨?_, text_ofNat k n⟩
    rw [← toNat_ofNat]
    rfl

end Scalar

namespace Label

def variants : List (String × Label) :=
  [("I", index), ("Dt", delayTimer), ("St", soundTimer), ("K", key), ("F", font),
    ("Hf", largeFont), ("B", decimal), ("R", flags)]

theorem mem_variants_iff (name : String) (l : Label) : (name, l) ∈ variants ↔ name = l.tag := by
  cases l <;> simp [variants, tag]

theorem ofJson?_eq_some_iff (v : Json) (l : Label) :
    Serial.ofJson? v = some l ↔
      ∃ name, (name, l) ∈ variants ∧ (v = .str name ∨ v = .obj [(name, .null)]) := by
  simp only [mem_variants_iff, exists_eq_left]
  exact Json.choice?_eq_some_iff (by decide) l.mem_all v

end Label

namespace Operand

/-- The name tells the kind as which the held value is read. -/
inductive Holds (held : Json) : String → Operand → Prop
  | addr {a : Addr} (h : Serial.ofJson? held = some a) : Holds held "Addr" a
  | imm {i : Imm} (h : Serial.ofJson? held = some i) : Holds held "Imm" i
  | nibble {n : Nibble} (h : Serial.ofJson? held = some n) : Holds held "Nibble" n
  | reg {r : Reg} (h : Serial.ofJson? held = some r) : Holds held "Reg" r
  | label {l : Label} (h : Serial.ofJson? held = some l) : Holds held "Named" l

theorem Holds.of_scalar {k : Scalar.Kind} {held : Json} {s : Scalar k}
    (h : Serial.ofJson? held = some s) : Holds held k.tag s := by
  cases k with
  | addr => exact .addr h
  | imm => exact .imm h
  | nibble => exact .nibble h
  | reg => exact .reg h

theorem Holds.ofJson? {name : String} {held : Json} {o : Operand} (h : Holds held name o) :
    Serial.ofJson? (.obj [(name, held)]) = some o := by
  cases h with
  | addr h => exact (ofJson?_tag .addr held).trans (Option.map_eq_some_iff.mpr ⟨_, h, rfl⟩)
  | imm h => exact (ofJson?_tag .imm held).trans (Option.map_eq_some_iff.mpr ⟨_, h, rfl⟩)
  | nibble h => exact (ofJson?_tag .nibble held).trans (Option.map_eq_some_iff.mpr ⟨_, h, rfl⟩)
  | reg h => exact (ofJson?_tag .reg held).trans (Option.map_eq_some_iff.mpr ⟨_, h, rfl⟩)
  | label h => exact (ofJson?_labelTag held).trans (Option.map_eq_some_iff.mpr ⟨_, h, rfl⟩)

theorem ofJson?_eq_some_iff (v : Json) (o : Operand) :
    Serial.ofJson? v = some o ↔ ∃ name held, v = .obj [(name, held)] ∧ Holds held name o := by
  constructor
  · intro h
    simp only [Serial.ofJson?, Serial.reading, ReadM.run_ofOption, Logged.value_pure] at h
    split at h
    next name held hv =>
      refine ⟨name, held, (Json.variant?_eq_some_some_iff v name held).mp hv, ?_⟩
      split at h
      next hl =>
        obtain ⟨l, hh, rfl⟩ := Option.map_eq_some_iff.mp h
        exact hl ▸ .label hh
      next =>
        obtain ⟨k, hk, h⟩ := Option.bind_eq_some_iff.mp h
        obtain ⟨s, hs, h⟩ := Option.bind_eq_some_iff.mp h
        cases h
        obtain rfl : k.tag = name := by simpa using List.find?_some hk
        exact .of_scalar hs
    next => cases h
  · rintro ⟨name, held, rfl, h⟩
    exact h.ofJson?

/-- A number is read as an operand if it is written in digits alone and fits into two bytes for an
address and into one byte for the other kinds, and nothing is known of it but its remainder. A label
is read by its name, with null in it or without, and an operand from an object with one member,
whose name tells the kind. -/
theorem read_modulo_width :
    Scalar.Masks .addr "Addr" 65535 12 ∧ Scalar.Masks .imm "Imm" 255 8 ∧
    Scalar.Masks .nibble "Nibble" 255 4 ∧ Scalar.Masks .reg "Reg" 255 4 ∧
    (∀ (v : Json) (l : Label), Serial.ofJson? v = some l ↔
      ∃ name, (name, l) ∈ Label.variants ∧ (v = .str name ∨ v = .obj [(name, .null)])) ∧
    ∀ (v : Json) (o : Operand), Serial.ofJson? v = some o ↔
      ∃ name held, v = .obj [(name, held)] ∧ Holds held name o :=
  ⟨Scalar.masks .addr, Scalar.masks .imm, Scalar.masks .nibble, Scalar.masks .reg,
    Label.ofJson?_eq_some_iff, ofJson?_eq_some_iff⟩

end Operand

end Chip8
