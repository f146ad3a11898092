import Chip8.Proofs.Digits
import Chip8.Proofs.Fields
import Chip8.Proofs.Parsing
import Chip8.Proofs.Record
import Mathlib.Data.List.Nodup

namespace Chip8

theorem Json.choice?_tag {α : Type} {all : List α} {tag : α → String} (nodup : (all.map tag).Nodup)
    {a : α} (ha : a ∈ all) : choice? all tag (.str (tag a)) = some a := by
  change all.find? (fun b => tag b = tag a) = some a
  cases hf : all.find? (fun b => tag b = tag a) with
  | none => exact absurd (decide_eq_true rfl) (List.find?_eq_none.mp hf a ha)
  | some b =>
      have ht : tag b = tag a := by simpa using List.find?_some hf
      rw [List.inj_on_of_nodup_map nodup (List.mem_of_find?_eq_some hf) ha ht]

namespace Serial

variable {α : Type} [Serial α]

/-- What is written for `a` is plain and is read as `a`. -/
structure Faithful (a : α) : Prop where
  plain : (toJson a).Plain
  ofJson?_toJson : ofJson? (toJson a) = some a

theorem Faithful.read?_write {a : α} (h : Faithful a) : read? (write a) = some a := by
  rw [read?, write, h.plain.parse?_text]
  exact h.ofJson?_toJson

theorem Faithful.list {as : List α} (h : ∀ a ∈ as, Faithful a) : Faithful as := by
  constructor
  · apply Json.Plain.arr
    intro v hv
    obtain ⟨a, ha, rfl⟩ := List.mem_map.mp hv
    exact (h a ha).plain
  · refine (ofJson?_list_eq_some_iff _ as).mpr ⟨as.map toJson, rfl, ?_⟩
    rw [List.forall₂_map_left_iff]
    exact List.forall₂_same.mpr fun a ha => (h a ha).ofJson?_toJson

def RoundTrips (α : Type) [Serial α] : Prop := ∀ a : α, read? (write a) = some a

/-- What is read from some text reads back as itself and is written as before. -/
def Settles (α : Type) [Serial α] : Prop :=
  ∀ (s : String) (a : α), read? s = some a → ∃ b, read? (write a) = some b ∧ b = a ∧
    write b = write a

theorem RoundTrips.of_faithful (h : ∀ a : α, Faithful a) : RoundTrips α :=
  fun a => (h a).read?_write

theorem Settles.of_faithful (h : ∀ (v : Json) (a : α), ofJson? v = some a → Faithful a) :
    Settles α := by
  intro s a ha
  obtain ⟨v, -, hv⟩ := Option.bind_eq_some_iff.mp ha
  exact ⟨a, (h v a hv).read?_write, rfl, rfl⟩

end Serial

open Serial (Faithful)

theorem Scalar.faithful {k : Scalar.Kind} (s : Scalar k) : Faithful s := by
  have hk : 2 ^ k.width ≤ k.max + 1 := by cases k <;> decide
  have hs : s.toNat ≤ k.max := Nat.le_of_lt_succ (Nat.lt_of_lt_of_le s.toNat_lt hk)
  constructor
  · exact .nat s.toNat
  · change ((Json.nat s.toNat).natUpTo? k.max).map (ofNat k) = some s
    rw [Json.natUpTo?, if_pos hs, Option.map_some, ofNat_toNat]

theorem Label.faithful (l : Label) : Faithful l :=
  ⟨.str l.tag, Json.choice?_tag (by decide) l.mem_all⟩

theorem Operand.ofJson?_tag (k : Scalar.Kind) (held : Json) :
    Serial.ofJson? (.obj [(k.tag, held)]) = (Serial.ofJson? held).map (scalar k) := by
  have hl : k.tag ≠ labelTag := by cases k <;> decide
  have hf : Scalar.Kind.all.find? (fun l => l.tag = k.tag) = some k := by cases k <;> rfl
  change (if k.tag = labelTag then (Serial.ofJson? held).map label
    else Scalar.Kind.all.find? (fun l => l.tag = k.tag) >>= fun l =>
      Serial.ofJson? held >>= fun s => some (scalar l s)) = (Serial.ofJson? held).map (scalar k)
  rw [if_neg hl, hf, Option.map_eq_bind]
  rfl

theorem Operand.ofJson?_labelTag (held : Json) :
    Serial.ofJson? (.obj [(labelTag, held)]) = (Serial.ofJson? held).map label := rfl

theorem Operand.faithful (o : Operand) : Faithful o := by
  cases o with
  | scalar k s =>
      constructor
      · exact .obj (by simpa using s.faithful.plain)
      · change Serial.ofJson? (.obj [(k.tag, Serial.toJson s)]) = some (scalar k s)
        rw [ofJson?_tag, s.faithful.ofJson?_toJson, Option.map_some]
  | label l =>
      constructor
      · exact .obj (by simpa using l.faithful.plain)
      · change Serial.ofJson? (.obj [(labelTag, Serial.toJson l)]) = some (label l)
        rw [ofJson?_labelTag, l.faithful.ofJson?_toJson, Option.map_some]

theorem Opcode.faithful (c : Opcode) : Faithful c := by
  have hhi : c.hi.toNat ≤ 255 := Nat.le_of_lt_succ c.hi.toNat_lt
  have hlo : c.lo.toNat ≤ 255 := Nat.le_of_lt_succ c.lo.toNat_lt
  constructor
  · apply Json.Plain.arr
    simp [Json.Plain.nat]
  · refine (ofJson?_eq_some_iff _ c).mpr ⟨c.hi.toNat, c.lo.toNat, hhi, hlo, ?_, rfl⟩
    rw [UInt8.ofNat_toNat, UInt8.ofNat_toNat]

theorem Opcode.ofRecord?_obj {members : List (String × Json)} {c : Opcode}
    (h : Json.HasMember members "raw" (Serial.toJson c)) : ofRecord? (.obj members) = some c := by
  have hf := (Json.fields?_singleton_iff "raw" (.obj members) _).mpr (.inl ⟨members, rfl, h⟩)
  rw [ofRecord?, hf]
  exact c.faithful.ofJson?_toJson

theorem Operation.faithful (op : Operation) : Faithful op :=
  ⟨.str op.tag, Json.choice?_tag (by decide) op.mem_all⟩

theorem Mnemonic.faithful (m : Mnemonic) : Faithful m := by
  cases m with
  | known op =>
      constructor
      · exact op.faithful.plain
      · change (Serial.ofJson? (Serial.toJson op)).map known = some (known op)
        rw [op.faithful.ofJson?_toJson, Option.map_some]
  | unknown c =>
      constructor
      · have hc : (Json.obj [("raw", Serial.toJson c)]).Plain :=
          .obj (by simpa using c.faithful.plain)
        exact .obj (by simpa using hc)
      · change (Opcode.ofRecord? (.obj [("raw", Serial.toJson c)])).map unknown = some (unknown c)
        have hc := Opcode.ofRecord?_obj (c := c) ⟨[], [], rfl, by simp⟩
        exact congrArg (Option.map unknown) hc

theorem Layout.faithful (l : Layout) : Faithful l := by
  constructor
  · apply Json.Plain.obj
    simp [Json.Plain.nat, Json.Plain.bool]
  · have hr : readOrigin? (.nat l.origin.toNat) = some l.origin :=
      (readOrigin?_eq_some_iff _ l.origin).mpr rfl
    change (readOrigin? (.nat l.origin.toNat) >>= fun origin =>
      some (Layout.mk origin l.showAddress l.showWord)) = some l
    rw [hr]
    rfl

namespace Instruction

theorem toJson_eq (i : Instruction) : Serial.toJson i = .obj
    [("mnemonic", Serial.toJson i.mnemonic), ("operands", Serial.toJson i.operands),
      ("raw", Serial.toJson i.raw)] := rfl

theorem plain_toJson (i : Instruction) : (Serial.toJson i).Plain := by
  have hm := i.mnemonic.faithful.plain
  have ho := (Faithful.list fun o (_ : o ∈ i.operands) => o.faithful).plain
  have hr := i.raw.faithful.plain
  rw [toJson_eq]
  exact .obj (by simp [hm, ho, hr])

theorem ofJson?_toJson (i : Instruction) :
    Serial.ofJson? (Serial.toJson i) = some i.raw.instruction := by
  have hr : Opcode.ofRecord? (Serial.toJson i) = some i.raw :=
    Opcode.ofRecord?_obj ⟨[("mnemonic", _), ("operands", _)], [], rfl, by simp⟩
  exact (ofJson?_eq_some_iff _ _).mpr ⟨i.raw, (Opcode.ofRecord?_eq_some_iff _ _).mp hr, rfl⟩

theorem decoded_iff_instruction_raw (i : Instruction) : i.Decoded ↔ i.raw.instruction = i := by
  rw [decoded_iff]
  constructor
  · rintro ⟨c, rfl⟩
    rw [Opcode.instruction_raw]
  · intro h
    exact ⟨i.raw, h.symm⟩

theorem faithful_iff (i : Instruction) : Faithful i ↔ i.Decoded := by
  rw [decoded_iff_instruction_raw]
  constructor
  · intro h
    have hi := h.ofJson?_toJson
    rw [ofJson?_toJson] at hi
    exact Option.some.inj hi
  · intro h
    exact ⟨i.plain_toJson, by rw [ofJson?_toJson, h]⟩

theorem read?_write_iff (i : Instruction) : Serial.read? (Serial.write i) = some i ↔ i.Decoded := by
  rw [← faithful_iff]
  constructor
  · intro h
    rw [Serial.read?, Serial.write, i.plain_toJson.parse?_text] at h
    exact ⟨i.plain_toJson, h⟩
  · exact Faithful.read?_write

theorem decoded_of_ofJson? {v : Json} {i : Instruction} (h : Serial.ofJson? v = some i) :
    i.Decoded := by
  obtain ⟨c, -, rfl⟩ := (ofJson?_eq_some_iff v i).mp h
  exact (decoded_iff _).mpr ⟨c, rfl⟩

theorem decoded_of_mem_ofJson? {v : Json} {is : List Instruction} (h : Serial.ofJson? v = some is) :
    ∀ i ∈ is, i.Decoded := by
  obtain ⟨elems, -, he⟩ := (Serial.ofJson?_list_eq_some_iff v is).mp h
  obtain ⟨cs, -, rfl⟩ := (forall₂_ofJson?_iff elems is).mp he
  intro i hi
  obtain ⟨c, -, rfl⟩ := List.mem_map.mp hi
  exact (decoded_iff _).mpr ⟨c, rfl⟩

end Instruction

namespace Program

theorem faithful_instructions (bytes : List UInt8) : Faithful (instructions bytes) := by
  apply Faithful.list
  intro i hi
  obtain ⟨c, -, rfl⟩ := List.mem_map.mp hi
  exact (Instruction.faithful_iff _).mpr ((Instruction.decoded_iff _).mpr ⟨c, rfl⟩)

end Program

namespace Serial

/-- A disassembled image comes back from its text, and so does every operand, mnemonic and layout
and every instruction that some bytes decode to. Whatever text a value is read from, the text that
is written for it reads back as the value and is written again as it is. -/
theorem read?_write_roundtrip :
    (∀ bytes : List UInt8, ∃ is, (Program.disassemble bytes).run.value = .ok is ∧
      read? (write is) = some is) ∧
    ((∀ k, RoundTrips (Scalar k)) ∧ RoundTrips Label ∧ RoundTrips Operand ∧ RoundTrips Mnemonic ∧
      RoundTrips Layout ∧ ∀ i : Instruction, read? (write i) = some i ↔ i.Decoded) ∧
    ((∀ k, Settles (Scalar k)) ∧ Settles Label ∧ Settles Operand ∧ Settles Mnemonic ∧
      Settles Layout ∧ Settles Instruction ∧ Settles (List Instruction)) := by
  refine ⟨?_, ⟨?_, ?_, ?_, ?_, ?_, Instruction.read?_write_iff⟩, ?_, ?_, ?_, ?_, ?_, ?_, ?_⟩
  · intro bytes
    refine ⟨Program.instructions bytes, ?_, (Program.faithful_instructions bytes).read?_write⟩
    rw [Program.disassemble_run]
  · exact fun k => .of_faithful Scalar.faithful
  · exact .of_faithful Label.faithful
  · exact .of_faithful Operand.faithful
  · exact .of_faithful Mnemonic.faithful
  · exact .of_faithful Layout.faithful
  · exact fun k => .of_faithful fun _ s _ => s.faithful
  · exact .of_faithful fun _ l _ => l.faithful
  · exact .of_faithful fun _ o _ => o.faithful
  · exact .of_faithful fun _ m _ => m.faithful
  · exact .of_faithful fun _ l _ => l.faithful
  · exact .of_faithful fun _ i h =>
      (Instruction.faithful_iff i).mpr (Instruction.decoded_of_ofJson? h)
  · exact .of_faithful fun _ is h => Faithful.list fun i hi =>
      (Instruction.faithful_iff i).mpr (Instruction.decoded_of_mem_ofJson? h i hi)

end Serial

namespace Instruction

/-- Reads the mnemonic and the operands as they stand and leaves the bytes alone. -/
def ofMembers? (v : Json) : Option (Mnemonic × List Operand) :=
  match v.fields? ["mnemonic", "operands"] with
  | some [some mnemonic, some operands] => do
    let mnemonic ← Serial.ofJson? mnemonic
    let operands ← Serial.ofJson? operands
    return (mnemonic, operands)
  | _ => none

theorem faithful_operands (i : Instruction) : Serial.Faithful i.operands :=
  .list fun o _ => o.faithful

theorem ofMembers?_toJson (i : Instruction) :
    ofMembers? (Serial.toJson i) = some (i.mnemonic, i.operands) := by
  change (Serial.ofJson? (Serial.toJson i.mnemonic) >>= fun mnemonic =>
    Serial.ofJson? (Serial.toJson i.operands) >>= fun operands => some (mnemonic, operands)) =
      some (i.mnemonic, i.operands)
  rw [i.mnemonic.faithful.ofJson?_toJson, Option.bind_eq_bind, Option.bind_some,
    i.faithful_operands.ofJson?_toJson]
  rfl

end Instruction

namespace Program

/-- The text of a disassembled image is an array with an object for each two bytes. Its members are
the mnemonic, the operands and the bytes in this order; the first two read as the mnemonic and the
operands of the instruction at that position, and a reader that decodes the bytes gets the same. -/
theorem written_members (bytes : List UInt8) : ∃ is elems,
    (disassemble bytes).run.value = .ok is ∧ is.length = bytes.length / 2 ∧
      Json.parse? (Serial.write is) = some (.arr elems) ∧ elems.length = bytes.length / 2 ∧
      ∀ k (h : 2 * k + 1 < bytes.length), ∃ i v mnemonic operands,
        is[k]? = some i ∧ elems[k]? = some v ∧
        v = .obj [("mnemonic", mnemonic), ("operands", .arr operands),
          ("raw", .arr [.nat (codeAt bytes k h).hi.toNat, .nat (codeAt bytes k h).lo.toNat])] ∧
        Serial.ofJson? mnemonic = some i.mnemonic ∧
        List.Forall₂ (fun v o => Serial.ofJson? v = some o) operands i.operands ∧
        i.raw = codeAt bytes k h ∧
        Instruction.ofMembers? v = some (i.mnemonic, i.operands) ∧
        Serial.ofJson? v = some i := by
  refine ⟨instructions bytes, (instructions bytes).map Serial.toJson, ?_,
    length_instructions bytes, (faithful_instructions bytes).plain.parse?_text, ?_, ?_⟩
  · rw [disassemble_run]
  · rw [List.length_map, length_instructions]
  · intro k h
    have hk : (instructions bytes)[k]? = some (codeAt bytes k h).instruction := by
      rw [instructions, List.getElem?_map, getElem?_codes bytes k h, Option.map_some]
    have hd : (codeAt bytes k h).instruction.Decoded :=
      (Instruction.decoded_iff _).mpr ⟨_, rfl⟩
    have hf := (Instruction.faithful_iff _).mpr hd
    have hr := Opcode.instruction_raw (codeAt bytes k h)
    generalize (codeAt bytes k h).instruction = i at hk hf hr
    refine ⟨i, Serial.toJson i, Serial.toJson i.mnemonic, i.operands.map Serial.toJson, hk, ?_, ?_,
      i.mnemonic.faithful.ofJson?_toJson, ?_, hr, i.ofMembers?_toJson, hf.ofJson?_toJson⟩
    · rw [List.getElem?_map, hk, Option.map_some]
    · rw [Instruction.toJson_eq, hr]
      rfl
    · rw [List.forall₂_map_left_iff]
      exact List.forall₂_same.mpr fun o _ => o.faithful.ofJson?_toJson

end Program

end Chip8
