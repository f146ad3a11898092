import Chip8.Proofs.History
import Chip8.Proofs.Record
import Chip8.Proofs.Schedule
import Chip8.Proofs.Tokens

namespace Chip8

namespace DecodeError

/-- The text names a number in decimal, with no zero in front of another digit. -/
def Names (n : Nat) (text : String) : Prop :=
  ∃ ds : String, Json.Numeral.isPlain ds.toList = true ∧ Nat.ofDigitChars 10 ds.toList 0 = n ∧
    text = "invalid instruction length " ++ ds ++ ": all CHIP-8 instructions are 2 bytes"

theorem names_message (n : Nat) : Names n (invalidLength n).message := by
  have hd : (toString n).toList = Nat.toDigits 10 n := Nat.toList_repr
  refine ⟨toString n, ?_, ?_, rfl⟩
  · rw [hd, Json.Numeral.isPlain_toDigits]
  · rw [hd, Nat.ofDigitChars_toDigits (by decide) (by decide)]

theorem Names.unique {m n : Nat} {text : String} (hm : Names m text) (hn : Names n text) :
    m = n := by
  obtain ⟨ds, -, rfl, rfl⟩ := hm
  obtain ⟨es, -, rfl, he⟩ := hn
  rw [String.append_left_inj, String.append_right_inj] at he
  rw [he]

end DecodeError

theorem decode_eq_error_iff (bytes : List UInt8) (e : DecodeError) :
    (decode bytes).run.value = .error e ↔
      bytes.length ≠ 2 ∧ e = .invalidLength bytes.length := by
  constructor
  · intro h
    constructor
    · intro hl
      obtain ⟨hi, lo, rfl⟩ := List.length_eq_two.mp hl
      rw [decode_pair] at h
      cases h
    · obtain ⟨c, -, hc⟩ | hc := decode_cases bytes
      · rw [hc] at h
        cases h
      · rw [hc] at h
        exact (Except.error.inj h).symm
  · rintro ⟨hl, rfl⟩
    obtain ⟨c, rfl, -⟩ | hc := decode_cases bytes
    · exact absurd rfl hl
    · rw [hc]

namespace Cursor

def Reply.held : Reply → List Item
  | item i => i.toList
  | items is => is
  | number _ | bounds _ _ => []

theorem exists_ok_of_mem_toList {o : Option Located} {item : Item}
    (h : item ∈ (o.map (.ok : Located → Item)).toList) : ∃ l, item = .ok l := by
  obtain ⟨l, -, hl⟩ := Option.map_eq_some_iff.mp (Option.mem_toList.mp h)
  exact ⟨l, hl.symm⟩

theorem exists_ok_of_mem_map {ls : List Located} {item : Item}
    (h : item ∈ ls.map (.ok : Located → Item)) : ∃ l, item = .ok l := by
  obtain ⟨l, -, hl⟩ := List.mem_map.mp h
  exact ⟨l, hl.symm⟩

theorem exists_ok_of_mem_held (c : Cursor) (q : Query) {item : Item}
    (h : item ∈ ((ask q).run c).value.1.held) : ∃ l, item = .ok l := by
  have hq := ask_skip c (Nat.zero_le c.left.length) q
  rw [skip_zero] at hq
  rw [hq] at h
  cases q with
  | next | nth n | findUnknown | last => exact exists_ok_of_mem_toList h
  | take n | rest => exact exists_ok_of_mem_map h
  | length | sizeHint | count => exact absurd h List.not_mem_nil

end Cursor

namespace Session

def Outcome.held : Outcome → List Item
  | reply r => r.held
  | index _ => []

theorem exists_ok_of_perform {s : Session} {step : Step} {done : Logged (Outcome × Session)}
    (h : s.perform step = some done) : ∀ item ∈ done.value.1.held, ∃ l, item = .ok l := by
  cases step with
  | query q =>
      cases h
      exact fun item hi => s.cursor.exists_ok_of_mem_held q hi
  | fork =>
      cases h
      exact fun item hi => absurd hi List.not_mem_nil
  | use i =>
      obtain ⟨-, rfl⟩ := perform_use h
      exact fun item hi => absurd hi List.not_mem_nil

theorem exists_ok_of_run {s : Session} {script : List Step} {outcomes : List (Logged Outcome)}
    (h : s.run script = some outcomes) :
    ∀ o ∈ outcomes, ∀ item ∈ o.value.held, ∃ l, item = .ok l := by
  induction script generalizing s outcomes with
  | nil =>
      cases h
      exact fun o ho => absurd ho List.not_mem_nil
  | cons step script ih =>
      rw [run] at h
      obtain ⟨done, hd, h⟩ := Option.bind_eq_some_iff.mp h
      obtain ⟨later, hl, h⟩ := Option.bind_eq_some_iff.mp h
      cases h
      exact List.forall_mem_cons.mpr ⟨exists_ok_of_perform hd, ih hl⟩

end Session

namespace Instruction

theorem isSome_read?_iff (text : String) :
    (Serial.read? text : Option Instruction).isSome ↔
      ((Json.parse? text).bind Opcode.ofRecord?).isSome := by
  rw [Serial.read?]
  cases Json.parse? text with
  | none => rfl
  | some v =>
      rw [Option.bind_eq_bind, Option.bind_some, ofJson?_eq_map, Option.isSome_map,
        Option.bind_some]

theorem isSome_read?_list_iff (text : String) :
    (Serial.read? text : Option (List Instruction)).isSome ↔
      ∃ elems, Json.parse? text = some (.arr elems) ∧
        ∀ e ∈ elems, (Opcode.ofRecord? e).isSome := by
  rw [Serial.read?]
  cases Json.parse? text with
  | none => simp
  | some v =>
      rw [Option.bind_eq_bind, Option.bind_some, Serial.isSome_ofJson?_list_iff]
      simp only [ofJson?_eq_map, Option.isSome_map, Option.some.injEq]

end Instruction

namespace DecodeError

open Program (disassemble disassembleOn listing items)

/-- Decoding fails exactly on inputs of another length than two, and then its message names the
length and tells lengths apart. No leading byte is refused. Words, images, in whatever order they
are decoded, and listings never fail, no item of a cursor is an error, whatever is asked and forked
before, and the bytes that a JSON text gives are never refused once they are read. -/
theorem arises_only_from_length :
    (∀ (bytes : List UInt8) (e : DecodeError), (decode bytes).run.value = .error e ↔
      bytes.length ≠ 2 ∧ e = .invalidLength bytes.length) ∧
    (∀ (bytes : List UInt8) (e : DecodeError), (decode bytes).run.value = .error e →
      Names bytes.length e.message) ∧
    (∀ (a b : List UInt8) (d e : DecodeError), (decode a).run.value = .error d →
      (decode b).run.value = .error e → (d.message = e.message ↔ a.length = b.length)) ∧
    (∀ (bytes : List UInt8) (byte : UInt8),
      (decode bytes).run.value ≠ .error (.invalidOpcode byte)) ∧
    (∀ w : UInt16, ∃ i, (decodeWord w).run.value = .ok i) ∧
    (∀ bytes : List UInt8, (∃ is, (disassemble bytes).run.value = .ok is) ∧
      (∀ s, ∃ is, (disassembleOn s bytes).run.value = .ok is) ∧
      (∀ l, ∃ text, (listing l bytes).run.value = .ok text) ∧
      (∃ ls : List Located, (items bytes).value = ls.map .ok) ∧
      ∀ (script : List Session.Step) (outcomes : List (Logged Session.Outcome)),
        (Session.start bytes).value.run script = some outcomes →
          ∀ o ∈ outcomes, ∀ item ∈ o.value.held, ∃ l, item = .ok l) ∧
    (∀ raw : Opcode, ∃ i, (decode raw.bytes).run.value = .ok i) ∧
    ∀ text : String,
      ((Serial.read? text : Option Instruction).isSome ↔
        ((Json.parse? text).bind Opcode.ofRecord?).isSome) ∧
      ((Serial.read? text : Option (List Instruction)).isSome ↔
        ∃ elems, Json.parse? text = some (.arr elems) ∧
          ∀ e ∈ elems, (Opcode.ofRecord? e).isSome) := by
  refine ⟨decode_eq_error_iff, ?_, ?_, ?_, ?_, ?_, ?_, ?_⟩
  · intro bytes e h
    obtain ⟨-, rfl⟩ := (decode_eq_error_iff bytes e).mp h
    exact names_message bytes.length
  · intro a b d e ha hb
    obtain ⟨-, rfl⟩ := (decode_eq_error_iff a d).mp ha
    obtain ⟨-, rfl⟩ := (decode_eq_error_iff b e).mp hb
    constructor
    · intro h
      exact (names_message a.length).unique (h ▸ names_message b.length)
    · intro h
      rw [h]
  · intro bytes byte h
    obtain ⟨-, he⟩ := (decode_eq_error_iff bytes _).mp h
    cases he
  · intro w
    exact ⟨_, congrArg Logged.value (Opcode.ofWord w).decode_run⟩
  · intro bytes
    refine ⟨⟨_, by rw [Program.disassemble_run]⟩, ?_, ?_, ⟨_, by rw [Program.items_eq]⟩, ?_⟩
    · exact fun s => ⟨_, by rw [Program.disassembleOn_run]⟩
    · exact fun l => ⟨_, by rw [Program.listing_run]⟩
    · exact fun script outcomes h => Session.exists_ok_of_run h
  · exact fun raw => ⟨_, (decode_eq_ok_iff _ _).mpr ⟨raw, rfl, rfl⟩⟩
  · exact fun text => ⟨Instruction.isSome_read?_iff text, Instruction.isSome_read?_list_iff text⟩

end DecodeError

end Chip8
