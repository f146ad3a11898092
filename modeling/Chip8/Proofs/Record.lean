import Chip8.Json.Text
import Chip8.Proofs.Disassembly
import Chip8.Serial.Instruction
import Mathlib.Data.List.Forall2

namespace Chip8

namespace Json

/-- Just one member has the name, and it holds `v`. The others may be anything. -/
def HasMember (members : List (String × Json)) (name : String) (v : Json) : Prop :=
  ∃ before after, members = before ++ (name, v) :: after ∧ ∀ m ∈ before ++ after, m.1 ≠ name

theorem member?_eq_some_iff_filter (members : List (String × Json)) (name : String)
    (found : Option Json) : member? members name = some found ↔
      members.filter (fun m => m.1 = name) = (found.map (name, ·)).toList := by
  unfold member?
  split
  next h => cases found <;> simp [h]
  next m h =>
    have hm : m ∈ members.filter (fun m => m.1 = name) := h ▸ List.mem_singleton_self m
    have hn : m.1 = name := by simpa using (List.mem_filter.mp hm).2
    cases found <;> simp [h, Prod.ext_iff, hn]
  next h h' =>
    cases found with
    | none => simpa using h
    | some v => simpa using h' (name, v)

theorem member?_eq_some_some_iff (members : List (String × Json)) (name : String) (v : Json) :
    member? members name = some (some v) ↔ HasMember members name v := by
  rw [member?_eq_some_iff_filter, Option.map_some, Option.toList_some, List.filter_eq_cons_iff]
  constructor
  · rintro ⟨before, after, rfl, hb, -, ha⟩
    refine ⟨before, after, rfl, ?_⟩
    intro m hm
    rcases List.mem_append.mp hm with hm | hm
    · simpa using hb m hm
    · simpa using List.filter_eq_nil_iff.mp ha m hm
  · rintro ⟨before, after, rfl, h⟩
    refine ⟨before, after, rfl, ?_, decide_eq_true rfl, ?_⟩
    · intro m hm
      simpa using h m (List.mem_append_left after hm)
    · apply List.filter_eq_nil_iff.mpr
      intro m hm
      simpa using h m (List.mem_append_right before hm)

theorem fields?_singleton_iff (name : String) (v held : Json) :
    v.fields? [name] = some [some held] ↔
      (∃ members, v = .obj members ∧ HasMember members name held) ∨ v = .arr [held] := by
  cases v with
  | obj members =>
      have h : fields? [name] (.obj members) = some [some held] ↔
          member? members name = some (some held) := by
        cases hm : member? members name <;> simp [fields?, hm]
      simp [h, member?_eq_some_some_iff]
  | arr elems =>
      match elems with
      | [] => simp [fields?]
      | [e] => simp [fields?]
      | _ :: _ :: _ => simp [fields?]
  | null | bool b | nat n | decimal s | str s | unpaired => simp [fields?]

theorem natUpTo?_eq_some_iff (max n : Nat) (v : Json) :
    v.natUpTo? max = some n ↔ v = .nat n ∧ n ≤ max := by
  cases v with
  | nat m =>
      by_cases h : m ≤ max
      · simp only [natUpTo?, if_pos h, Option.some.injEq, nat.injEq]
        constructor
        · rintro rfl
          exact ⟨rfl, h⟩
        · exact And.left
      · simp only [natUpTo?, if_neg h, nat.injEq]
        constructor
        · intro hn
          cases hn
        · rintro ⟨rfl, hn⟩
          exact absurd hn h
  | null | bool b | decimal s | str s | arr elems | obj members | unpaired => simp [natUpTo?]

end Json

theorem ReadM.value_mapM {α β : Type} (f : α → ReadM β) (as : List α) :
    (as.mapM f).run.value = as.mapM fun a => (f a).run.value := by
  induction as with
  | nil => rfl
  | cons a as ih =>
      rw [List.mapM_cons, List.mapM_cons, value_bind, ← ih]
      simp only [value_bind]
      rfl

namespace Serial

variable {α : Type} [Serial α]

theorem ofJson?_arr (elems : List Json) :
    (ofJson? (.arr elems) : Option (List α)) = elems.mapM ofJson? :=
  ReadM.value_mapM reading elems

theorem ofJson?_list_eq_some_iff (v : Json) (as : List α) :
    ofJson? v = some as ↔
      ∃ elems, v = .arr elems ∧ List.Forall₂ (fun e a => ofJson? e = some a) elems as := by
  cases v with
  | arr elems => simp [ofJson?_arr, mapM_eq_some_iff]
  | null | bool b | nat n | decimal s | str s | obj members | unpaired => simp [ofJson?, reading]

theorem isSome_ofJson?_list_iff (v : Json) :
    (ofJson? v : Option (List α)).isSome ↔
      ∃ elems, v = .arr elems ∧ ∀ e ∈ elems, (ofJson? e : Option α).isSome := by
  cases v with
  | arr elems => simp [ofJson?_arr, isSome_mapM_iff]
  | null | bool b | nat n | decimal s | str s | obj members | unpaired => simp [ofJson?, reading]

end Serial

/-- A value gives the bytes of an opcode, as two numbers, in its member named raw or as its only
element. -/
def Json.HasRaw (v : Json) (c : Opcode) : Prop :=
  ∃ m n, m ≤ 255 ∧ n ≤ 255 ∧ c = ⟨UInt8.ofNat m, UInt8.ofNat n⟩ ∧
    ((∃ members, v = .obj members ∧ HasMember members "raw" (.arr [.nat m, .nat n])) ∨
      v = .arr [.arr [.nat m, .nat n]])

theorem Opcode.ofJson?_eq_some_iff (v : Json) (c : Opcode) :
    Serial.ofJson? v = some c ↔ ∃ m n, m ≤ 255 ∧ n ≤ 255 ∧
      c = ⟨UInt8.ofNat m, UInt8.ofNat n⟩ ∧ v = .arr [.nat m, .nat n] := by
  constructor
  · intro h
    simp only [Serial.ofJson?, Serial.reading, ReadM.run_ofOption, Logged.value_pure] at h
    split at h
    next hi lo =>
      obtain ⟨m, hhi, h⟩ := Option.bind_eq_some_iff.mp h
      obtain ⟨n, hlo, hc⟩ := Option.bind_eq_some_iff.mp h
      obtain ⟨rfl, hm⟩ := (Json.natUpTo?_eq_some_iff 255 m hi).mp hhi
      obtain ⟨rfl, hn⟩ := (Json.natUpTo?_eq_some_iff 255 n lo).mp hlo
      exact ⟨m, n, hm, hn, (Option.some.inj hc).symm, rfl⟩
    next => cases h
  · rintro ⟨m, n, hm, hn, rfl, rfl⟩
    simp [Serial.ofJson?, Serial.reading, Json.natUpTo?, hm, hn]

theorem Opcode.ofRecord?_eq_some_iff (v : Json) (c : Opcode) :
    ofRecord? v = some c ↔ v.HasRaw c := by
  have h : ofRecord? v = some c ↔
      ∃ raw, v.fields? ["raw"] = some [some raw] ∧ Serial.ofJson? raw = some c := by
    unfold ofRecord?
    split
    next raw hr => simp [hr]
    next hr => simpa using fun raw hraw => (hr raw hraw).elim
  rw [h]
  constructor
  · rintro ⟨raw, hf, hr⟩
    obtain ⟨m, n, hm, hn, hc, rfl⟩ := (ofJson?_eq_some_iff raw c).mp hr
    exact ⟨m, n, hm, hn, hc, (Json.fields?_singleton_iff _ _ _).mp hf⟩
  · rintro ⟨m, n, hm, hn, hc, hf⟩
    exact ⟨_, (Json.fields?_singleton_iff _ _ _).mpr hf,
      (ofJson?_eq_some_iff _ c).mpr ⟨m, n, hm, hn, hc, rfl⟩⟩

namespace Instruction

/-- Decoding the bytes of a record never fails, so a value is refused for its record alone. -/
theorem reading_run (v : Json) : (Serial.reading v : ReadM Instruction).run =
    ⟨(Opcode.ofRecord? v).map Opcode.instruction, (Opcode.ofRecord? v).elim [] Opcode.remarks⟩ := by
  have h : (Serial.reading v : ReadM Instruction) = (do
      let c ← ReadM.ofOption (Opcode.ofRecord? v)
      OptionT.mk (Except.toOption <$> (decode c.bytes).run)) := rfl
  rw [h, OptionT.run_bind]
  cases Opcode.ofRecord? v with
  | none => rfl
  | some c => exact congrArg (Except.toOption <$> ·) (decode_pair c.hi c.lo)

theorem ofJson?_eq_map (v : Json) :
    Serial.ofJson? v = (Opcode.ofRecord? v).map Opcode.instruction :=
  congrArg Logged.value (reading_run v)

theorem ofJson?_eq_some_iff (v : Json) (i : Instruction) :
    Serial.ofJson? v = some i ↔ ∃ c, v.HasRaw c ∧ i = c.instruction := by
  rw [ofJson?_eq_map, Option.map_eq_some_iff]
  apply exists_congr
  intro c
  rw [Opcode.ofRecord?_eq_some_iff, eq_comm (a := c.instruction)]

theorem log_reading (v : Json) : (Serial.reading v : ReadM Instruction).run.log =
    remarks (Serial.ofJson? v : Option Instruction).toList := by
  rw [ofJson?_eq_map, reading_run]
  cases Opcode.ofRecord? v with
  | none => rfl
  | some c => exact c.remarks_instruction.symm

/-- A program tells of its instructions in their order, up to the first value that is refused. -/
theorem log_reading_arr (vs : List Json) :
    (Serial.reading (.arr vs) : ReadM (List Instruction)).run.log =
      remarks ((vs.takeWhile fun v => (Serial.ofJson? v : Option Instruction).isSome).filterMap
        Serial.ofJson?) := by
  change (vs.mapM (Serial.reading : Json → ReadM Instruction)).run.log = _
  induction vs with
  | nil => rfl
  | cons v vs ih =>
      have hv : (Serial.reading v : ReadM Instruction).run.value = Serial.ofJson? v := rfl
      simp only [List.mapM_cons, bind_pure_comp, ReadM.log_bind, log_reading, hv, OptionT.run_map,
        Logged.log_map, ih]
      cases h : (Serial.ofJson? v : Option Instruction) with
      | none => simp [h, remarks]
      | some i =>
          rw [Option.elim_some, ← remarks_append, List.takeWhile_cons, h, Option.isSome_some,
            if_pos rfl, List.filterMap_cons_some h]
          rfl

theorem log_reading_of_eq_some {v : Json} {is : List Instruction} (h : Serial.ofJson? v = some is) :
    (Serial.reading v : ReadM (List Instruction)).run.log = remarks is := by
  obtain ⟨vs, rfl, hf⟩ := (Serial.ofJson?_list_eq_some_iff v is).mp h
  rw [log_reading_arr]
  clear h
  congr 1
  -- no value is refused, so all of them are told of
  induction hf with
  | nil => rfl
  | cons hv _ ih =>
      rw [List.takeWhile_cons, hv, Option.isSome_some, if_pos rfl, List.filterMap_cons_some hv, ih]

theorem forall₂_ofJson?_iff (vs : List Json) (is : List Instruction) :
    List.Forall₂ (fun v i => Serial.ofJson? v = some i) vs is ↔
      ∃ cs, List.Forall₂ Json.HasRaw vs cs ∧ is = cs.map Opcode.instruction := by
  induction vs generalizing is with
  | nil => cases is <;> simp
  | cons v vs ih =>
      constructor
      · intro h
        cases h with
        | cons hv hvs =>
            obtain ⟨c, hc, rfl⟩ := (ofJson?_eq_some_iff v _).mp hv
            obtain ⟨cs, hcs, rfl⟩ := (ih _).mp hvs
            exact ⟨c :: cs, .cons hc hcs, rfl⟩
      · rintro ⟨cs, h, rfl⟩
        cases h with
        | cons hc hcs =>
            exact .cons ((ofJson?_eq_some_iff v _).mpr ⟨_, hc, rfl⟩) ((ih _).mpr ⟨_, hcs, rfl⟩)

/-- The reader of an instruction accepts a value exactly if it gives two bytes, and then what it
reads is their decoding. A program is an array of such values, and what is read is the disassembly
of all their bytes. -/
theorem read_iff_hasRaw (v : Json) :
    (∀ i : Instruction, Serial.ofJson? v = some i ↔
      ∃ c, v.HasRaw c ∧ (decode c.bytes).run.value = .ok i) ∧
    ((Serial.ofJson? v : Option Instruction).isSome ↔ ∃ c, v.HasRaw c) ∧
    (∀ i : Instruction, Serial.ofJson? v = some i → (decode i.raw.bytes).run.value = .ok i) ∧
    (∀ is : List Instruction, Serial.ofJson? v = some is ↔
      ∃ elems cs, v = .arr elems ∧ List.Forall₂ Json.HasRaw elems cs ∧
        (Program.disassemble (cs.flatMap Opcode.bytes)).run.value = .ok is) ∧
    ((Serial.ofJson? v : Option (List Instruction)).isSome ↔
      ∃ elems, v = .arr elems ∧ ∀ e ∈ elems, (Serial.ofJson? e : Option Instruction).isSome) := by
  have hdec (c : Opcode) : (decode c.bytes).run.value = .ok c.instruction := by
    rw [Opcode.bytes, decode_pair]
  have hdis (cs : List Opcode) : (Program.disassemble (cs.flatMap Opcode.bytes)).run.value =
      .ok (cs.map Opcode.instruction) := by
    rw [Program.disassemble_run, Program.instructions, Program.codes_bytes]
  refine ⟨?_, ?_, ?_, ?_, Serial.isSome_ofJson?_list_iff v⟩
  · intro i
    rw [ofJson?_eq_some_iff]
    simp only [hdec, Except.ok.injEq, eq_comm]
  · simp only [Option.isSome_iff_exists, ofJson?_eq_some_iff]
    constructor
    · rintro ⟨i, c, hc, -⟩
      exact ⟨c, hc⟩
    · rintro ⟨c, hc⟩
      exact ⟨_, c, hc, rfl⟩
  · intro i hi
    obtain ⟨c, -, rfl⟩ := (ofJson?_eq_some_iff v i).mp hi
    rw [Opcode.instruction_raw, hdec]
  · intro is
    simp only [Serial.ofJson?_list_eq_some_iff, forall₂_ofJson?_iff, hdis, Except.ok.injEq]
    constructor
    · rintro ⟨elems, hv, cs, hcs, rfl⟩
      exact ⟨elems, cs, hv, hcs, rfl⟩
    · rintro ⟨elems, cs, hv, hcs, rfl⟩
      exact ⟨elems, hv, cs, hcs, rfl⟩

end Instruction

end Chip8
