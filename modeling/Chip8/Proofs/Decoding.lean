import Chip8.Decode
import Chip8.Program.Cursor

namespace Chip8

theorem Logged.bind_mk {α β : Type} (a : α) (log : Log) (f : α → Logged β) :
    (⟨a, log⟩ : Logged α) >>= f = ⟨(f a).value, log ++ (f a).log⟩ := rfl

namespace Opcode

def instruction (c : Opcode) : Instruction :=
  match c.meaning with
  | .ok (some (op, operands)) => ⟨.known op, operands, c⟩
  | _ => ⟨.unknown c, [], c⟩

def remarks (c : Opcode) : Log := if c.instruction.isUnknown then [.unknownOpcode c] else []

theorem group_lt (c : Opcode) : c.group < 16 := by
  have h := c.hi.toNat_lt
  rw [group]
  omega

theorem meaning_ok (c : Opcode) : ∃ m, c.meaning = .ok m := by
  have h := c.group_lt
  unfold meaning
  split
  -- four bits have no other value than those of the groups
  case h_17 => grind
  all_goals exact ⟨_, rfl⟩

@[simp] theorem instruction_raw (c : Opcode) : c.instruction.raw = c := by
  unfold instruction
  split <;> rfl

@[simp] theorem instruction_word (c : Opcode) : c.instruction.word = c.word := by
  rw [Instruction.word, instruction_raw]

theorem word_injective : Function.Injective word := by
  intro c d h
  rw [← ofWord_word c, h, ofWord_word]

theorem decode_run (c : Opcode) : c.decode.run = ⟨.ok c.instruction, c.remarks⟩ := by
  obtain ⟨m, hm⟩ := c.meaning_ok
  cases m with
  | none => simp [decode, remarks, instruction, hm]; rfl
  | some m => simp [decode, remarks, instruction, hm]; rfl

end Opcode

def Instruction.remarks (is : List Instruction) : Log :=
  (is.filter Instruction.isUnknown).map (fun i => .unknownOpcode i.raw)

theorem Instruction.remarks_append (is js : List Instruction) :
    remarks (is ++ js) = remarks is ++ remarks js := by
  rw [remarks, List.filter_append, List.map_append]
  rfl

theorem Opcode.remarks_instruction (c : Opcode) :
    Instruction.remarks [c.instruction] = c.remarks := by
  cases h : c.instruction.isUnknown <;> simp [Instruction.remarks, remarks, h]

theorem decode_pair (hi lo : UInt8) :
    (decode [hi, lo]).run = ⟨.ok (Opcode.mk hi lo).instruction, (Opcode.mk hi lo).remarks⟩ :=
  Opcode.decode_run ⟨hi, lo⟩

theorem decode_cases (bytes : List UInt8) :
    (∃ c : Opcode, bytes = c.bytes ∧ (decode bytes).run = ⟨.ok c.instruction, c.remarks⟩) ∨
      (decode bytes).run = ⟨.error (.invalidLength bytes.length), []⟩ := by
  unfold decode
  split
  next hi lo => exact .inl ⟨⟨hi, lo⟩, rfl, decode_pair hi lo⟩
  next => exact .inr rfl

theorem decode_eq_ok_iff (bytes : List UInt8) (i : Instruction) :
    (decode bytes).run.value = .ok i ↔ ∃ c : Opcode, bytes = c.bytes ∧ i = c.instruction := by
  constructor
  · intro h
    obtain ⟨c, hc, hr⟩ | hr := decode_cases bytes
    · rw [hr] at h
      exact ⟨c, hc, (Except.ok.inj h).symm⟩
    · rw [hr] at h
      cases h
  · rintro ⟨c, rfl, rfl⟩
    rw [Opcode.bytes, decode_pair]

namespace Instruction

def Decoded (i : Instruction) : Prop := ∃ bytes, (Chip8.decode bytes).run.value = .ok i

theorem decoded_iff (i : Instruction) : i.Decoded ↔ ∃ c : Opcode, i = c.instruction := by
  constructor
  · rintro ⟨bytes, h⟩
    obtain ⟨c, -, hc⟩ := (decode_eq_ok_iff bytes i).mp h
    exact ⟨c, hc⟩
  · rintro ⟨c, rfl⟩
    exact ⟨c.bytes, (decode_eq_ok_iff _ _).mpr ⟨c, rfl, rfl⟩⟩

theorem Decoded.eq_of_word_eq {i j : Instruction} (hi : i.Decoded) (hj : j.Decoded)
    (h : i.word = j.word) : i = j := by
  obtain ⟨c, rfl⟩ := (decoded_iff i).mp hi
  obtain ⟨d, rfl⟩ := (decoded_iff j).mp hj
  rw [Opcode.instruction_word, Opcode.instruction_word] at h
  rw [Opcode.word_injective h]

end Instruction

namespace Program

def codes : List UInt8 → List Opcode
  | hi :: lo :: bytes => ⟨hi, lo⟩ :: codes bytes
  | _ => []

def codeAt (bytes : List UInt8) (k : Nat) (h : 2 * k + 1 < bytes.length) : Opcode :=
  ⟨bytes[2 * k], bytes[2 * k + 1]⟩

theorem chunks_eq_map (bytes : List UInt8) : chunks bytes = (codes bytes).map Opcode.bytes := by
  fun_induction codes bytes with
  | case1 hi lo bytes ih => rw [chunks, ih]; rfl
  | case2 bytes h => rw [chunks.eq_2 bytes h]; rfl

theorem length_codes (bytes : List UInt8) : (codes bytes).length = bytes.length / 2 := by
  rw [← length_chunks, chunks_eq_map, List.length_map]

theorem codes_drop (bytes : List UInt8) (k : Nat) :
    codes (bytes.drop (2 * k)) = (codes bytes).drop k := by
  induction k generalizing bytes with
  | zero => rfl
  | succ k ih =>
      match bytes with
      | [] | [_] => simp [codes, Nat.mul_succ]
      | hi :: lo :: bytes => exact ih bytes

theorem getElem?_codes (bytes : List UInt8) (k : Nat) (h : 2 * k + 1 < bytes.length) :
    (codes bytes)[k]? = some (codeAt bytes k h) := by
  have hd : bytes.drop (2 * k) = bytes[2 * k] :: bytes[2 * k + 1] :: bytes.drop (2 * k + 2) := by
    rw [List.drop_eq_getElem_cons (by omega), List.drop_eq_getElem_cons (by omega)]
  have hc := codes_drop bytes k
  rw [hd, codes] at hc
  rw [← List.head?_drop, ← hc, List.head?_cons, codeAt]

theorem getElem?_codes_eq_some_iff (bytes : List UInt8) (k : Nat) (c : Opcode) :
    (codes bytes)[k]? = some c ↔ bytes[2 * k]? = some c.hi ∧ bytes[2 * k + 1]? = some c.lo := by
  constructor
  · intro hc
    have hk := (List.getElem?_eq_some_iff.mp hc).1
    have h : 2 * k + 1 < bytes.length := by
      rw [length_codes] at hk
      omega
    rw [getElem?_codes bytes k h, Option.some.injEq] at hc
    subst hc
    exact ⟨List.getElem?_eq_getElem _, List.getElem?_eq_getElem h⟩
  · rintro ⟨hhi, hlo⟩
    obtain ⟨h, hlo⟩ := List.getElem?_eq_some_iff.mp hlo
    obtain ⟨h', hhi⟩ := List.getElem?_eq_some_iff.mp hhi
    rw [getElem?_codes bytes k h, codeAt, hhi, hlo]

theorem codes_bytes (cs : List Opcode) : codes (cs.flatMap Opcode.bytes) = cs := by
  induction cs with
  | nil => rfl
  | cons c cs ih => exact congrArg (c :: ·) ih

end Program

end Chip8
