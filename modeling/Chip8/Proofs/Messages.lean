import Chip8.Proofs.Decoding
import Chip8.Proofs.Digits
import Chip8.Proofs.Disassembly
import Mathlib.Data.List.Forall2

namespace Chip8

theorem Message.level_eq (m : Message) : m.level = .debug ∨ m.level = .trace := by
  cases m with
  | unknownOpcode code | trailingByte byte offset => exact .inl rfl
  | summary bytes instructions unknown => exact .inr rfl

namespace Log

theorem upTo_append (max : Level) (a b : Log) : (a ++ b).upTo max = a.upTo max ++ b.upTo max :=
  List.filter_append _ _

theorem lines_append (a b : Log) : (a ++ b).lines = a.lines ++ b.lines := List.map_append

theorem upTo_trace (log : Log) : log.upTo .trace = log := by
  apply List.filter_eq_self.mpr
  intro m _
  rcases m.level_eq with h | h <;> rw [h] <;> rfl

theorem lines_upTo_debug (log : Log) :
    (log.upTo .debug).lines = log.lines.filter (fun line => line.1 = .debug) := by
  rw [lines, lines, List.filter_map]
  congr 1
  apply List.filter_congr
  intro m _
  rw [Function.comp_apply, LogLine.ofMessage]
  rcases m.level_eq with h | h <;> rw [h] <;> rfl

theorem upTo_eq_nil (log : Log) {max : Level} (h : max ∈ [.off, .error, .warn, .info]) :
    log.upTo max = [] := by
  apply List.filter_eq_nil_iff.mpr
  intro m _
  have none : ∀ max ∈ [Level.off, .error, .warn, .info],
      ¬ Level.debug ≤ max ∧ ¬ Level.trace ≤ max := by decide
  rw [decide_eq_true_eq]
  rcases m.level_eq with hm | hm <;> rw [hm]
  · exact (none max h).1
  · exact (none max h).2

end Log

namespace Logged

/-- The second does what the first does, but drops each message above a level instead of sending
it. -/
inductive Gated (max : Level) : {α : Type} → Logged α → Logged α → Prop
  | pure {α : Type} (a : α) : Gated max (pure a) (pure a)
  | send (m : Message) : Gated max (send m) (if m.level ≤ max then send m else pure ())
  | bind {α β : Type} {m g : Logged α} {f h : α → Logged β} (first : Gated max m g)
      (later : ∀ a, Gated max (f a) (h a)) : Gated max (m >>= f) (g >>= h)

variable {α : Type} {max : Level}

theorem Gated.eq_upTo {m g : Logged α} (h : Gated max m g) : g = ⟨m.value, m.log.upTo max⟩ := by
  induction h with
  | pure a => rfl
  | send m =>
      have hf : Log.upTo max [m] = if m.level ≤ max then [m] else [] := by
        by_cases hm : m.level ≤ max <;> simp [Log.upTo, hm]
      rw [Logged.send, hf]
      split <;> rfl
  | @bind α β m g f h first later ihm ihf =>
      rw [ihm, bind_mk, ihf, ← Log.upTo_append]
      rfl

theorem gated_upTo (max : Level) (m : Logged α) : Gated max m ⟨m.value, m.log.upTo max⟩ := by
  obtain ⟨a, log⟩ := m
  induction log with
  | nil => exact .pure a
  | cons m log ih =>
      have h : Gated max (Logged.send m >>= fun _ => ⟨a, log⟩) _ := .bind (.send m) fun _ => ih
      exact h.eq_upTo ▸ h

theorem Gated.eq_self {call full : Logged α} (h : Gated .trace call full) : full = call := by
  rw [h.eq_upTo, Log.upTo_trace]

end Logged

namespace LogLine

def TellsTrailing (byte : UInt8) (offset : Nat) (line : LogLine) : Prop :=
  ∃ ds os, Hex.Padded Hex.lowerDigits 2 byte.toNat ds ∧
    Hex.Unpadded Hex.lowerDigits offset os ∧
    line = (.debug, "dropping trailing byte 0x" ++ ds ++ " at offset 0x" ++ os)

def TellsUnknown (word : Nat) (line : LogLine) : Prop :=
  ∃ ds, Hex.Padded Hex.lowerDigits 4 word ds ∧ line = (.debug, "unknown opcode 0x" ++ ds)

def summary (bytes instructions unknown : Nat) : LogLine :=
  (.trace, "disassembled " ++ toString bytes ++ " bytes: " ++ toString instructions ++
    " instructions, " ++ toString unknown ++ " unknown")

theorem tellsTrailing_ofMessage (byte : UInt8) (offset : Nat) :
    TellsTrailing byte offset (ofMessage (.trailingByte byte offset)) :=
  ⟨_, _, Hex.padded_lower byte.toNat_lt, Hex.unpadded_shortest offset, rfl⟩

theorem tellsUnknown_ofMessage (c : Opcode) :
    TellsUnknown (256 * c.hi.toNat + c.lo.toNat) (ofMessage (.unknownOpcode c)) :=
  ⟨_, c.toNat_word ▸ Hex.padded_lower c.word.toNat_lt, rfl⟩

end LogLine

theorem Instruction.length_remarks (is : List Instruction) :
    (remarks is).lines.length = is.countP isUnknown := by
  rw [Log.lines, remarks, List.length_map, List.length_map, List.countP_eq_length_filter]

theorem Opcode.lines_remarks (c : Opcode) :
    (c.instruction.isUnknown = false ∧ c.remarks.lines = []) ∨
      (c.instruction.isUnknown = true ∧ ∃ line,
        LogLine.TellsUnknown (256 * c.hi.toNat + c.lo.toNat) line ∧ c.remarks.lines = [line]) := by
  rw [remarks]
  cases h : c.instruction.isUnknown with
  | false => exact .inl ⟨rfl, rfl⟩
  | true => exact .inr ⟨rfl, _, LogLine.tellsUnknown_ofMessage c, rfl⟩

namespace Program

theorem tellsTrailing_reportTrailing (bytes : List UInt8) :
    (reportTrailing bytes).log.lines.length = bytes.length % 2 ∧
      ∀ line ∈ (reportTrailing bytes).log.lines, ∃ byte, bytes.getLast? = some byte ∧
        bytes.length - 1 = 2 * (bytes.length / 2) ∧
        LogLine.TellsTrailing byte (bytes.length - 1) line := by
  obtain ⟨hlen, hbyte⟩ := log_reportTrailing bytes
  constructor
  · rw [Log.lines, List.length_map, hlen]
  · intro line hline
    obtain ⟨m, hm, rfl⟩ := List.mem_map.mp hline
    obtain ⟨byte, hlast, rfl⟩ := hbyte m hm
    have hpos := List.length_pos_of_mem hm
    exact ⟨byte, hlast, by omega, LogLine.tellsTrailing_ofMessage byte _⟩

theorem tellsUnknown_remarks (bytes : List UInt8) :
    List.Forall₂ (fun p line => ∃ hi lo, bytes[2 * p.2]? = some hi ∧
        bytes[2 * p.2 + 1]? = some lo ∧ LogLine.TellsUnknown (256 * hi.toNat + lo.toNat) line)
      ((instructions bytes).zipIdx.filter (·.1.isUnknown))
      (Instruction.remarks (instructions bytes)).lines := by
  have hfst (is : List Instruction) : is.filter Instruction.isUnknown =
      (is.zipIdx.filter (·.1.isUnknown)).map Prod.fst := by
    have h := List.filter_map (f := Prod.fst) (p := Instruction.isUnknown) (l := is.zipIdx)
    rwa [List.zipIdx_map_fst] at h
  rw [Log.lines, Instruction.remarks, hfst, List.map_map, List.map_map,
    List.forall₂_map_right_iff]
  apply List.forall₂_same.mpr
  rintro ⟨i, k⟩ hp
  have hi := List.mem_zipIdx_iff_getElem?.mp (List.mem_filter.mp hp).1
  rw [instructions, List.getElem?_map] at hi
  obtain ⟨c, hc, rfl⟩ := Option.map_eq_some_iff.mp hi
  obtain ⟨hhi, hlo⟩ := (getElem?_codes_eq_some_iff bytes k c).mp hc
  refine ⟨c.hi, c.lo, hhi, hlo, ?_⟩
  simpa using LogLine.tellsUnknown_ofMessage c

theorem lines_disassemble (bytes : List UInt8) : (disassemble bytes).run.log.lines =
    (reportTrailing bytes).log.lines ++ (Instruction.remarks (instructions bytes)).lines ++
      [LogLine.summary bytes.length (instructions bytes).length
        ((instructions bytes).countP Instruction.isUnknown)] := by
  rw [disassemble_run, readingLog, Log.lines_append, Log.lines_append, length_instructions]
  rfl

/-- The log of a disassembly and of a listing has a line on the byte left over, if there is one, a
line on each unknown word in the order of the image, and the summary, in which these are counted. A
cursor that is read to the end sends the same but for the summary, and decoding at most the line on
its own word. A level takes away the lines above it, and leaves the result as it is. -/
theorem log_lines (l : Layout) (bytes : List UInt8) :
    (∃ is trailing unknown, (disassemble bytes).run.value = .ok is ∧
      is.length = bytes.length / 2 ∧
      (∀ k hi lo, bytes[2 * k]? = some hi → bytes[2 * k + 1]? = some lo →
        ∃ i, is[k]? = some i ∧ (decode [hi, lo]).run.value = .ok i) ∧
      trailing.length = bytes.length % 2 ∧
      (∀ line ∈ trailing, ∃ byte, bytes.getLast? = some byte ∧
        bytes.length - 1 = 2 * (bytes.length / 2) ∧
        LogLine.TellsTrailing byte (bytes.length - 1) line) ∧
      List.Forall₂ (fun p line => ∃ hi lo, bytes[2 * p.2]? = some hi ∧
          bytes[2 * p.2 + 1]? = some lo ∧ LogLine.TellsUnknown (256 * hi.toNat + lo.toNat) line)
        (is.zipIdx.filter (·.1.isUnknown)) unknown ∧
      unknown.length = is.countP Instruction.isUnknown ∧
      (items bytes).log.lines = trailing ++ unknown ∧
      (disassemble bytes).run.log.lines =
        trailing ++ unknown ++ [LogLine.summary bytes.length is.length unknown.length] ∧
      (listing l bytes).run.log.lines =
        trailing ++ unknown ++ [LogLine.summary bytes.length is.length unknown.length]) ∧
    (∀ hi lo, ∃ i, (decode [hi, lo]).run.value = .ok i ∧
      ((i.isUnknown = false ∧ (decode [hi, lo]).run.log.lines = []) ∨
        (i.isUnknown = true ∧ ∃ line, LogLine.TellsUnknown (256 * hi.toNat + lo.toNat) line ∧
          (decode [hi, lo]).run.log.lines = [line]))) ∧
    (∀ input : List UInt8, input.length ≠ 2 →
      (∃ e, (decode input).run.value = .error e) ∧ (decode input).run.log.lines = []) ∧
    ∀ (α : Type) (call : Logged α) (max : Level), (∃ seen, Logged.Gated max call seen) ∧
      ∀ seen full, Logged.Gated max call seen → Logged.Gated .trace call full →
        full = call ∧ seen.value = full.value ∧
          (max = .trace → seen.log.lines = full.log.lines) ∧
          (max = .debug → seen.log.lines = full.log.lines.filter (fun line => line.1 = .debug)) ∧
          (max ∈ [.off, .error, .warn, .info] → seen.log.lines = []) := by
  refine ⟨?_, ?_, ?_, ?_⟩
  · obtain ⟨htrailing, hlast⟩ := tellsTrailing_reportTrailing bytes
    have hcount := Instruction.length_remarks (instructions bytes)
    refine ⟨instructions bytes, _, _, ?_, length_instructions bytes, ?_, htrailing, hlast,
      tellsUnknown_remarks bytes, hcount, ?_, ?_, ?_⟩
    · rw [disassemble_run]
    · intro k hi lo hhi hlo
      have hc := (getElem?_codes_eq_some_iff bytes k ⟨hi, lo⟩).mpr ⟨hhi, hlo⟩
      refine ⟨(Opcode.mk hi lo).instruction, ?_, by rw [decode_pair]⟩
      rw [instructions, List.getElem?_map, hc, Option.map_some]
    · rw [items_eq, readingLog, Log.lines_append]
    · rw [lines_disassemble, hcount]
    · rw [listing_run, lines_disassemble, hcount]
  · intro hi lo
    rw [decode_pair]
    exact ⟨_, rfl, (Opcode.mk hi lo).lines_remarks⟩
  · intro input hl
    obtain ⟨c, rfl, -⟩ | he := decode_cases input
    · exact absurd rfl hl
    · rw [he]
      exact ⟨⟨_, rfl⟩, rfl⟩
  · intro α call max
    refine ⟨⟨_, Logged.gated_upTo max call⟩, ?_⟩
    intro seen full hs hf
    rw [hf.eq_self, hs.eq_upTo]
    refine ⟨rfl, rfl, ?_, ?_, ?_⟩
    · rintro rfl
      rw [Log.upTo_trace]
    · rintro rfl
      exact call.log.lines_upTo_debug
    · intro h
      rw [Log.upTo_eq_nil _ h]
      rfl

end Program

end Chip8
