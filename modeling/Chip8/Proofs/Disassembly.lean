import Chip8.Program.Listing
import Chip8.Proofs.Position

namespace Chip8.Program

def instructions (bytes : List UInt8) : List Instruction := (codes bytes).map Opcode.instruction

/-- What is sent while an image is read from the start to the end. -/
def readingLog (bytes : List UInt8) : Log :=
  (reportTrailing bytes).log ++ Instruction.remarks (instructions bytes)

theorem length_instructions (bytes : List UInt8) :
    (instructions bytes).length = bytes.length / 2 := by
  rw [instructions, List.length_map, length_codes]

theorem lt_length_instructions_iff (bytes : List UInt8) (k : Nat) :
    k < (instructions bytes).length ↔ 2 * k + 1 < bytes.length := by
  rw [length_instructions]
  omega

theorem getElem?_instructions (bytes : List UInt8) (k : Nat) (h : 2 * k + 1 < bytes.length) :
    (instructions bytes)[k]? = some (codeAt bytes k h).instruction := by
  rw [instructions, List.getElem?_map, getElem?_codes bytes k h, Option.map_some]

theorem getElem_instructions (bytes : List UInt8) (k : Nat) (h : 2 * k + 1 < bytes.length)
    (hk : k < (instructions bytes).length) :
    (instructions bytes)[k] = (codeAt bytes k h).instruction := by
  apply Option.some.inj
  rw [← List.getElem?_eq_getElem hk, getElem?_instructions bytes k h]

theorem log_reportTrailing (bytes : List UInt8) :
    (reportTrailing bytes).log.length = bytes.length % 2 ∧
      ∀ m ∈ (reportTrailing bytes).log, ∃ byte, bytes.getLast? = some byte ∧
        m = .trailingByte byte (bytes.length - 1) := by
  unfold reportTrailing
  split
  next byte hb =>
    split
    next he => exact ⟨he.symm, fun m hm => absurd hm List.not_mem_nil⟩
    next ho =>
      refine ⟨?_, fun m hm => ⟨byte, hb, List.mem_singleton.mp hm⟩⟩
      exact (Nat.mod_two_ne_zero.mp ho).symm
  next hb =>
    rw [List.getLast?_eq_none_iff.mp hb]
    exact ⟨rfl, fun m hm => absurd hm List.not_mem_nil⟩

theorem map_located (bytes : List UInt8) :
    (located bytes).map Located.instruction = instructions bytes :=
  map_counted _ _ _ _ fun _ _ => rfl

theorem start_eq (bytes : List UInt8) :
    Cursor.start bytes = ⟨⟨bytes, 0⟩, (reportTrailing bytes).log⟩ :=
  congrArg (Logged.mk _) (List.append_nil _)

theorem items_eq (bytes : List UInt8) :
    items bytes = ⟨(located bytes).map .ok, readingLog bytes⟩ := by
  have h : items bytes =
    Cursor.start bytes >>= fun c => Cursor.rest c >>= fun r => ⟨r.1, []⟩ := rfl
  have hl : Cursor.left ⟨bytes, 0⟩ = located bytes := rfl
  rw [h, start_eq, Logged.bind_mk, Cursor.rest_eq, Logged.bind_mk, Cursor.heard,
    ← Cursor.length_left, List.take_length, hl, map_located, List.append_nil, readingLog]

theorem mapM_liftExcept_ok {α β : Type} (f : α → β) (as : List α) :
    (as.map .ok).mapM (fun a : Except DecodeError α =>
      (liftExcept (a.map f) : DecodeM β)) = pure (as.map f) := by
  induction as with
  | nil => rfl
  | cons a as ih =>
      rw [List.map_cons, List.mapM_cons, ih]
      rfl

theorem disassemble_run (bytes : List UInt8) :
    (disassemble bytes).run = ⟨.ok (instructions bytes), readingLog bytes ++
      [.summary bytes.length (bytes.length / 2)
        ((instructions bytes).countP Instruction.isUnknown)]⟩ := by
  have h : (disassemble bytes).run = items bytes >>= fun items =>
    (items.mapM (fun item => (liftExcept (item.map Located.instruction) : DecodeM Instruction)) >>=
      fun is => (ExceptT.lift (reportSummary bytes is) >>= fun _ => pure is)).run := rfl
  rw [h, items_eq, Logged.bind_mk, mapM_liftExcept_ok, map_located, pure_bind,
    ← length_instructions]
  rfl

theorem listing_run (l : Layout) (bytes : List UInt8) :
    (listing l bytes).run = ⟨.ok (l.render (instructions bytes)), (disassemble bytes).run.log⟩ := by
  rw [listing, ExceptT.run_bind, disassemble_run, Logged.bind_mk]
  exact congrArg (Logged.mk _) (List.append_nil _)

end Chip8.Program
