import Chip8.Decode

namespace Chip8

/-- What `f` makes of each element and a counter, which goes on by `step` after each. -/
def counted {ι α β : Type} [Add ι] (f : ι → α → β) (step : ι) : ι → List α → List β
  | _, [] => []
  | i, a :: as => f i a :: counted f step (i + step) as

namespace Program

def chunks : List UInt8 → List (List UInt8)
  | hi :: lo :: bytes => [hi, lo] :: chunks bytes
  | _ => []

def reportTrailing (bytes : List UInt8) : Logged Unit :=
  match bytes.getLast? with
  | some byte =>
    if bytes.length % 2 = 0 then return () else .send (.trailingByte byte (bytes.length - 1))
  | none => return ()

def reportSummary (bytes : List UInt8) (is : List Instruction) : Logged Unit :=
  .send (.summary bytes.length is.length (is.countP Instruction.isUnknown))

theorem length_chunks (bytes : List UInt8) : (chunks bytes).length = bytes.length / 2 := by
  fun_induction chunks bytes with
  | case1 hi lo bytes ih =>
    simp only [List.length_cons, ih]
    omega
  | case2 bytes h =>
    match bytes, h with
    | [], _ => rfl
    | [_], _ => simp
    | hi :: lo :: bytes, h => exact absurd rfl (h hi lo bytes)

end Program

/-- An instruction and where it begins. The offset is counted modulo 2 ^ 32. -/
structure Located where
  offset : UInt32
  instruction : Instruction
deriving DecidableEq, Repr

abbrev Item := Except DecodeError Located

namespace Item

def isUnknown : Item → Bool
  | .ok l => l.instruction.isUnknown
  | .error _ => false

end Item

structure Cursor where
  bytes : List UInt8
  offset : UInt32
deriving DecidableEq, Repr

abbrev CursorM := StateT Cursor Logged

namespace Cursor

def start (bytes : List UInt8) : Logged Cursor := do
  Program.reportTrailing bytes
  return ⟨bytes, 0⟩

def remaining (c : Cursor) : Nat := c.bytes.length / 2

def next : CursorM (Option Item) := fun c =>
  match c.bytes with
  | hi :: lo :: bytes => do
    let read ← (decode [hi, lo]).run
    return (some (read.map (Located.mk c.offset)), ⟨bytes, c.offset + 2⟩)
  | _ => return (none, c)

def take : Nat → CursorM (List Item)
  | 0, c => return ([], c)
  | n + 1, c => do
    match ← next c with
    | (none, c) => return ([], c)
    | (some item, c) => (fun r => (item :: r.1, r.2)) <$> take n c

def rest : CursorM (List Item) := do
  take (← get).remaining

def nth (n : Nat) : CursorM (Option Item) := do
  let _ ← take n
  next

def find (p : Item → Bool) : Nat → CursorM (Option Item)
  | 0 => return none
  | n + 1 => do
    match ← next with
    | none => return none
    | some item => if p item then return some item else find p n

def findUnknown : CursorM (Option Item) := do
  find Item.isUnknown (← get).remaining

/-- Runs `m` and puts the cursor back where it was; the messages of `m` remain. -/
def ahead {α : Type} (m : CursorM α) : CursorM α := do
  let c ← get
  let a ← m
  set c
  return a

def count : CursorM Nat := ahead do
  return (← rest).length

def last : CursorM (Option Item) := ahead do
  return (← rest).getLast?

inductive Query where
  | next
  | nth (n : Nat)
  | length
  | sizeHint
  | count
  | last
  | take (n : Nat)
  | rest
  | findUnknown
deriving DecidableEq, Repr

inductive Reply where
  | item (item : Option Item)
  | items (items : List Item)
  | number (n : Nat)
  | bounds (lower upper : Nat)

def ask : Query → CursorM Reply
  | .next => return .item (← next)
  | .nth n => return .item (← nth n)
  | .length => return .number (← get).remaining
  | .sizeHint => return .bounds (← get).remaining (← get).remaining
  | .count => return .number (← count)
  | .last => return .item (← last)
  | .take n => return .items (← take n)
  | .rest => return .items (← rest)
  | .findUnknown => return .item (← findUnknown)

end Cursor

namespace Program

/-- All that a cursor reads on the way from the start of an image to its end. -/
def items (bytes : List UInt8) : Logged (List Item) := do
  let c ← Cursor.start bytes
  let (items, _) ← Cursor.rest.run c
  return items

def disassemble (bytes : List UInt8) : DecodeM (List Instruction) := do
  let items ← items bytes
  let is ← items.mapM (fun item => liftExcept (item.map Located.instruction))
  reportSummary bytes is
  return is

end Program

end Chip8
