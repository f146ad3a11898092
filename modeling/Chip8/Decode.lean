import Chip8.Instruction
import Chip8.Log

namespace Chip8

inductive DecodeError where
  | invalidLength (n : Nat)
  /-- The leading byte selects no group. -/
  | invalidOpcode (byte : UInt8)
deriving DecidableEq, Repr

def DecodeError.message : DecodeError → String
  | invalidLength n =>
    "invalid instruction length " ++ toString n ++ ": all CHIP-8 instructions are 2 bytes"
  | invalidOpcode byte => "invalid leading opcode byte 0x" ++ Hex.lower 2 byte.toNat

/-- Decoding may fail and may send messages; what was sent before a failure is kept. -/
abbrev DecodeM := ExceptT DecodeError Logged

namespace Opcode

/-- Group 0 with a zero high byte: screen and flow control. How far SCD scrolls is no operand. -/
def control? (c : Opcode) : Option Operation :=
  match c.lo.toNat with
  | 0xE0 => some .cls
  | 0xEE => some .ret
  | 0xFB => some .scr
  | 0xFC => some .scl
  | 0xFD => some .exit
  | 0xFE => some .low
  | 0xFF => some .high
  | lo => if lo / 16 = 0xC then some .scd else none

/-- Group 8: operations between two registers. -/
def arithmetic? (c : Opcode) : Option Operation :=
  match c.n.toNat with
  | 0x0 => some .ld
  | 0x1 => some .or
  | 0x2 => some .and
  | 0x3 => some .xor
  | 0x4 => some .add
  | 0x5 => some .sub
  | 0x6 => some .shr
  | 0x7 => some .subn
  | 0xE => some .shl
  | _ => none

/-- Group E: skips that depend on a key. -/
def keySkip? (c : Opcode) : Option Operation :=
  match c.lo.toNat with
  | 0x9E => some .skp
  | 0xA1 => some .sknp
  | _ => none

/-- Group F: moves between a register and the timers, the keys, the fonts and memory. -/
def transfer? (c : Opcode) : Option (Operation × List Operand) :=
  match c.lo.toNat with
  | 0x07 => some (.ld, [c.x, Label.delayTimer])
  | 0x0A => some (.ld, [c.x, Label.key])
  | 0x15 => some (.ld, [Label.delayTimer, c.x])
  | 0x18 => some (.ld, [Label.soundTimer, c.x])
  | 0x1E => some (.add, [Label.index, c.x])
  | 0x29 => some (.ld, [Label.font, c.x])
  | 0x30 => some (.ldExt, [Label.largeFont, c.x])
  | 0x33 => some (.ld, [Label.decimal, c.x])
  | 0x55 => some (.ld, [Label.index, c.x])
  | 0x65 => some (.ld, [c.x, Label.index])
  | 0x75 => some (.ldExt, [Label.flags, c.x])
  | 0x85 => some (.ldExt, [c.x, Label.flags])
  | _ => none

/-- The operation of an opcode and its operands, or `none` for a bit pattern outside the set. -/
def meaning (c : Opcode) : Except DecodeError (Option (Operation × List Operand)) :=
  match c.group with
  | 0x0 => .ok (if c.hi = 0 then c.control?.map (·, []) else some (.sys, []))
  | 0x1 => .ok (some (.jmp, [c.nnn]))
  | 0x2 => .ok (some (.call, [c.nnn]))
  | 0x3 => .ok (some (.se, [c.x, c.kk]))
  | 0x4 => .ok (some (.sne, [c.x, c.kk]))
  | 0x5 => .ok (if c.n.toNat = 0 then some (.se, [c.x, c.y]) else none)
  | 0x6 => .ok (some (.ld, [c.x, c.kk]))
  | 0x7 => .ok (some (.add, [c.x, c.kk]))
  | 0x8 => .ok (c.arithmetic?.map (·, [c.x, c.y]))
  | 0x9 => .ok (if c.n.toNat = 0 then some (.sne, [c.x, c.y]) else none)
  | 0xA => .ok (some (.ld, [Label.index, c.nnn]))
  | 0xB => .ok (some (.jp, [Scalar.ofNat .reg 0, c.nnn]))
  | 0xC => .ok (some (.rnd, [c.x, c.kk]))
  | 0xD => .ok (some (.drw, [c.x, c.y, c.n]))
  | 0xE => .ok (c.keySkip?.map (·, [c.x]))
  | 0xF => .ok c.transfer?
  | _ => .error (.invalidOpcode c.hi)

def decode (c : Opcode) : DecodeM Instruction := do
  match ← liftExcept c.meaning with
  | some (op, operands) => return ⟨.known op, operands, c⟩
  | none =>
    Logged.send (.unknownOpcode c)
    return ⟨.unknown c, [], c⟩

end Opcode

def decode : List UInt8 → DecodeM Instruction
  | [hi, lo] => Opcode.decode ⟨hi, lo⟩
  | bytes => throw (.invalidLength bytes.length)

def decodeWord (w : UInt16) : DecodeM Instruction := (Opcode.ofWord w).decode

end Chip8
