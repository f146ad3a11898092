import Chip8.Instruction

namespace Chip8

inductive Pattern where
  /-- The words that agree with `value` on the bits of `mask`. -/
  | bits (mask value : Nat)
  | highByte (least greatest : Nat)
deriving DecidableEq, Repr

namespace Pattern

def Covers (w : UInt16) : Pattern → Prop
  | bits mask value => w.toNat &&& mask = value
  | highByte least greatest => least ≤ w.toNat / 0x100 ∧ w.toNat / 0x100 ≤ greatest

instance (w : UInt16) (p : Pattern) : Decidable (p.Covers w) := by
  cases p <;> simp only [Covers] <;> infer_instance

end Pattern

/-- Where an operand of a row comes from: a field of the word, register 0, or a label. -/
inductive Slot where
  | nnn
  | x
  | y
  | n
  | kk
  | v0
  | label (l : Label)
deriving DecidableEq, Repr

/-- An operand as the table has it: a number of some kind, given as a number, or a label. -/
inductive Entry where
  | number (k : Scalar.Kind) (n : Nat)
  | label (l : Label)
deriving DecidableEq, Repr

def Slot.entry (w : UInt16) : Slot → Entry
  | nnn => .number .addr (w.toNat % 0x1000)
  | x => .number .reg (w.toNat / 0x100 % 0x10)
  | y => .number .reg (w.toNat / 0x10 % 0x10)
  | n => .number .nibble (w.toNat % 0x10)
  | kk => .number .imm (w.toNat % 0x100)
  | v0 => .number .reg 0
  | label l => .label l

def Operand.entry : Operand → Entry
  | scalar k s => .number k s.toNat
  | label l => .label l

structure Row where
  pattern : Pattern
  operation : Operation
  slots : List Slot
deriving DecidableEq, Repr

namespace Row

def Covers (w : UInt16) (r : Row) : Prop := r.pattern.Covers w

instance (w : UInt16) (r : Row) : Decidable (r.Covers w) :=
  inferInstanceAs (Decidable (r.pattern.Covers w))

def entries (w : UInt16) (r : Row) : List Entry := r.slots.map (Slot.entry w)

end Row

def table : List Row := [
  ⟨.bits 0xFFFF 0x00E0, .cls, []⟩,
  ⟨.bits 0xFFFF 0x00EE, .ret, []⟩,
  ⟨.bits 0xFFF0 0x00C0, .scd, []⟩,
  ⟨.bits 0xFFFF 0x00FB, .scr, []⟩,
  ⟨.bits 0xFFFF 0x00FC, .scl, []⟩,
  ⟨.bits 0xFFFF 0x00FD, .exit, []⟩,
  ⟨.bits 0xFFFF 0x00FE, .low, []⟩,
  ⟨.bits 0xFFFF 0x00FF, .high, []⟩,
  ⟨.highByte 0x01 0x0F, .sys, []⟩,
  ⟨.bits 0xF000 0x1000, .jmp, [.nnn]⟩,
  ⟨.bits 0xF000 0x2000, .call, [.nnn]⟩,
  ⟨.bits 0xF000 0x3000, .se, [.x, .kk]⟩,
  ⟨.bits 0xF000 0x4000, .sne, [.x, .kk]⟩,
  ⟨.bits 0xF00F 0x5000, .se, [.x, .y]⟩,
  ⟨.bits 0xF000 0x6000, .ld, [.x, .kk]⟩,
  ⟨.bits 0xF000 0x7000, .add, [.x, .kk]⟩,
  ⟨.bits 0xF00F 0x8000, .ld, [.x, .y]⟩,
  ⟨.bits 0xF00F 0x8001, .or, [.x, .y]⟩,
  ⟨.bits 0xF00F 0x8002, .and, [.x, .y]⟩,
  ⟨.bits 0xF00F 0x8003, .xor, [.x, .y]⟩,
  ⟨.bits 0xF00F 0x8004, .add, [.x, .y]⟩,
  ⟨.bits 0xF00F 0x8005, .sub, [.x, .y]⟩,
  ⟨.bits 0xF00F 0x8006, .shr, [.x, .y]⟩,
  ⟨.bits 0xF00F 0x8007, .subn, [.x, .y]⟩,
  ⟨.bits 0xF00F 0x800E, .shl, [.x, .y]⟩,
  ⟨.bits 0xF00F 0x9000, .sne, [.x, .y]⟩,
  ⟨.bits 0xF000 0xA000, .ld, [.label .index, .nnn]⟩,
  ⟨.bits 0xF000 0xB000, .jp, [.v0, .nnn]⟩,
  ⟨.bits 0xF000 0xC000, .rnd, [.x, .kk]⟩,
  ⟨.bits 0xF000 0xD000, .drw, [.x, .y, .n]⟩,
  ⟨.bits 0xF0FF 0xE09E, .skp, [.x]⟩,
  ⟨.bits 0xF0FF 0xE0A1, .sknp, [.x]⟩,
  ⟨.bits 0xF0FF 0xF007, .ld, [.x, .label .delayTimer]⟩,
  ⟨.bits 0xF0FF 0xF00A, .ld, [.x, .label .key]⟩,
  ⟨.bits 0xF0FF 0xF015, .ld, [.label .delayTimer, .x]⟩,
  ⟨.bits 0xF0FF 0xF018, .ld, [.label .soundTimer, .x]⟩,
  ⟨.bits 0xF0FF 0xF01E, .add, [.label .index, .x]⟩,
  ⟨.bits 0xF0FF 0xF029, .ld, [.label .font, .x]⟩,
  ⟨.bits 0xF0FF 0xF030, .ldExt, [.label .largeFont, .x]⟩,
  ⟨.bits 0xF0FF 0xF033, .ld, [.label .decimal, .x]⟩,
  ⟨.bits 0xF0FF 0xF055, .ld, [.label .index, .x]⟩,
  ⟨.bits 0xF0FF 0xF065, .ld, [.x, .label .index]⟩,
  ⟨.bits 0xF0FF 0xF075, .ldExt, [.label .flags, .x]⟩,
  ⟨.bits 0xF0FF 0xF085, .ldExt, [.x, .label .flags]⟩]

end Chip8
