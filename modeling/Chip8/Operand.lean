import Chip8.Hex

namespace Chip8

namespace Scalar

inductive Kind where
  | addr
  | imm
  | nibble
  | reg
deriving DecidableEq, Repr

namespace Kind

def digits : Kind → Nat
  | addr => 3
  | imm => 2
  | nibble => 1
  | reg => 1

def width (k : Kind) : Nat := 4 * k.digits

def sigil : Kind → String
  | addr => "a"
  | imm => "0x"
  | nibble => "0x"
  | reg => "V_"

end Kind

end Scalar

structure Scalar (k : Scalar.Kind) where
  bits : BitVec k.width
deriving DecidableEq, Repr

/-- A memory address, 12 bits. -/
abbrev Addr := Scalar .addr

abbrev Imm := Scalar .imm

abbrev Nibble := Scalar .nibble

/-- One of the sixteen general registers. -/
abbrev Reg := Scalar .reg

namespace Scalar

variable {k : Kind}

/-- The number of kind `k` that the low bits of `n` make. -/
def ofNat (k : Kind) (n : Nat) : Scalar k := ⟨BitVec.ofNat k.width n⟩

def toNat (s : Scalar k) : Nat := s.bits.toNat

def text (s : Scalar k) : String := k.sigil ++ Hex.upper k.digits s.toNat

instance : Ord (Scalar k) where
  compare s t := compare s.toNat t.toNat

theorem ofNat_toNat (s : Scalar k) : ofNat k s.toNat = s := by
  simp only [ofNat, toNat, BitVec.ofNat_toNat, BitVec.setWidth_eq]

theorem toNat_inj {s t : Scalar k} : s.toNat = t.toNat ↔ s = t := by
  constructor
  · intro h
    rw [← ofNat_toNat s, h, ofNat_toNat]
  · rintro rfl
    rfl

end Scalar

inductive Label where
  | index
  | delayTimer
  | soundTimer
  /-- A wait for the next key. -/
  | key
  | font
  | largeFont
  /-- The decimal digits stored at the index. -/
  | decimal
  /-- The user flags kept over a restart. -/
  | flags
deriving DecidableEq, Repr

namespace Label

def all : List Label :=
  [index, delayTimer, soundTimer, key, font, largeFont, decimal, flags]

def text : Label → String
  | index => "I"
  | delayTimer => "DT"
  | soundTimer => "ST"
  | key => "K"
  | font => "F"
  | largeFont => "HF"
  | decimal => "B"
  | flags => "R"

theorem mem_all (l : Label) : l ∈ all := by
  cases l <;> decide

end Label

inductive Operand where
  | scalar (k : Scalar.Kind) (s : Scalar k)
  | label (l : Label)
deriving DecidableEq, Repr

namespace Operand

def text : Operand → String
  | scalar _ s => s.text
  | label l => l.text

instance (k : Scalar.Kind) : CoeOut (Scalar k) Operand := ⟨scalar k⟩

instance : Coe Label Operand := ⟨label⟩

end Operand

end Chip8
