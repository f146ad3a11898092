import Chip8.Json.Text
import Chip8.Operand

namespace Chip8

namespace Scalar

namespace Kind

def all : List Kind := [addr, imm, nibble, reg]

def tag : Kind → String
  | addr => "Addr"
  | imm => "Imm"
  | nibble => "Nibble"
  | reg => "Reg"

def max : Kind → Nat
  | addr => 65535
  | imm | nibble | reg => 255

end Kind

instance (k : Kind) : Serial (Scalar k) where
  toJson s := .nat s.toNat
  reading v := .ofOption ((v.natUpTo? k.max).map (Scalar.ofNat k))

end Scalar

namespace Label

def tag : Label → String
  | index => "I"
  | delayTimer => "Dt"
  | soundTimer => "St"
  | key => "K"
  | font => "F"
  | largeFont => "Hf"
  | decimal => "B"
  | flags => "R"

instance : Serial Label where
  toJson l := .str l.tag
  reading v := .ofOption (v.choice? all tag)

end Label

namespace Operand

def labelTag : String := "Named"

instance : Serial Operand where
  toJson
    | scalar k s => .obj [(k.tag, Serial.toJson s)]
    | label l => .obj [(labelTag, Serial.toJson l)]
  reading v := .ofOption <|
    match v.variant? with
    | some (tag, some held) =>
      if tag = labelTag then (Serial.ofJson? held).map label
      else do
        let k ← Scalar.Kind.all.find? (fun k => k.tag = tag)
        let s ← Serial.ofJson? held
        return scalar k s
    | _ => none

end Operand

end Chip8
