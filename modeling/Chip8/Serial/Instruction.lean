import Chip8.Decode
import Chip8.Serial.Operand

namespace Chip8

namespace Opcode

instance : Serial Opcode where
  toJson c := .arr [.nat c.hi.toNat, .nat c.lo.toNat]
  reading v := .ofOption <|
    match v with
    | .arr [hi, lo] => do
      let hi ← hi.natUpTo? 255
      let lo ← lo.natUpTo? 255
      return ⟨UInt8.ofNat hi, UInt8.ofNat lo⟩
    | _ => none

/-- The opcode in a structure whose one field is named raw. -/
def ofRecord? (v : Json) : Option Opcode :=
  match v.fields? ["raw"] with
  | some [some raw] => Serial.ofJson? raw
  | _ => none

end Opcode

namespace Operation

def tag : Operation → String
  | cls => "Cls"
  | ret => "Ret"
  | sys => "SysIgnored"
  | jmp => "Jmp"
  | call => "Call"
  | se => "Se"
  | sne => "Sne"
  | ld => "Ld"
  | add => "Add"
  | or => "Or"
  | and => "And"
  | xor => "Xor"
  | sub => "Sub"
  | shr => "Shr"
  | subn => "Subn"
  | shl => "Shl"
  | jp => "Jp"
  | rnd => "Rnd"
  | drw => "Drw"
  | skp => "Skp"
  | sknp => "Sknp"
  | scd => "Scd"
  | scr => "Scr"
  | scl => "Scl"
  | exit => "Exit"
  | low => "Low"
  | high => "High"
  | ldExt => "LdExt"

instance : Serial Operation where
  toJson op := .str op.tag
  reading v := .ofOption (v.choice? all tag)

end Operation

namespace Mnemonic

def unknownTag : String := "Unknown"

instance : Serial Mnemonic where
  toJson
    | known op => Serial.toJson op
    | unknown code => .obj [(unknownTag, .obj [("raw", Serial.toJson code)])]
  reading v := .ofOption <|
    match v.variant? with
    | some (name, some held) =>
      if name = unknownTag then (Opcode.ofRecord? held).map unknown
      else (Serial.ofJson? v).map known
    | _ => (Serial.ofJson? v).map known

end Mnemonic

namespace Instruction

instance : Serial Instruction where
  toJson i := .obj
    [("mnemonic", Serial.toJson i.mnemonic), ("operands", Serial.toJson i.operands),
      ("raw", Serial.toJson i.raw)]
  reading v := do
    let code ← .ofOption (Opcode.ofRecord? v)
    OptionT.mk (Except.toOption <$> (decode code.bytes).run)

end Instruction

end Chip8
