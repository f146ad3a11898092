import Chip8.Json.Text
import Chip8.Program.Listing

namespace Chip8.Layout

def field? {α : Type} (read? : Json → Option α) (default : α) : Option Json → Option α
  | none => some default
  | some v => read? v

def readOrigin? (v : Json) : Option UInt16 := (v.natUpTo? 65535).map UInt16.ofNat

instance : Serial Layout where
  toJson l := .obj
    [("origin", .nat l.origin.toNat), ("show_offsets", .bool l.showAddress),
      ("show_raw", .bool l.showWord)]
  reading v := .ofOption <|
    match v.fields? ["origin", "show_offsets", "show_raw"] with
    | some [origin, showAddress, showWord] => do
      let origin ← field? readOrigin? defaultOrigin origin
      let showAddress ← field? Json.bool? true showAddress
      let showWord ← field? Json.bool? true showWord
      return ⟨origin, showAddress, showWord⟩
    | _ => none

end Chip8.Layout
