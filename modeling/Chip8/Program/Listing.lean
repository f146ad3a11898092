import Chip8.Program.Cursor

namespace Chip8

/-- The address at which interpreters load programs. -/
def defaultOrigin : UInt16 := 0x200

structure Layout where
  origin : UInt16 := defaultOrigin
  showAddress : Bool := true
  showWord : Bool := true
deriving DecidableEq, Repr

namespace Layout

/-- Two spaces end each column before the text. -/
def line (l : Layout) (address : UInt16) (i : Instruction) : String :=
  (if l.showAddress then Hex.upper 4 address.toNat ++ "  " else "") ++
    (if l.showWord then Hex.upper 4 i.word.toNat ++ "  " else "") ++ i.text

/-- The lines from an address on. Addresses are counted modulo 2 ^ 16. -/
def lines (l : Layout) : UInt16 → List Instruction → List String := counted l.line 2

theorem lines_cons (l : Layout) (a : UInt16) (i : Instruction) (is : List Instruction) :
    l.lines a (i :: is) = l.line a i :: l.lines (a + 2) is := rfl

def render (l : Layout) (is : List Instruction) : String :=
  String.join ((l.lines l.origin is).map (· ++ "\n"))

end Layout

namespace Program

def listing (l : Layout) (bytes : List UInt8) : DecodeM String := do
  return l.render (← disassemble bytes)

end Program

namespace Layout

def cut : List Char → List (List Char)
  | [] => []
  | '\n' :: cs => [] :: cut cs
  | c :: cs =>
    match cut cs with
    | [] => [[c]]
    | line :: lines => (c :: line) :: lines

def addressWidth (l : Layout) : Nat := if l.showAddress then 6 else 0

def readWord? (l : Layout) (line : List Char) : Option UInt16 :=
  (Hex.value? ((line.drop l.addressWidth).take 4)).map UInt16.ofNat

/-- The words of a listing that shows them. -/
def readWords? (l : Layout) (listing : String) : Option (List UInt16) :=
  (cut listing.toList).mapM (readWord? l)

end Layout

end Chip8
