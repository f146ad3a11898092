import Chip8.Hex

namespace Chip8.Json.Quoted

inductive Piece where
  | char (c : Char)
  /-- A UTF-16 unit. -/
  | unit (n : Nat)
deriving DecidableEq, Repr

def ofLetter? : Char → Option Char
  | '"' => some '"'
  | '\\' => some '\\'
  | '/' => some '/'
  | 'b' => some '\x08'
  | 'f' => some '\x0c'
  | 'n' => some '\n'
  | 'r' => some '\r'
  | 't' => some '\t'
  | _ => none

def letter? : Char → Option Char
  | '"' => some '"'
  | '\\' => some '\\'
  | '\x08' => some 'b'
  | '\x0c' => some 'f'
  | '\n' => some 'n'
  | '\r' => some 'r'
  | '\t' => some 't'
  | _ => none

/-- Refuses control characters and malformed escapes. -/
def pieces? : List Char → Option (List Piece)
  | [] => some []
  | '\\' :: 'u' :: a :: b :: c :: d :: cs => do
    let n ← Hex.value? [a, b, c, d]
    return .unit n :: (← pieces? cs)
  | '\\' :: e :: cs => do
    let c ← ofLetter? e
    return .char c :: (← pieces? cs)
  | c :: cs =>
    if c.toNat < 0x20 ∨ c = '\\' ∨ c = '"' then none
    else return .char c :: (← pieces? cs)

def isLead (n : Nat) : Bool := 0xD800 ≤ n ∧ n < 0xDC00

def isTrail (n : Nat) : Bool := 0xDC00 ≤ n ∧ n < 0xE000

def pair (lead trail : Nat) : Char :=
  Char.ofNat (0x10000 + 0x400 * (lead - 0xD800) + (trail - 0xDC00))

/-- Refuses a unit that is half of a pair and stands alone. -/
def join? : List Piece → Option (List Char)
  | [] => some []
  | .char c :: ps => (join? ps).map (c :: ·)
  | .unit n :: .unit m :: ps =>
    if isLead n then if isTrail m then (join? ps).map (pair n m :: ·) else none
    else if isTrail n then none
    else (join? (.unit m :: ps)).map (Char.ofNat n :: ·)
  | .unit n :: ps =>
    if isLead n ∨ isTrail n then none else (join? ps).map (Char.ofNat n :: ·)

/-- A character as it is written: only quotes, backslashes and control characters are escaped. -/
def encodeChar (c : Char) : List Char :=
  match letter? c with
  | some e => ['\\', e]
  | none => if c.toNat < 0x20 then '\\' :: 'u' :: Hex.digits 4 c.toNat else [c]

def encode (cs : List Char) : List Char := cs.flatMap encodeChar

end Chip8.Json.Quoted
