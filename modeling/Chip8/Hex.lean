namespace Chip8.Hex

/-- The `w` lowest hexadecimal digits of `n`, the highest of them first, letters in lower case. -/
def digits : Nat → Nat → List Char
  | 0, _ => []
  | w + 1, n => digits w (n / 16) ++ [Nat.digitChar (n % 16)]

def lower (w n : Nat) : String := String.ofList (digits w n)

def upper (w n : Nat) : String := String.ofList ((digits w n).map Char.toUpper)

def shortest (n : Nat) : String := String.ofList (Nat.toDigits 16 n)

def digit? (c : Char) : Option Nat :=
  if '0' ≤ c ∧ c ≤ '9' then some (c.toNat - '0'.toNat)
  else if 'a' ≤ c ∧ c ≤ 'f' then some (c.toNat - 'a'.toNat + 10)
  else if 'A' ≤ c ∧ c ≤ 'F' then some (c.toNat - 'A'.toNat + 10)
  else none

def value? (cs : List Char) : Option Nat :=
  cs.foldlM (fun n c => (digit? c).map (16 * n + ·)) 0

/-- Two digits to a byte; an odd digit at the end is refused. -/
def bytes? : List Char → Option (List UInt8)
  | [] => some []
  | [_] => none
  | c :: d :: cs => do
    let n ← value? [c, d]
    let bytes ← bytes? cs
    return UInt8.ofNat n :: bytes

theorem length_digits (w n : Nat) : (digits w n).length = w := by
  induction w generalizing n with
  | zero => rfl
  | succ w ih => simp [digits, ih]

theorem digit?_digitChar {d : Nat} (h : d < 16) : digit? (Nat.digitChar d) = some d := by
  have all : ∀ d < 16, digit? (Nat.digitChar d) = some d := by decide
  exact all d h

end Chip8.Hex
