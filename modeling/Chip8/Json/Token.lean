import Chip8.Json.Basic
import Chip8.Json.Quoted

namespace Chip8.Json

namespace Numeral

/-- Digits alone, with no zero before another digit. -/
def isPlain : List Char → Bool
  | [] => false
  | ['0'] => true
  | c :: cs => c != '0' && (c :: cs).all Char.isDigit

def isDigits (cs : List Char) : Bool := !cs.isEmpty && cs.all Char.isDigit

def isExponent : List Char → Bool
  | [] => true
  | 'e' :: '+' :: cs | 'e' :: '-' :: cs | 'E' :: '+' :: cs | 'E' :: '-' :: cs => isDigits cs
  | 'e' :: cs | 'E' :: cs => isDigits cs
  | _ => false

def isFraction : List Char → Bool
  | '.' :: cs => isDigits (cs.takeWhile Char.isDigit) && isExponent (cs.dropWhile Char.isDigit)
  | cs => isExponent cs

def isUnsigned (cs : List Char) : Bool :=
  isPlain (cs.takeWhile Char.isDigit) && isFraction (cs.dropWhile Char.isDigit)

def isNumber : List Char → Bool
  | '-' :: cs => isUnsigned cs
  | cs => isUnsigned cs

def ofChars? (cs : List Char) : Option Json :=
  if isPlain cs then some (.nat (Nat.ofDigitChars 10 cs 0))
  else if isNumber cs then some (.decimal (String.ofList cs))
  else none

end Numeral

inductive Token where
  | beginArray
  | endArray
  | beginObject
  | endObject
  | colon
  | comma
  | atom (v : Json)

namespace Token

def ofMark? : Char → Option Token
  | '[' => some beginArray
  | ']' => some endArray
  | '\x7b' => some beginObject
  | '\x7d' => some endObject
  | ':' => some colon
  | ',' => some comma
  | _ => none

/-- The value of a run of characters between marks and blanks. -/
def ofWord? (cs : List Char) : Option Token :=
  if cs = "null".toList then some (atom .null)
  else if cs = "true".toList then some (atom (.bool true))
  else if cs = "false".toList then some (atom (.bool false))
  else (Numeral.ofChars? cs).map atom

def ofQuoted? (cs : List Char) : Option Token := do
  let ps ← Quoted.pieces? cs
  match Quoted.join? ps with
  | some cs => return atom (.str (String.ofList cs))
  | none => return atom .unpaired

end Token

/-- What is being read. Characters are kept with the latest first. -/
inductive Scanning where
  | between
  | word (cs : List Char)
  | quoted (cs : List Char)
  /-- After a backslash between quotes. -/
  | escape (cs : List Char)
deriving DecidableEq, Repr

/-- A lexer in the middle of a text. Tokens are kept with the latest first. -/
structure Lexer where
  tokens : List Token
  scanning : Scanning

namespace Lexer

def start : Lexer := ⟨[], .between⟩

def isBlank (c : Char) : Bool := c = ' ' ∨ c = '\t' ∨ c = '\n' ∨ c = '\r'

def begin (ts : List Token) (c : Char) : Lexer :=
  if isBlank c then ⟨ts, .between⟩
  else if c = '"' then ⟨ts, .quoted []⟩
  else match Token.ofMark? c with
    | some t => ⟨t :: ts, .between⟩
    | none => ⟨ts, .word [c]⟩

def endsWord (c : Char) : Bool := isBlank c || c = '"' || (Token.ofMark? c).isSome

def step : Lexer → Char → Option Lexer
  | ⟨ts, .between⟩, c => some (begin ts c)
  | ⟨ts, .word cs⟩, c =>
    if endsWord c then (Token.ofWord? cs.reverse).map (fun t => begin (t :: ts) c)
    else some ⟨ts, .word (c :: cs)⟩
  | ⟨ts, .quoted cs⟩, c =>
    if c = '"' then (Token.ofQuoted? cs.reverse).map (fun t => ⟨t :: ts, .between⟩)
    else if c = '\\' then some ⟨ts, .escape (c :: cs)⟩
    else some ⟨ts, .quoted (c :: cs)⟩
  | ⟨ts, .escape cs⟩, c => some ⟨ts, .quoted (c :: cs)⟩

def finish : Lexer → Option (List Token)
  | ⟨ts, .between⟩ => some ts.reverse
  | ⟨ts, .word cs⟩ => (Token.ofWord? cs.reverse).map (fun t => (t :: ts).reverse)
  | _ => none

end Lexer

def tokens? (cs : List Char) : Option (List Token) := do
  let l ← cs.foldlM Lexer.step Lexer.start
  l.finish

end Chip8.Json
