import Chip8.Json.Basic
import Chip8.Json.Quoted
import Chip8.Json.Token
import Chip8.Log

namespace Chip8.Json

abbrev Key := Option String

/-- A container that a value will go into. What it holds already is kept with the latest first. -/
inductive Frame where
  | elem (elems : List Json)
  | member (members : List (Key × Json)) (key : Key)

/-- What the parser expects, under the containers that are open around it. -/
inductive Parser where
  | value (stack : List Frame)
  /-- The first element, or the end of the array. -/
  | arrayStart (stack : List Frame)
  /-- A comma, or the end of the array. -/
  | afterElem (elems : List Json) (stack : List Frame)
  /-- The first key, or the end of the object. -/
  | objectStart (stack : List Frame)
  | key (members : List (Key × Json)) (stack : List Frame)
  | colon (members : List (Key × Json)) (key : Key) (stack : List Frame)
  /-- A comma, or the end of the object. -/
  | afterMember (members : List (Key × Json)) (stack : List Frame)
  | done (v : Json)

def ofMembers (members : List (Key × Json)) : Json :=
  match members.mapM (fun m => m.1.map (·, m.2)) with
  | some members => .obj members
  | none => .unpaired

namespace Parser

def complete (v : Json) : List Frame → Parser
  | [] => done v
  | .elem elems :: stack => afterElem (v :: elems) stack
  | .member members k :: stack => afterMember ((k, v) :: members) stack

def begin (stack : List Frame) : Token → Option Parser
  | .atom v => some (complete v stack)
  | .beginArray => some (arrayStart stack)
  | .beginObject => some (objectStart stack)
  | _ => none

def beginMember (members : List (Key × Json)) (stack : List Frame) : Token → Option Parser
  | .atom (.str s) => some (colon members (some s) stack)
  | .atom .unpaired => some (colon members none stack)
  | _ => none

def step : Parser → Token → Option Parser
  | value stack, t => begin stack t
  | arrayStart stack, .endArray => some (complete (.arr []) stack)
  | arrayStart stack, t => begin (.elem [] :: stack) t
  | afterElem elems stack, .comma => some (value (.elem elems :: stack))
  | afterElem elems stack, .endArray => some (complete (.arr elems.reverse) stack)
  | objectStart stack, .endObject => some (complete (.obj []) stack)
  | objectStart stack, t => beginMember [] stack t
  | key members stack, t => beginMember members stack t
  | colon members k stack, .colon => some (value (.member members k :: stack))
  | afterMember members stack, .comma => some (key members stack)
  | afterMember members stack, .endObject => some (complete (ofMembers members.reverse) stack)
  | _, _ => none

def result? : Parser → Option Json
  | done v => some v
  | _ => none

end Parser

def parse? (s : String) : Option Json := do
  let ts ← tokens? s.toList
  let p ← ts.foldlM Parser.step (.value [])
  p.result?

def quote (s : String) : List Char := '"' :: Quoted.encode s.toList ++ ['"']

mutual

def chars : Json → List Char
  | null => "null".toList
  | bool true => "true".toList
  | bool false => "false".toList
  | nat n => Nat.toDigits 10 n
  | decimal spelling => spelling.toList
  | str s => quote s
  | arr elems => '[' :: [','].intercalate (charsOfElems elems) ++ [']']
  | obj members => '\x7b' :: [','].intercalate (charsOfMembers members) ++ ['\x7d']
  | unpaired => "\"\\ud800\"".toList

def charsOfElems : List Json → List (List Char)
  | [] => []
  | v :: elems => chars v :: charsOfElems elems

def charsOfMembers : List (String × Json) → List (List Char)
  | [] => []
  | (k, v) :: members => (quote k ++ ':' :: chars v) :: charsOfMembers members

end

def text (v : Json) : String := String.ofList v.chars

end Chip8.Json

namespace Chip8

/-- Reading may refuse a value and may send messages; what was sent before a refusal is kept. -/
abbrev ReadM := OptionT Logged

namespace ReadM

variable {α β : Type}

def ofOption (a : Option α) : ReadM α := OptionT.mk (pure a)

@[simp] theorem run_ofOption (a : Option α) : (ofOption a).run = pure a := rfl

theorem value_bind (m : ReadM α) (f : α → ReadM β) :
    (m >>= f).run.value = m.run.value.bind fun a => (f a).run.value := by
  rw [OptionT.run_bind, Option.elimM, Logged.value_bind]
  cases m.run.value <;> rfl

theorem log_bind (m : ReadM α) (f : α → ReadM β) :
    (m >>= f).run.log = m.run.log ++ m.run.value.elim [] fun a => (f a).run.log := by
  rw [OptionT.run_bind, Option.elimM, Logged.log_bind]
  cases m.run.value <;> rfl

end ReadM

class Serial (α : Type) where
  toJson : α → Json
  reading : Json → ReadM α

namespace Serial

variable {α : Type} [Serial α]

def write (a : α) : String := (toJson a).text

def ofJson? (v : Json) : Option α := (reading v).run.value

/-- What a text is read as, without the messages. -/
def read? (s : String) : Option α := do
  let v ← Json.parse? s
  ofJson? v

instance : Serial (List α) where
  toJson as := .arr (as.map toJson)
  reading
    | .arr elems => elems.mapM reading
    | _ => failure

end Serial

end Chip8
