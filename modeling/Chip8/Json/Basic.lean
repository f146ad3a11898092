namespace Chip8

inductive Json where
  | null
  | bool (b : Bool)
  /-- A number written as digits alone. -/
  | nat (n : Nat)
  /-- A number with a sign, a fraction or an exponent, by its spelling. -/
  | decimal (spelling : String)
  | str (s : String)
  | arr (elems : List Json)
  | obj (members : List (String × Json))
  /-- A string, or an object with a key, whose escapes hold half of a surrogate pair: well-formed,
  but without a text that it could stand for. -/
  | unpaired

namespace Json

/-- The name of a variant and what it holds: a bare name, or an object with one member. -/
def variant? : Json → Option (String × Option Json)
  | str name => some (name, none)
  | obj [(name, held)] => some (name, some held)
  | _ => none

/-- The variant among `all` that `v` names, with nothing or null in it. -/
def choice? {α : Type} (all : List α) (tag : α → String) (v : Json) : Option α :=
  match v.variant? with
  | some (name, none) | some (name, some null) => all.find? (fun a => tag a = name)
  | _ => none

/-- The value of the one member with a given name, if there is one; a repeated name is refused. -/
def member? (members : List (String × Json)) (name : String) : Option (Option Json) :=
  match members.filter (fun m => m.1 = name) with
  | [] => some none
  | [m] => some (some m.2)
  | _ => none

/-- The values of the fields of a structure: an object, whose other members are ignored, or an array
of the values in order, which may end early. -/
def fields? (names : List String) : Json → Option (List (Option Json))
  | obj members => names.mapM (member? members)
  | arr elems =>
    if elems.length ≤ names.length then
      some (elems.map some ++ List.replicate (names.length - elems.length) none)
    else none
  | _ => none

def bool? : Json → Option Bool
  | bool b => some b
  | _ => none

/-- A number of digits alone, at most `max`. -/
def natUpTo? (max : Nat) : Json → Option Nat
  | nat n => if n ≤ max then some n else none
  | _ => none

end Json

end Chip8
