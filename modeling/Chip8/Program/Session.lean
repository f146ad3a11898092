import Chip8.Program.Cursor

namespace Chip8

structure Session where
  cursors : List Cursor
  current : Nat
  current_lt : current < cursors.length

namespace Session

inductive Step where
  | query (q : Cursor.Query)
  | fork
  | use (i : Nat)
deriving DecidableEq, Repr

inductive Outcome where
  | reply (r : Cursor.Reply)
  /-- The index of a cursor made by a fork or made current. -/
  | index (i : Nat)

def start (bytes : List UInt8) : Logged Session := do
  let c ← Cursor.start bytes
  return ⟨[c], 0, Nat.zero_lt_one⟩

def cursor (s : Session) : Cursor := s.cursors.get ⟨s.current, s.current_lt⟩

/-- Refuses only the use of an index that no cursor has. -/
def perform (s : Session) : Step → Option (Logged (Outcome × Session))
  | .query q => some do
    let (r, c) ← (Cursor.ask q).run s.cursor
    return (.reply r,
      ⟨s.cursors.set s.current c, s.current, by simp only [List.length_set, s.current_lt]⟩)
  | .fork =>
    some (return (.index s.cursors.length,
      ⟨s.cursors ++ [s.cursor], s.current,
        by simp only [List.length_append, Nat.lt_add_right _ s.current_lt]⟩))
  | .use i =>
    if h : i < s.cursors.length then some (return (.index i, ⟨s.cursors, i, h⟩)) else none

def run (s : Session) : List Step → Option (List (Logged Outcome))
  | [] => some []
  | step :: steps => do
    let done ← s.perform step
    let later ← run done.value.2 steps
    return ⟨done.value.1, done.log⟩ :: later

end Session

end Chip8
