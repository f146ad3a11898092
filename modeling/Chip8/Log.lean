import Chip8.Instruction

namespace Chip8

inductive Level where
  | off
  | error
  | warn
  | info
  | debug
  | trace
deriving DecidableEq, Repr

namespace Level

def rank : Level → Nat
  | off => 0
  | error => 1
  | warn => 2
  | info => 3
  | debug => 4
  | trace => 5

instance : LE Level := ⟨fun l m => l.rank ≤ m.rank⟩

instance (l m : Level) : Decidable (l ≤ m) := inferInstanceAs (Decidable (l.rank ≤ m.rank))

def name : Level → String
  | off => "OFF"
  | error => "ERROR"
  | warn => "WARN"
  | info => "INFO"
  | debug => "DEBUG"
  | trace => "TRACE"

end Level

inductive Message where
  | unknownOpcode (code : Opcode)
  | trailingByte (byte : UInt8) (offset : Nat)
  | summary (bytes instructions unknown : Nat)
deriving DecidableEq, Repr

namespace Message

def level : Message → Level
  | unknownOpcode _ | trailingByte _ _ => .debug
  | summary _ _ _ => .trace

def text : Message → String
  | unknownOpcode code => "unknown opcode 0x" ++ Hex.lower 4 code.word.toNat
  | trailingByte byte offset =>
    "dropping trailing byte 0x" ++ Hex.lower 2 byte.toNat ++
      " at offset 0x" ++ Hex.shortest offset
  | summary bytes instructions unknown =>
    "disassembled " ++ toString bytes ++ " bytes: " ++ toString instructions ++
      " instructions, " ++ toString unknown ++ " unknown"

end Message

abbrev Log := List Message

structure Logged (α : Type) where
  value : α
  log : Log
deriving DecidableEq, Repr

namespace Logged

variable {α β : Type}

instance : Monad Logged where
  pure a := ⟨a, []⟩
  map f m := ⟨f m.value, m.log⟩
  bind m f :=
    let r := f m.value
    ⟨r.value, m.log ++ r.log⟩

def send (m : Message) : Logged Unit := ⟨(), [m]⟩

@[simp] theorem value_pure (a : α) : (pure a : Logged α).value = a := rfl

@[simp] theorem log_pure (a : α) : (pure a : Logged α).log = [] := rfl

@[simp] theorem value_map (f : α → β) (m : Logged α) : (f <$> m).value = f m.value := rfl

@[simp] theorem log_map (f : α → β) (m : Logged α) : (f <$> m).log = m.log := rfl

@[simp] theorem value_bind (m : Logged α) (f : α → Logged β) :
    (m >>= f).value = (f m.value).value := rfl

@[simp] theorem log_bind (m : Logged α) (f : α → Logged β) :
    (m >>= f).log = m.log ++ (f m.value).log := rfl

instance : LawfulMonad Logged := LawfulMonad.mk' Logged
  (fun _ => rfl)
  (fun _ _ => by simp [bind, pure])
  (fun _ _ _ => by simp [bind, List.append_assoc])
  (fun _ _ => rfl)
  (fun _ _ => rfl)
  (fun _ _ => rfl)
  (fun _ _ => by simp [bind, pure, Functor.map])

end Logged

abbrev LogLine := Level × String

namespace LogLine

def ofMessage (m : Message) : LogLine := (m.level, m.text)

def le (a b : LogLine) : Bool :=
  if a.1 = b.1 then a.2 ≤ b.2 else a.1 ≤ b.1

end LogLine

namespace Log

def upTo (max : Level) (log : Log) : Log := log.filter (fun m => m.level ≤ max)

def lines (log : Log) : List LogLine := log.map LogLine.ofMessage

/-- The lines of a log whose order carries no meaning. -/
def sortedLines (log : Log) : List LogLine := log.lines.mergeSort LogLine.le

end Log

end Chip8
