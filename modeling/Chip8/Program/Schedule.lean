import Chip8.Program.Cursor

namespace Chip8

structure Job where
  index : Nat
  chunk : List UInt8
deriving DecidableEq, Repr

/-- An order for jobs. Each job is done once. -/
structure Scheduler where
  order : List Job → List Job
  perm : ∀ jobs, (order jobs).Perm jobs

namespace Scheduler

def lastFirst : Scheduler := ⟨List.reverse, List.reverse_perm⟩

end Scheduler

namespace Program

def jobs (bytes : List UInt8) : List Job :=
  (chunks bytes).zipIdx.map (fun p => ⟨p.2, p.1⟩)

def perform (job : Job) : Logged (Nat × Except DecodeError Instruction) := do
  return (job.index, ← (decode job.chunk).run)

def work (s : Scheduler) (bytes : List UInt8) :
    Logged (List (Nat × Except DecodeError Instruction)) :=
  (s.order (jobs bytes)).mapM perform

def collect (results : List (Nat × Except DecodeError Instruction)) :
    List (Except DecodeError Instruction) :=
  (results.mergeSort (fun a b => a.1 ≤ b.1)).map Prod.snd

def disassembleOn (s : Scheduler) (bytes : List UInt8) : DecodeM (List Instruction) := do
  reportTrailing bytes
  let is ← (collect (← work s bytes)).mapM (fun result => liftExcept result)
  reportSummary bytes is
  return is

end Program

end Chip8
