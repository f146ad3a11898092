import Chip8.Program.Schedule
import Chip8.Proofs.Disassembly
import Mathlib.Data.List.Nodup

namespace Chip8

theorem Level.rank_injective : Function.Injective rank := by
  intro l m h
  cases l <;> cases m <;> first | rfl | cases h

namespace LogLine

theorem le_iff (a b : LogLine) :
    le a b = true ↔ a.1.rank < b.1.rank ∨ a.1 = b.1 ∧ a.2 ≤ b.2 := by
  have hle : a.1 ≤ b.1 ↔ a.1.rank ≤ b.1.rank := Iff.rfl
  by_cases h : a.1 = b.1
  · simp [le, h]
  · have hr : a.1.rank ≠ b.1.rank := fun hr => h (Level.rank_injective hr)
    simp only [le, h, if_false, decide_eq_true_eq, false_and, or_false, hle]
    omega

theorem le_trans (a b c : LogLine) (hab : le a b = true) (hbc : le b c = true) :
    le a c = true := by
  rw [le_iff] at *
  rcases hab with hab | ⟨hab, ht⟩
  · rcases hbc with hbc | ⟨hbc, -⟩
    · exact .inl (Nat.lt_trans hab hbc)
    · exact .inl (hbc ▸ hab)
  · rcases hbc with hbc | ⟨hbc, hu⟩
    · exact .inl (hab ▸ hbc)
    · exact .inr ⟨hab.trans hbc, String.le_trans ht hu⟩

theorem le_total (a b : LogLine) : (le a b || le b a) = true := by
  rw [Bool.or_eq_true, le_iff, le_iff]
  rcases Nat.lt_trichotomy a.1.rank b.1.rank with h | h | h
  · exact .inl (.inl h)
  · have hl := Level.rank_injective h
    rcases String.le_total a.2 b.2 with ht | ht
    · exact .inl (.inr ⟨hl, ht⟩)
    · exact .inr (.inr ⟨hl.symm, ht⟩)
  · exact .inr (.inl h)

theorem le_antisymm (a b : LogLine) (hab : le a b = true) (hba : le b a = true) : a = b := by
  rw [le_iff] at hab hba
  rcases hab with hab | ⟨hl, ht⟩
  · rcases hba with hba | ⟨hl, -⟩
    · exact absurd hba (Nat.lt_asymm hab)
    · exact absurd hab (by rw [hl]; exact Nat.lt_irrefl _)
  · rcases hba with hba | ⟨-, hu⟩
    · exact absurd hba (by rw [hl]; exact Nat.lt_irrefl _)
    · exact Prod.ext hl (String.le_antisymm ht hu)

end LogLine

theorem Log.sortedLines_eq_of_perm {a b : Log} (h : a.Perm b) : a.sortedLines = b.sortedLines := by
  have hp : a.sortedLines.Perm b.sortedLines :=
    (List.mergeSort_perm _ _).trans ((h.map _).trans (List.mergeSort_perm _ _).symm)
  have sorted (log : Log) : log.sortedLines.Pairwise (fun l m => LogLine.le l m = true) :=
    List.pairwise_mergeSort LogLine.le_trans LogLine.le_total log.lines
  exact hp.eq_of_pairwise (fun l m _ _ => LogLine.le_antisymm l m) (sorted a) (sorted b)

theorem Logged.mapM_eq {α β : Type} (f : α → Logged β) (as : List α) :
    as.mapM f = ⟨as.map (fun a => (f a).value), as.flatMap (fun a => (f a).log)⟩ := by
  induction as with
  | nil => rfl
  | cons a as ih =>
      rw [List.mapM_cons, ih]
      change (⟨_, (f a).log ++ (as.flatMap _ ++ [])⟩ : Logged (List β)) = _
      rw [List.append_nil]
      rfl

namespace Program

theorem jobs_index (bytes : List UInt8) :
    (jobs bytes).map Job.index = List.range (bytes.length / 2) := by
  rw [jobs, List.map_map, ← length_chunks, List.range_eq_range']
  exact List.zipIdx_map_snd 0 (chunks bytes)

theorem jobs_chunk (bytes : List UInt8) : (jobs bytes).map Job.chunk = chunks bytes := by
  rw [jobs, List.map_map]
  exact List.zipIdx_map_fst 0 (chunks bytes)

theorem pairwise_index (bytes : List UInt8) :
    (jobs bytes).Pairwise (fun a b => a.index < b.index) := by
  have h : ((jobs bytes).map Job.index).Pairwise (· < ·) := by
    rw [jobs_index]
    exact List.pairwise_lt_range
  exact List.pairwise_map.mp h

theorem mergeSort_eq_jobs {bytes : List UInt8} {order : List Job} (h : order.Perm (jobs bytes)) :
    order.mergeSort (fun a b => a.index ≤ b.index) = jobs bytes := by
  have hp := (List.mergeSort_perm order (fun a b => a.index ≤ b.index)).trans h
  have sorted : (order.mergeSort (fun a b => a.index ≤ b.index)).Pairwise
      (fun a b => decide (a.index ≤ b.index) = true) :=
    List.pairwise_mergeSort (fun a b c hab hbc => by simp only [decide_eq_true_eq] at *; omega)
      (fun a b => by simp only [Bool.or_eq_true, decide_eq_true_eq]; omega) order
  have nodup : ((jobs bytes).map Job.index).Nodup := jobs_index bytes ▸ List.nodup_range
  refine hp.eq_of_pairwise ?_ sorted ?_
  · intro a b ha hb hab hba
    have he : a.index = b.index := Nat.le_antisymm (of_decide_eq_true hab) (of_decide_eq_true hba)
    exact List.inj_on_of_nodup_map nodup (hp.subset ha) hb he
  · exact (pairwise_index bytes).imp fun hlt => decide_eq_true (Nat.le_of_lt hlt)

theorem map_decode_chunks (bytes : List UInt8) :
    (chunks bytes).map (fun chunk => (decode chunk).run.value) = (instructions bytes).map .ok := by
  rw [chunks_eq_map, instructions, List.map_map, List.map_map]
  exact List.map_congr_left fun c _ => congrArg Logged.value c.decode_run

theorem flatMap_decode_chunks (bytes : List UInt8) :
    (chunks bytes).flatMap (fun chunk => (decode chunk).run.log) =
      Instruction.remarks (instructions bytes) := by
  rw [chunks_eq_map, instructions, List.flatMap_map]
  induction codes bytes with
  | nil => rfl
  | cons c cs ih =>
      have hc : (decode c.bytes).run.log = c.remarks := congrArg Logged.log c.decode_run
      rw [List.flatMap_cons, List.map_cons, ih, hc, ← Opcode.remarks_instruction,
        ← Instruction.remarks_append]
      rfl

theorem collect_work (s : Scheduler) (bytes : List UInt8) :
    collect (work s bytes).value = (instructions bytes).map .ok := by
  -- the results carry the indices of their jobs, so sorting them is sorting the jobs
  have hs := List.map_mergeSort (f := fun j : Job => (perform j).value)
    (r := fun a b => a.index ≤ b.index) (s := fun a b => a.1 ≤ b.1) (l := s.order (jobs bytes))
    (fun _ _ _ _ => rfl)
  rw [mergeSort_eq_jobs (s.perm _)] at hs
  rw [collect, work, Logged.mapM_eq, ← hs, List.map_map, ← map_decode_chunks, ← jobs_chunk,
    List.map_map]
  rfl

theorem log_work_perm (s : Scheduler) (bytes : List UInt8) :
    (work s bytes).log.Perm (Instruction.remarks (instructions bytes)) := by
  have hw : (work s bytes).log =
      (s.order (jobs bytes)).flatMap (fun j => (decode j.chunk).run.log) := by
    rw [work, Logged.mapM_eq]
    exact List.flatMap_congr fun j _ => List.append_nil _
  have hj : (jobs bytes).flatMap (fun j => (decode j.chunk).run.log) =
      Instruction.remarks (instructions bytes) := by
    rw [← flatMap_decode_chunks, ← jobs_chunk, List.flatMap_map]
  rw [hw, ← hj]
  exact (s.perm _).flatMap_right _

theorem mapM_liftExcept (is : List Instruction) :
    (is.map .ok).mapM (fun result : Except DecodeError Instruction =>
      (liftExcept result : DecodeM Instruction)) = pure is := by
  have h := mapM_liftExcept_ok id is
  rw [List.map_id, List.mapM_map] at h
  rw [List.mapM_map]
  exact h

theorem disassembleOn_run (s : Scheduler) (bytes : List UInt8) :
    (disassembleOn s bytes).run = ⟨.ok (instructions bytes),
      (reportTrailing bytes).log ++ (work s bytes).log ++
        [.summary bytes.length (bytes.length / 2)
          ((instructions bytes).countP Instruction.isUnknown)]⟩ := by
  have h : (disassembleOn s bytes).run = (⟨(), (reportTrailing bytes).log⟩ : Logged Unit) >>=
    fun _ => (⟨(work s bytes).value, (work s bytes).log⟩ : Logged _) >>= fun rs =>
      ((collect rs).mapM (fun result => (liftExcept result : DecodeM Instruction)) >>=
        fun is => (ExceptT.lift (reportSummary bytes is) >>= fun _ => pure is)).run := rfl
  rw [h, Logged.bind_mk, Logged.bind_mk, collect_work, mapM_liftExcept, pure_bind,
    ← length_instructions, List.append_assoc]
  rfl

end Program

theorem Scheduler.exists_order {jobs order : List Job} (h : order.Perm jobs) :
    ∃ s : Scheduler, s.order jobs = order := by
  refine ⟨⟨fun js => if js = jobs then order else js, ?_⟩, if_pos rfl⟩
  intro js
  by_cases hj : js = jobs
  · rw [if_pos hj, hj]
    exact h
  · rw [if_neg hj]

namespace Program

/-- In whatever order the chunks are decoded, the instructions are those of disassembly in the order
of the image. The messages are the same up to the order of those on opcodes, between the one on the
byte left over and the summary, so that no level of the sorted log shows a difference. -/
theorem disassembleOn_agrees (bytes : List UInt8) :
    (∀ order, order.Perm (jobs bytes) → ∃ s : Scheduler, s.order (jobs bytes) = order) ∧
    ∀ s : Scheduler, ∃ is first sent sent' last,
      (disassemble bytes).run = ⟨.ok is, first ++ sent ++ [last]⟩ ∧
      (disassembleOn s bytes).run = ⟨.ok is, first ++ sent' ++ [last]⟩ ∧
      first.length = bytes.length % 2 ∧
      (∀ m ∈ first, ∃ byte, bytes.getLast? = some byte ∧
        m = .trailingByte byte (bytes.length - 1)) ∧
      sent'.Perm sent ∧ (∀ m ∈ sent, ∃ c, m = .unknownOpcode c) ∧
      last = .summary bytes.length is.length (is.countP Instruction.isUnknown) ∧
      ∀ max, ((disassembleOn s bytes).run.log.upTo max).sortedLines =
        ((disassemble bytes).run.log.upTo max).sortedLines := by
  refine ⟨fun order h => Scheduler.exists_order h, ?_⟩
  intro s
  have hw := log_work_perm s bytes
  have ht := log_reportTrailing bytes
  refine ⟨instructions bytes, _, _, _, _, disassemble_run bytes, disassembleOn_run s bytes,
    ht.1, ht.2, hw, ?_, ?_, ?_⟩
  · intro m hm
    obtain ⟨i, -, rfl⟩ := List.mem_map.mp hm
    exact ⟨i.raw, rfl⟩
  · rw [length_instructions]
  · intro max
    apply Log.sortedLines_eq_of_perm
    rw [disassembleOn_run, disassemble_run]
    exact ((hw.append_left _).append_right _).filter _

end Program

end Chip8
