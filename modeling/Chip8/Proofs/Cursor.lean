import Chip8.Program.Cursor
import Chip8.Proofs.Decoding
import Chip8.Proofs.Lists

namespace Chip8

def locate : UInt32 → List Opcode → List Located :=
  counted (fun offset c => ⟨offset, c.instruction⟩) 2

theorem getElem?_locate (offset : UInt32) (cs : List Opcode) (k : Nat) :
    (locate offset cs)[k]? =
      cs[k]?.map (fun c => ⟨offset + UInt32.ofNat (2 * k), c.instruction⟩) :=
  getElem?_counted offsetOf _ offset cs k

theorem locate_drop (offset : UInt32) (cs : List Opcode) (k : Nat) :
    locate (offset + UInt32.ofNat (2 * k)) (cs.drop k) = (locate offset cs).drop k := by
  apply List.ext_getElem?
  intro j
  have ho : offset + UInt32.ofNat (2 * k) + UInt32.ofNat (2 * j) =
      offset + UInt32.ofNat (2 * (k + j)) := by
    rw [UInt32.add_assoc, ← UInt32.ofNat_add, Nat.mul_add]
  rw [getElem?_locate, List.getElem?_drop, List.getElem?_drop, getElem?_locate, ho]

namespace Cursor

def left (c : Cursor) : List Located := locate c.offset (Program.codes c.bytes)

/-- The cursor when `k` more instructions are read, or all that are left if they are fewer. -/
def skip (c : Cursor) (k : Nat) : Cursor :=
  ⟨c.bytes.drop (2 * min k c.remaining), c.offset + UInt32.ofNat (2 * min k c.remaining)⟩

def heard (c : Cursor) (k : Nat) : Log :=
  Instruction.remarks ((c.left.take k).map Located.instruction)

theorem length_left (c : Cursor) : c.left.length = c.remaining := by
  rw [left, locate, length_counted, Program.length_codes, remaining]

theorem remaining_skip (c : Cursor) (k : Nat) : (c.skip k).remaining = c.remaining - k := by
  simp only [remaining, skip, List.length_drop]
  omega

theorem left_skip (c : Cursor) (k : Nat) : (c.skip k).left = c.left.drop k := by
  simp only [left, skip, Program.codes_drop, locate_drop]
  by_cases h : k ≤ c.remaining
  · rw [Nat.min_eq_left h]
  · have hr : c.remaining ≤ k := Nat.le_of_not_le h
    have hl : (locate c.offset (Program.codes c.bytes)).length = c.remaining := c.length_left
    rw [Nat.min_eq_right hr, List.drop_of_length_le (Nat.le_of_eq hl),
      List.drop_of_length_le (hl ▸ hr)]

@[simp] theorem skip_zero (c : Cursor) : c.skip 0 = c := by simp [skip]

theorem skip_skip (c : Cursor) (j k : Nat) : (c.skip j).skip k = c.skip (j + k) := by
  have h : min j c.remaining + min k (c.skip j).remaining = min (j + k) c.remaining := by
    rw [remaining_skip]
    omega
  rw [skip, skip, skip, ← h]
  simp only [skip, List.drop_drop, Nat.mul_add, UInt32.ofNat_add, UInt32.add_assoc]

theorem heard_add (c : Cursor) (j k : Nat) :
    c.heard (j + k) = c.heard j ++ (c.skip j).heard k := by
  simp only [heard, left_skip, List.take_add, List.map_append, Instruction.remarks_append]

theorem skip_min (c : Cursor) (k : Nat) : c.skip (min k c.remaining) = c.skip k := by
  simp only [skip, Nat.min_assoc, Nat.min_self]

theorem heard_min (c : Cursor) (k : Nat) : c.heard (min k c.remaining) = c.heard k := by
  rw [heard, ← length_left, ← List.take_eq_take_min]
  rfl

theorem bind_run {α β : Type} (m : CursorM α) (f : α → CursorM β) (c : Cursor) :
    (m >>= f) c = m c >>= fun r => f r.1 r.2 := rfl

theorem return_run {α β : Type} (m : CursorM α) (f : α → β) (c : Cursor) :
    (return f (← m) : CursorM β) c = ⟨(f (m c).value.1, (m c).value.2), (m c).log⟩ :=
  congrArg (Logged.mk _) (List.append_nil _)

theorem next_cases (c : Cursor) :
    (c.left = [] ∧ next c = ⟨(none, c), []⟩) ∨
      ∃ l, c.left = l :: (c.skip 1).left ∧ next c = ⟨(some (.ok l), c.skip 1), c.heard 1⟩ := by
  obtain ⟨bytes, offset⟩ := c
  match bytes with
  | [] => exact .inl ⟨rfl, rfl⟩
  | [_] => exact .inl ⟨rfl, rfl⟩
  | hi :: lo :: bytes =>
      have hs : skip ⟨hi :: lo :: bytes, offset⟩ 1 = ⟨bytes, offset + 2⟩ := by
        have h : min 1 ((bytes.length + 1 + 1) / 2) = 1 := by omega
        simp only [skip, remaining, List.length_cons, h]
        rfl
      refine .inr ⟨⟨offset, (Opcode.mk hi lo).instruction⟩, by rw [hs]; rfl, ?_⟩
      rw [hs, heard, left, Program.codes, locate, counted, List.take_succ_cons, List.take_zero,
        List.map_singleton, Opcode.remarks_instruction]
      simp only [next, decode_pair, Logged.bind_mk, Logged.value_pure, Logged.log_pure,
        List.append_nil]
      rfl

theorem skip_of_left_eq_nil {c : Cursor} (h : c.left = []) (k : Nat) : c.skip k = c := by
  have hr : c.remaining = 0 := by rw [← length_left, h, List.length_nil]
  simp [skip, hr]

theorem heard_of_left_eq_nil {c : Cursor} (h : c.left = []) (k : Nat) : c.heard k = [] := by
  simp [heard, h, Instruction.remarks]

theorem next_eq (c : Cursor) : next c = ⟨(c.left.head?.map .ok, c.skip 1), c.heard 1⟩ := by
  obtain ⟨hl, hn⟩ | ⟨l, hl, hn⟩ := next_cases c
  · rw [hn, skip_of_left_eq_nil hl, heard_of_left_eq_nil hl, hl]
    rfl
  · rw [hn, hl]
    rfl

theorem take_eq (n : Nat) (c : Cursor) :
    take n c = ⟨((c.left.take n).map .ok, c.skip n), c.heard n⟩ := by
  induction n generalizing c with
  | zero => rw [skip_zero]; rfl
  | succ n ih =>
      obtain ⟨hl, hn⟩ | ⟨l, hl, hn⟩ := next_cases c
      · rw [skip_of_left_eq_nil hl, heard_of_left_eq_nil hl, hl, take, hn]
        rfl
      · rw [take, hn, Logged.bind_mk, Nat.add_comm n 1, heard_add, ← skip_skip, hl,
          Nat.add_comm 1 n, List.take_succ_cons]
        simp only [ih, Logged.value_map, Logged.log_map, List.map_cons]

theorem rest_eq (c : Cursor) :
    rest c = ⟨(c.left.map .ok, c.skip c.remaining), c.heard c.remaining⟩ := by
  have h : rest c = take c.remaining c := rfl
  rw [h, take_eq, ← length_left, List.take_length]

theorem nth_eq (n : Nat) (c : Cursor) :
    nth n c = ⟨(c.left[n]?.map .ok, c.skip (n + 1)), c.heard (n + 1)⟩ := by
  have h : nth n c = take n c >>= fun r => next r.2 := rfl
  rw [h, take_eq, Logged.bind_mk, next_eq, skip_skip, heard_add, left_skip, List.head?_drop]

theorem find_eq (p : Item → Bool) (n : Nat) (c : Cursor) :
    find p n c =
      ⟨(((c.left.take n).find? (p ∘ .ok)).map .ok, c.skip (min (c.left.findIdx (p ∘ .ok) + 1) n)),
        c.heard (min (c.left.findIdx (p ∘ .ok) + 1) n)⟩ := by
  induction n generalizing c with
  | zero => rw [Nat.min_zero, skip_zero]; rfl
  | succ n ih =>
      obtain ⟨hl, hn⟩ | ⟨l, hl, hn⟩ := next_cases c
      · rw [find, bind_run, hn, skip_of_left_eq_nil hl, heard_of_left_eq_nil hl, hl]
        rfl
      · rw [find, bind_run, hn, Logged.bind_mk, hl, List.take_succ_cons, List.find?_cons,
          List.findIdx_cons]
        cases hp : p (.ok l) with
        | true =>
            have hm : min (0 + 1) (n + 1) = 1 := by omega
            have hq : (p ∘ Except.ok) l = true := hp
            simp only [hp, hq, cond_true, hm, if_true]
            exact congrArg (Logged.mk _) (List.append_nil _)
        | false =>
            have hm (i : Nat) : min (i + 1 + 1) (n + 1) = 1 + min (i + 1) n := by omega
            have hq : (p ∘ Except.ok) l = false := hp
            simp only [hp, hq, cond_false, hm, heard_add, ← skip_skip]
            simp only [Bool.false_eq_true, if_false, ih]

theorem findUnknown_eq (c : Cursor) :
    findUnknown c =
      ⟨((c.left.find? (·.instruction.isUnknown)).map .ok,
          c.skip (c.left.findIdx (·.instruction.isUnknown) + 1)),
        c.heard (c.left.findIdx (·.instruction.isUnknown) + 1)⟩ := by
  have h : findUnknown c = find Item.isUnknown c.remaining c := rfl
  rw [h, find_eq, skip_min, heard_min, ← length_left, List.take_length]
  rfl

theorem ahead_eq {α : Type} (m : CursorM α) (c : Cursor) :
    ahead m c = ⟨((m c).value.1, c), (m c).log⟩ := by
  have h : ahead m c = ⟨((m c).value.1, c), [] ++ ((m c).log ++ [])⟩ := rfl
  rw [h, List.nil_append, List.append_nil]

theorem count_eq (c : Cursor) : count c = ⟨(c.remaining, c), c.heard c.remaining⟩ := by
  rw [count, ahead_eq, return_run, rest_eq, List.length_map, length_left]

theorem last_eq (c : Cursor) : last c = ⟨(c.left.getLast?.map .ok, c), c.heard c.remaining⟩ := by
  rw [last, ahead_eq, return_run, rest_eq, List.getLast?_map]

end Cursor

end Chip8
