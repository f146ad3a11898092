import Chip8.Proofs.Cursor

namespace Chip8

def Program.located (bytes : List UInt8) : List Located := locate 0 (codes bytes)

theorem Program.length_located (bytes : List UInt8) :
    (located bytes).length = bytes.length / 2 := by
  rw [located, locate, length_counted, length_codes]

theorem Program.getElem?_located (bytes : List UInt8) (k : Nat) (h : 2 * k + 1 < bytes.length) :
    (located bytes)[k]? =
      some ⟨UInt32.ofNat (2 * k), (codeAt bytes k h).instruction⟩ := by
  rw [located, getElem?_locate, getElem?_codes bytes k h, UInt32.zero_add, Option.map_some]

namespace Cursor

namespace Query

/-- Where a query leads that is asked at position `p` of all items. -/
def target (items : List Located) (p : Nat) : Query → Nat
  | next => min (p + 1) items.length
  | nth n => min (p + n + 1) items.length
  | take n => min (p + n) items.length
  | rest => items.length
  | findUnknown =>
      min (p + (items.drop p).findIdx (·.instruction.isUnknown) + 1) items.length
  | length | sizeHint | count | last => p

/-- How far a query decodes: those that look ahead decode all that is left. -/
def horizon (items : List Located) (p : Nat) : Query → Nat
  | count | last => items.length
  | q => q.target items p

def answer (items : List Located) (p : Nat) : Query → Reply
  | next => .item (items[p]?.map .ok)
  | nth n => .item (items[p + n]?.map .ok)
  | take n => .items (((items.drop p).take n).map .ok)
  | rest => .items ((items.drop p).map .ok)
  | findUnknown => .item (((items.drop p).find? (·.instruction.isUnknown)).map .ok)
  | length => .number (items.length - p)
  | sizeHint => .bounds (items.length - p) (items.length - p)
  | count => .number (items.length - p)
  | last => .item ((items.drop p).getLast?.map .ok)

def sent (items : List Located) (p : Nat) (q : Query) : Log :=
  Instruction.remarks (((items.drop p).take (q.horizon items p - p)).map Located.instruction)

def position (items : List Located) (qs : List Query) : Nat := qs.foldl (target items) 0

theorem target_le (items : List Located) {p : Nat} (hp : p ≤ items.length) (q : Query) :
    q.target items p ≤ items.length := by
  cases q with
  | next | nth n | take n | findUnknown => exact Nat.min_le_right _ _
  | rest => exact Nat.le_refl _
  | length | sizeHint | count | last => exact hp

end Query

def after (qs : List Query) (c : Cursor) : Cursor := ((qs.mapM ask).run c).value.2

theorem after_cons (q : Query) (qs : List Query) (c : Cursor) :
    after (q :: qs) c = after qs ((ask q).run c).value.2 := by
  rw [after, List.mapM_cons]
  rfl

theorem after_append (qs rs : List Query) (c : Cursor) :
    after (qs ++ rs) c = after rs (after qs c) := by
  induction qs generalizing c with
  | nil => rfl
  | cons q qs ih => rw [List.cons_append, after_cons, after_cons, ih]

theorem heard_skip (c : Cursor) (p k : Nat) :
    (c.skip p).heard k = Instruction.remarks
      (((c.left.drop p).take (min (p + k) c.left.length - p)).map Located.instruction) := by
  have hk : min (p + k) c.left.length - p = min k (c.left.drop p).length := by
    rw [List.length_drop]
    omega
  rw [heard, left_skip, hk, ← List.take_eq_take_min]

theorem reply_skip {α : Type} (c : Cursor) (p k : Nat) (m : CursorM α) (f : α → Reply) (a : α)
    (h : m (c.skip p) = ⟨(a, (c.skip p).skip k), (c.skip p).heard k⟩) :
    (return f (← m) : CursorM Reply) (c.skip p) =
      ⟨(f a, c.skip (min (p + k) c.left.length)), Instruction.remarks
        (((c.left.drop p).take (min (p + k) c.left.length - p)).map Located.instruction)⟩ := by
  rw [return_run, h, heard_skip, skip_skip, length_left, skip_min]

theorem reply_ahead {α : Type} (c : Cursor) {p : Nat} (hp : p ≤ c.left.length) (m : CursorM α)
    (f : α → Reply) (a : α)
    (h : m (c.skip p) = ⟨(a, c.skip p), (c.skip p).heard (c.skip p).remaining⟩) :
    (return f (← m) : CursorM Reply) (c.skip p) =
      ⟨(f a, c.skip p), Instruction.remarks
        (((c.left.drop p).take (c.left.length - p)).map Located.instruction)⟩ := by
  have hn : min (p + (c.skip p).remaining) c.left.length = c.left.length := by
    rw [remaining_skip, ← length_left]
    omega
  rw [return_run, h, heard_skip, hn]

theorem ask_skip (c : Cursor) {p : Nat} (hp : p ≤ c.left.length) (q : Query) :
    (ask q).run (c.skip p) =
      ⟨(q.answer c.left p, c.skip (q.target c.left p)), q.sent c.left p⟩ := by
  have hr : (c.skip p).remaining = c.left.length - p := by rw [remaining_skip, length_left]
  have hs : Instruction.remarks (((c.left.drop p).take (p - p)).map Located.instruction) = [] := by
    rw [Nat.sub_self, List.take_zero]
    rfl
  cases q with
  | next =>
      refine (reply_skip c p 1 next .item _ (next_eq _)).trans ?_
      rw [left_skip, List.head?_drop]
      rfl
  | nth n =>
      refine (reply_skip c p (n + 1) (nth n) .item _ (nth_eq n _)).trans ?_
      rw [left_skip, List.getElem?_drop]
      rfl
  | take n =>
      refine (reply_skip c p n (take n) .items _ (take_eq n _)).trans ?_
      rw [left_skip]
      rfl
  | rest =>
      refine (reply_skip c p _ rest .items _ (rest_eq _)).trans ?_
      rw [left_skip, hr, Nat.add_sub_cancel' hp, Nat.min_self]
      rfl
  | findUnknown =>
      refine (reply_skip c p _ findUnknown .item _ (findUnknown_eq _)).trans ?_
      rw [left_skip]
      rfl
  | length =>
      rw [Query.sent, Query.answer, ← hr]
      exact congrArg (Logged.mk _) hs.symm
  | sizeHint =>
      rw [Query.sent, Query.answer, ← hr]
      exact congrArg (Logged.mk _) hs.symm
  | count =>
      refine (reply_ahead c hp count .number _ (count_eq _)).trans ?_
      rw [hr]
      rfl
  | last =>
      refine (reply_ahead c hp last .item _ (last_eq _)).trans ?_
      rw [left_skip]
      rfl

theorem after_skip (qs : List Query) (c : Cursor) {p : Nat} (hp : p ≤ c.left.length) :
    qs.foldl (Query.target c.left) p ≤ c.left.length ∧
      after qs (c.skip p) = c.skip (qs.foldl (Query.target c.left) p) := by
  induction qs generalizing p with
  | nil => exact ⟨hp, rfl⟩
  | cons q qs ih =>
      rw [after_cons, ask_skip c hp q]
      exact ih (q.target_le c.left hp)

theorem skip_start (bytes : List UInt8) {p : Nat} (hp : p ≤ bytes.length / 2) :
    skip (start bytes).value p = ⟨bytes.drop (2 * p), UInt32.ofNat (2 * p)⟩ := by
  have hc : (start bytes).value = ⟨bytes, 0⟩ := rfl
  simp only [hc, skip, remaining, Nat.min_eq_left hp, UInt32.zero_add]

/-- After any queries a cursor stands at a position of the decoded image, which alone decides what
the next query gets, what it sends and where it leads. -/
theorem queries_refine_position (bytes : List UInt8) (qs : List Query) (q : Query) :
    let items := Program.located bytes
    let p := Query.position items qs
    let c := (start bytes).value
    items.length = bytes.length / 2 ∧
      (∀ k (h : 2 * k + 1 < bytes.length), ∃ i,
        (decode (Program.codeAt bytes k h).bytes).run.value = .ok i ∧
          items[k]? = some ⟨UInt32.ofNat (2 * k), i⟩) ∧
      p ≤ items.length ∧
      after qs c = ⟨bytes.drop (2 * p), UInt32.ofNat (2 * p)⟩ ∧
      Query.position items (qs ++ [q]) = q.target items p ∧
      (ask q).run (after qs c) = ⟨(q.answer items p, after (qs ++ [q]) c), q.sent items p⟩ := by
  intro items p c
  have hc : c.skip 0 = c := c.skip_zero
  obtain ⟨hp, ha⟩ := after_skip qs c (Nat.zero_le c.left.length)
  rw [hc] at ha
  have hstep : (ask q).run (after qs c) =
      ⟨(q.answer items p, c.skip (q.target items p)), q.sent items p⟩ := by
    rw [ha]
    exact ask_skip c hp q
  have hn : items.length = bytes.length / 2 := Program.length_located bytes
  refine ⟨hn, ?_, hp, ?_, List.foldl_append, ?_⟩
  · intro k h
    refine ⟨_, ?_, Program.getElem?_located bytes k h⟩
    exact (decode_eq_ok_iff _ _).mpr ⟨_, rfl, rfl⟩
  · rw [ha]
    exact skip_start bytes (hn ▸ hp)
  · rw [hstep, after_append, after_cons, hstep]
    rfl

end Cursor

end Chip8
