import Chip8.Program.Cursor
import Mathlib.Algebra.Group.Hom.Defs
import Mathlib.Data.List.Forall2
import Mathlib.Data.UInt

namespace Chip8

variable {α β : Type}

theorem append_cons_inj {a : α} {xs ys rs ss : List α} (hx : a ∉ xs) (hy : a ∉ ys)
    (h : xs ++ a :: rs = ys ++ a :: ss) : xs = ys ∧ rs = ss := by
  induction xs generalizing ys with
  | nil =>
      cases ys with
      | nil => exact ⟨rfl, (List.cons.inj h).2⟩
      | cons y ys => exact absurd (List.cons.inj h).1 (List.ne_of_not_mem_cons hy)
  | cons x xs ih =>
      cases ys with
      | nil => exact absurd (List.cons.inj h).1.symm (List.ne_of_not_mem_cons hx)
      | cons y ys =>
          obtain ⟨rfl, ht⟩ := List.cons.inj h
          obtain ⟨rfl, hr⟩ :=
            ih (List.not_mem_of_not_mem_cons hx) (List.not_mem_of_not_mem_cons hy) ht
          exact ⟨rfl, hr⟩

theorem intercalate_inj {a : α} {sep : List α} {xs ys : List (List α)}
    (hx : ∀ x ∈ xs, x ≠ [] ∧ a ∉ x) (hy : ∀ y ∈ ys, y ≠ [] ∧ a ∉ y)
    (h : (a :: sep).intercalate xs = (a :: sep).intercalate ys) : xs = ys := by
  induction xs generalizing ys with
  | nil =>
      match ys with
      | [] => rfl
      | [y] => exact absurd h.symm (by simpa using (hy y (by simp)).1)
      | y :: y' :: ys => simp at h
  | cons x xs ih =>
      have hx' := (hx x List.mem_cons_self).2
      match xs, ys with
      | [], [] => exact absurd h (by simpa using (hx x (by simp)).1)
      | _ :: _, [] => simp at h
      | [], [y] => simpa using h
      | [], y :: y' :: ys =>
          rw [List.intercalate_singleton, List.intercalate_cons_cons] at h
          exact absurd (by rw [h]; simp) hx'
      | x' :: xs, [y] =>
          rw [List.intercalate_singleton, List.intercalate_cons_cons] at h
          exact absurd (by rw [← h]; simp) (hy y List.mem_cons_self).2
      | x' :: xs, y :: y' :: ys =>
          have hy' := (hy y List.mem_cons_self).2
          rw [List.intercalate_cons_cons, List.intercalate_cons_cons, List.append_assoc,
            List.append_assoc] at h
          obtain ⟨rfl, ht⟩ := append_cons_inj hx' hy' h
          have hxs := ih (fun z hz => hx z (List.mem_cons_of_mem _ hz))
            (fun z hz => hy z (List.mem_cons_of_mem _ hz)) (List.append_cancel_left ht)
          rw [hxs]

theorem mem_intercalate {b : α} {sep : List α} {xs : List (List α)} (h : b ∈ sep.intercalate xs) :
    b ∈ sep ∨ ∃ x ∈ xs, b ∈ x := by
  induction xs with
  | nil => cases h
  | cons x xs ih =>
      match xs with
      | [] => exact .inr ⟨x, List.mem_cons_self, by simpa using h⟩
      | x' :: xs =>
          rw [List.intercalate_cons_cons, List.mem_append, List.mem_append] at h
          rcases h with (h | h) | h
          · exact .inr ⟨x, List.mem_cons_self, h⟩
          · exact .inl h
          · rcases ih h with h | ⟨y, hy, h⟩
            · exact .inl h
            · exact .inr ⟨y, List.mem_cons_of_mem x hy, h⟩

theorem filter_drop_findIdx (p : α → Bool) (as : List α) :
    (as.drop (as.findIdx p + 1)).filter p = (as.filter p).tail := by
  induction as with
  | nil => rfl
  | cons a as ih => cases h : p a <;> simp [h, List.findIdx_cons, ih]

theorem append_lt_append [LT α] {as bs : List α} (h : as < bs)
    (hl : as.length = bs.length) (cs ds : List α) : as ++ cs < bs ++ ds := by
  induction h with
  | nil => cases hl
  | rel h => exact .rel h
  | cons h ih => exact .cons (ih (Nat.succ.inj hl))

theorem map_eq_map_iff (f : α → β) (xs ys : List α) :
    xs.map f = ys.map f ↔ xs.length = ys.length ∧
      ∀ k (hx : k < xs.length) (hy : k < ys.length), f xs[k] = f ys[k] := by
  rw [List.ext_getElem_iff]
  simp only [List.length_map, List.getElem_map]

theorem mapM_eq_some_iff (f : α → Option β) (as : List α) (bs : List β) :
    as.mapM f = some bs ↔ List.Forall₂ (fun a b => f a = some b) as bs := by
  induction as generalizing bs with
  | nil => cases bs <;> simp
  | cons a as ih =>
      rw [List.mapM_cons]
      constructor
      · intro h
        obtain ⟨b, hb, h⟩ := Option.bind_eq_some_iff.mp h
        obtain ⟨bs', hbs, h⟩ := Option.bind_eq_some_iff.mp h
        obtain rfl : b :: bs' = bs := Option.some.inj h
        exact .cons hb ((ih bs').mp hbs)
      · intro h
        cases h with
        | cons hb hbs =>
            rw [hb, (ih _).mpr hbs]
            rfl

theorem isSome_mapM_iff (f : α → Option β) (as : List α) :
    (as.mapM f).isSome ↔ ∀ a ∈ as, (f a).isSome := by
  induction as with
  | nil => simp
  | cons a as ih =>
      rw [List.mapM_cons, List.forall_mem_cons, ← ih]
      cases f a <;> cases as.mapM f <;> simp

section

variable {ι γ : Type} [AddMonoid ι] (count : ℕ →+ ι) (f : ι → α → β) (step i : ι) (as : List α)

theorem length_counted : (counted f step i as).length = as.length := by
  induction as generalizing i with
  | nil => rfl
  | cons a as ih => rw [counted, List.length_cons, ih, List.length_cons]

theorem mem_counted {b : β} (h : b ∈ counted f step i as) : ∃ j, ∃ a ∈ as, b = f j a := by
  induction as generalizing i with
  | nil => cases h
  | cons a as ih =>
      rcases List.mem_cons.mp h with h | h
      · exact ⟨i, a, List.mem_cons_self, h⟩
      · obtain ⟨j, c, hc, hb⟩ := ih (i + step) h
        exact ⟨j, c, List.mem_cons_of_mem a hc, hb⟩

theorem map_counted {g : β → γ} {h : α → γ} (hf : ∀ j a, g (f j a) = h a) :
    (counted f step i as).map g = as.map h := by
  induction as generalizing i with
  | nil => rfl
  | cons a as ih => rw [counted, List.map_cons, ih, List.map_cons, hf]

theorem count_succ (k : ℕ) : i + count 2 + count (2 * k) = i + count (2 * (k + 1)) := by
  rw [add_assoc, ← map_add, Nat.mul_succ, Nat.add_comm]

theorem getElem?_counted (k : ℕ) :
    (counted f (count 2) i as)[k]? = as[k]?.map (f (i + count (2 * k))) := by
  induction as generalizing i k with
  | nil => rfl
  | cons a as ih =>
      cases k with
      | zero => simp [counted]
      | succ k => rw [counted, List.getElem?_cons_succ, ih, count_succ, List.getElem?_cons_succ]

theorem counted_append (bs : List α) : counted f (count 2) i (as ++ bs) =
    counted f (count 2) i as ++ counted f (count 2) (i + count (2 * as.length)) bs := by
  induction as generalizing i with
  | nil => simp [counted]
  | cons a as ih =>
      rw [List.cons_append, counted, counted, ih, count_succ, List.length_cons, List.cons_append]

end

/-- Numbers as addresses, which begin anew at the width. -/
def addressOf : ℕ →+ UInt16 := ⟨⟨UInt16.ofNat, rfl⟩, UInt16.ofNat_add⟩

def offsetOf : ℕ →+ UInt32 := ⟨⟨UInt32.ofNat, rfl⟩, UInt32.ofNat_add⟩

end Chip8
