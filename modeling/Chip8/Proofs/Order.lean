import Chip8.Proofs.Addresses
import Mathlib.Data.List.Nodup

namespace Chip8

def utf8 (cs : List Char) : List UInt8 := (String.ofList cs).toUTF8.data.toList

theorem utf8_eq_flatMap (cs : List Char) : utf8 cs = cs.flatMap String.utf8EncodeChar := by
  simp [utf8, List.utf8Encode]

theorem utf8_append (cs ds : List Char) : utf8 (cs ++ ds) = utf8 cs ++ utf8 ds := by
  simp [utf8_eq_flatMap]

namespace Hex

theorem map_digits_lt {f : Char → UInt8}
    (hf : ∀ d e, d < e → e < 16 → f (Nat.digitChar d) < f (Nat.digitChar e)) {w m n : Nat}
    (h : m < n) (hn : n < 16 ^ w) : (digits w m).map f < (digits w n).map f := by
  induction w generalizing m n with
  | zero => omega
  | succ w ih =>
      rw [digits, digits, List.map_append, List.map_append]
      by_cases hd : m / 16 = n / 16
      · rw [hd]
        apply List.append_left_lt
        exact .rel (hf _ _ (by omega) (Nat.mod_lt n (by decide)))
      · apply append_lt_append
        · exact ih (by omega) (by omega)
        · rw [List.length_map, List.length_map, length_digits, length_digits]

theorem utf8_upper (w n : Nat) :
    utf8 (upper w n).toList = (digits w n).map fun c => c.toUpper.val.toUInt8 := by
  have single : ∀ d < 16, (Nat.digitChar d).toUpper.utf8Size = 1 := by decide
  rw [utf8_eq_flatMap, toList_upper, List.flatMap_map, List.map_eq_flatMap]
  apply List.flatMap_congr
  intro c hc
  obtain ⟨d, hd, rfl⟩ := mem_digits hc
  exact String.utf8EncodeChar_eq_singleton (single d hd)

theorem length_utf8_upper (w n : Nat) : (utf8 (upper w n).toList).length = w := by
  rw [utf8_upper, List.length_map, length_digits]

theorem utf8_upper_lt {w m n : Nat} (h : m < n) (hn : n < 16 ^ w) :
    utf8 (upper w m).toList < utf8 (upper w n).toList := by
  have step : ∀ e < 16, ∀ d < e, (Nat.digitChar d).toUpper.val.toUInt8 <
      (Nat.digitChar e).toUpper.val.toUInt8 := by decide
  rw [utf8_upper, utf8_upper]
  exact map_digits_lt (fun d e hde he => step e he d hde) h hn

end Hex

namespace Layout

variable {l : Layout}

theorem exists_line_eq (hl : l.showAddress = true) (a : UInt16) (i : Instruction) :
    ∃ rest, (l.line a i).toList = (Hex.upper 4 a.toNat).toList ++ rest := by
  rw [toList_line, hl, column, if_pos rfl, List.append_assoc]
  exact ⟨_, rfl⟩

theorem line_lt_line (hl : l.showAddress = true) {a b : UInt16} (h : a < b) (i j : Instruction) :
    utf8 (l.line a i).toList < utf8 (l.line b j).toList := by
  obtain ⟨is, hi⟩ := exists_line_eq hl a i
  obtain ⟨js, hj⟩ := exists_line_eq hl b j
  rw [hi, hj, utf8_append, utf8_append]
  apply append_lt_append
  · exact Hex.utf8_upper_lt (UInt16.lt_iff_toNat_lt.mp h) b.toNat_lt
  · rw [Hex.length_utf8_upper, Hex.length_utf8_upper]

theorem line_lt_line_iff (hl : l.showAddress = true) {a b : UInt16} (hab : a ≠ b)
    (i j : Instruction) : utf8 (l.line a i).toList < utf8 (l.line b j).toList ↔ a < b := by
  constructor
  · intro h
    rcases UInt16.lt_or_lt_of_ne hab with hlt | hgt
    · exact hlt
    · exact absurd (line_lt_line hl hgt j i) (List.lt_asymm h)
  · exact fun h => line_lt_line hl h i j

theorem isChain_lines_iff (hl : l.showAddress = true) (a : UInt16) (is : List Instruction) :
    ((l.lines a is).map fun s => utf8 s.toList).IsChain (· < ·) ↔
      a.toNat + 2 * (is.length - 1) ≤ 0xFFFF := by
  induction is generalizing a with
  | nil => exact ⟨fun _ => Nat.le_of_lt_succ a.toNat_lt, fun _ => .nil⟩
  | cons i is ih =>
      cases is with
      | nil => exact ⟨fun _ => Nat.le_of_lt_succ a.toNat_lt, fun _ => .singleton _⟩
      | cons j is =>
          have ha := a.toNat_lt
          have hne : a ≠ a + 2 := by simp
          have hnext := ih (a + 2)
          rw [lines_cons, List.map_cons] at hnext
          -- neighbours ascend unless the address of the second has begun anew
          rw [lines_cons, lines_cons, List.map_cons, List.map_cons, List.isChain_cons_cons, hnext,
            line_lt_line_iff hl hne, UInt16.lt_iff_toNat_lt, UInt16.toNat_add]
          simp only [List.length_cons, UInt16.reduceToNat]
          omega

theorem take_line (hl : l.showAddress = true) (a : UInt16) (i : Instruction) :
    (l.line a i).toList.take 4 = (Hex.upper 4 a.toNat).toList := by
  obtain ⟨rest, hr⟩ := exists_line_eq hl a i
  rw [hr, List.take_left' (Hex.length_upper 4 a.toNat)]

theorem map_take_lines (hl : l.showAddress = true) (a : UInt16) (is : List Instruction) :
    (l.lines a is).map (fun s => s.toList.take 4) =
      (List.range is.length).map fun k => (Hex.upper 4 ((a.toNat + 2 * k) % 2 ^ 16)).toList := by
  induction is generalizing a with
  | nil => rfl
  | cons i is ih =>
      have hfirst : (a.toNat + 2 * 0) % 2 ^ 16 = a.toNat := Nat.mod_eq_of_lt a.toNat_lt
      have hnext (k : Nat) :
          ((a + 2).toNat + 2 * k) % 2 ^ 16 = (a.toNat + 2 * (k + 1)) % 2 ^ 16 := by
        rw [UInt16.toNat_add, Nat.mod_add_mod, Nat.add_assoc, Nat.mul_succ, Nat.add_comm (2 * k)]
        rfl
      rw [lines_cons, List.map_cons, take_line hl, ih, List.length_cons, List.range_succ_eq_map,
        List.map_cons, List.map_map, hfirst]
      simp only [hnext, Function.comp_def, Nat.succ_eq_add_one]

theorem nodup_columns_iff (hl : l.showAddress = true) (a : UInt16) (is : List Instruction) :
    ((l.lines a is).map fun s => s.toList.take 4).Nodup ↔ is.length ≤ 32768 := by
  have hcolumn (j k : Nat) : (Hex.upper 4 ((a.toNat + 2 * j) % 2 ^ 16)).toList =
      (Hex.upper 4 ((a.toNat + 2 * k) % 2 ^ 16)).toList ↔
        (a.toNat + 2 * j) % 2 ^ 16 = (a.toNat + 2 * k) % 2 ^ 16 := by
    rw [String.toList_inj]
    exact Hex.upper_inj (Nat.mod_lt _ (by decide)) (Nat.mod_lt _ (by decide))
  rw [map_take_lines hl, List.nodup_map_iff_inj_on List.nodup_range]
  simp only [List.mem_range, hcolumn]
  constructor
  · intro h
    -- after 32768 steps of two the address is the first one again
    by_contra hn
    have hwrap := h 0 (by omega) 32768 (by omega) (by omega)
    cases hwrap
  · intro hn j hj k hk he
    omega

theorem parity_column (hl : l.showAddress = true) (a : UInt16) (is : List Instruction) :
    ∀ column ∈ (l.lines a is).map (fun s => s.toList.take 4), ∃ address,
      Hex.value? column = some address ∧ address % 2 = a.toNat % 2 := by
  intro column hc
  rw [map_take_lines hl] at hc
  obtain ⟨k, -, rfl⟩ := List.mem_map.mp hc
  refine ⟨(a.toNat + 2 * k) % 2 ^ 16, ?_, by omega⟩
  rw [Hex.value?_upper]
  exact congrArg some (Nat.mod_mod _ _)

/-- The lines of a listing with addresses ascend as byte strings just if no address begins anew. The
addresses differ from each other just if they do not come to the first one again, and are all odd or
all even. -/
theorem sorted_until_wrap (origin : UInt16) (showWord : Bool) (bytes : List UInt8) :
    ∃ text, (Program.listing ⟨origin, true, showWord⟩ bytes).run.value = .ok text ∧
      (cut text.toList).length = bytes.length / 2 ∧
      (((cut text.toList).map utf8).Pairwise (· < ·) ↔
        origin.toNat + 2 * (bytes.length / 2 - 1) ≤ 0xFFFF) ∧
      (((cut text.toList).map (List.take 4)).Nodup ↔ bytes.length / 2 ≤ 32768) ∧
      ∀ column ∈ (cut text.toList).map (List.take 4), ∃ address,
        Hex.value? column = some address ∧ address % 2 = origin.toNat % 2 := by
  let l : Layout := ⟨origin, true, showWord⟩
  let is := Program.instructions bytes
  have hn : is.length = bytes.length / 2 := Program.length_instructions bytes
  have hcut : cut (l.render is).toList = (l.lines origin is).map String.toList := l.cut_render is
  refine ⟨l.render is, by rw [Program.listing_run], (l.length_cut_render is).trans hn, ?_⟩
  rw [hcut, List.map_map, List.map_map, ← hn]
  refine ⟨?_, nodup_columns_iff rfl origin is, parity_column rfl origin is⟩
  rw [← isChain_lines_iff (l := l) rfl origin is]
  exact List.isChain_iff_pairwise.symm

end Layout

end Chip8
