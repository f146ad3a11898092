import Chip8.Program.Listing
import Chip8.Proofs.Disassembly
import Chip8.Proofs.Text

namespace Chip8.Layout

theorem cut_append {line : List Char} (h : '\n' ∉ line) (cs : List Char) :
    cut (line ++ '\n' :: cs) = line :: cut cs := by
  induction line with
  | nil => rfl
  | cons c line ih =>
      have hc : c ≠ '\n' := Ne.symm (List.ne_of_not_mem_cons h)
      rw [List.cons_append, cut.eq_3 c _ hc, ih (List.not_mem_of_not_mem_cons h)]

theorem cut_flatMap {lines : List (List Char)} (h : ∀ line ∈ lines, '\n' ∉ line) :
    cut (lines.flatMap (· ++ ['\n'])) = lines := by
  induction lines with
  | nil => rfl
  | cons line lines ih =>
      rw [List.flatMap_cons, List.append_assoc, List.singleton_append,
        cut_append (h line List.mem_cons_self), ih fun m hm => h m (List.mem_cons_of_mem _ hm)]

/-- The columns of a line before the text, as characters. -/
def column (shown : Bool) (w : UInt16) : List Char :=
  if shown then (Hex.upper 4 w.toNat).toList ++ [' ', ' '] else []

theorem toList_line (l : Layout) (a : UInt16) (i : Instruction) :
    (l.line a i).toList =
      column l.showAddress a ++ (column l.showWord i.word ++ i.text.toList) := by
  unfold line column
  cases l.showAddress <;> cases l.showWord <;> simp

theorem newline_not_mem_column (shown : Bool) (w : UInt16) : '\n' ∉ column shown w := by
  cases shown with
  | false => exact List.not_mem_nil
  | true =>
      intro h
      rcases List.mem_append.mp h with h | h
      · exact Hex.not_mem_marks_of_mem_upper _ _ _ h (by decide)
      · revert h
        decide

theorem newline_not_mem_line (l : Layout) (a : UInt16) (i : Instruction) :
    '\n' ∉ (l.line a i).toList := by
  rw [toList_line, List.mem_append, List.mem_append]
  rintro (h | h | h)
  · exact newline_not_mem_column _ _ h
  · exact newline_not_mem_column _ _ h
  · exact i.newline_not_mem_text h

theorem newline_not_mem_lines (l : Layout) (a : UInt16) (is : List Instruction) :
    ∀ line ∈ (l.lines a is).map String.toList, '\n' ∉ line := by
  intro line h
  obtain ⟨s, hs, rfl⟩ := List.mem_map.mp h
  obtain ⟨b, i, -, rfl⟩ := mem_counted _ _ _ _ hs
  exact l.newline_not_mem_line b i

theorem toList_render (l : Layout) (is : List Instruction) : (l.render is).toList =
    ((l.lines l.origin is).map String.toList).flatMap (· ++ ['\n']) := by
  rw [render, String.toList_join, List.flatMap_map, List.flatMap_map]
  congr 1
  funext s
  exact String.toList_append

theorem cut_render (l : Layout) (is : List Instruction) :
    cut (l.render is).toList = (l.lines l.origin is).map String.toList := by
  rw [toList_render, cut_flatMap (l.newline_not_mem_lines l.origin is)]

theorem length_cut_render (l : Layout) (is : List Instruction) :
    (cut (l.render is).toList).length = is.length := by
  rw [cut_render, List.length_map, lines, length_counted]

theorem lines_eq_of_render_eq {l m : Layout} {is js : List Instruction}
    (h : l.render is = m.render js) : l.lines l.origin is = m.lines m.origin js := by
  have inj : Function.Injective String.toList := fun _ _ => String.toList_inj.mp
  apply List.map_injective_iff.mpr inj
  rw [← cut_render, ← cut_render, h]

theorem value?_column (w : UInt16) (cs : List Char) :
    Hex.value? ((column true w ++ cs).take 4) = some w.toNat := by
  have hl : (Hex.upper 4 w.toNat).toList.length = 4 := Hex.length_upper 4 w.toNat
  have hw : w.toNat < 16 ^ 4 := w.toNat_lt
  rw [column, if_pos rfl, List.append_assoc, List.take_left' hl, Hex.value?_upper,
    Nat.mod_eq_of_lt hw]

theorem drop_column (w : UInt16) (cs : List Char) : (column true w ++ cs).drop 6 = cs := by
  have hl : (column true w).length = 6 := by
    rw [column, if_pos rfl, List.length_append, Hex.length_upper]
    rfl
  rw [List.drop_left' hl]

theorem readWord?_line {l : Layout} (hl : l.showWord = true) (a : UInt16) (i : Instruction) :
    l.readWord? (l.line a i).toList = some i.word := by
  have hd : (l.line a i).toList.drop l.addressWidth = column true i.word ++ i.text.toList := by
    rw [toList_line, hl, addressWidth]
    cases l.showAddress with
    | false =>
        change ([] ++ (column true i.word ++ i.text.toList)).drop 0 = _
        rw [List.drop_zero, List.nil_append]
    | true => exact drop_column a _
  rw [readWord?, hd, value?_column, Option.map_some, UInt16.ofNat_toNat]

/-- A line with both columns is no line with the word column alone: behind its first column stands
a number, and there a text would stand. -/
theorem line_ne_of_showAddress {l m : Layout} (hl : l.showWord = true) (hm : m.showWord = true)
    (hla : l.showAddress = true) (hma : m.showAddress = false) (a b : UInt16) (i j : Instruction) :
    l.line a i ≠ m.line b j := by
  intro h
  have ht := congrArg (fun s => s.toList.drop 6) h
  simp only [toList_line, hl, hm, hla, hma, drop_column] at ht
  have hv := value?_column i.word i.text.toList
  have hn := j.value?_text []
  rw [List.append_nil] at hn
  rw [ht, column, if_neg Bool.false_ne_true, List.nil_append, drop_column, hn] at hv
  cases hv

theorem line_inj {l m : Layout} (hl : l.showWord = true) (hm : m.showWord = true) {a b : UInt16}
    {i j : Instruction} (h : l.line a i = m.line b j) :
    l.showAddress = m.showAddress ∧ (l.showAddress = true → a = b) ∧ i.word = j.word := by
  have hs : l.showAddress = m.showAddress := by
    cases hla : l.showAddress <;> cases hma : m.showAddress
    · rfl
    · exact absurd h.symm (line_ne_of_showAddress hm hl hma hla b a j i)
    · exact absurd h (line_ne_of_showAddress hl hm hla hma a b i j)
    · rfl
  refine ⟨hs, ?_, ?_⟩
  · intro hla
    have ha := congrArg (fun s => Hex.value? (s.toList.take 4)) h
    simp only [toList_line, ← hs, hla, value?_column, Option.some.injEq] at ha
    exact UInt16.toNat_inj.mp ha
  · have hr : l.readWord? = m.readWord? := by
      funext line
      rw [readWord?, readWord?, addressWidth, addressWidth, hs]
    have hw := readWord?_line hl a i
    rw [h, hr, readWord?_line hm] at hw
    exact (Option.some.inj hw).symm

theorem lines_inj {l m : Layout} (hl : l.showWord = true) (hm : m.showWord = true)
    {is js : List Instruction} (hi : ∀ i ∈ is, i.Decoded) (hj : ∀ j ∈ js, j.Decoded)
    {a b : UInt16} (h : l.lines a is = m.lines b js) :
    is = js ∧ (is ≠ [] → l.showAddress = m.showAddress ∧ (l.showAddress = true → a = b)) := by
  induction is generalizing js a b with
  | nil =>
      cases js with
      | nil => exact ⟨rfl, fun hn => absurd rfl hn⟩
      | cons j js => cases h
  | cons i is ih =>
      cases js with
      | nil => cases h
      | cons j js =>
          obtain ⟨hij, hrest⟩ := List.cons.inj h
          obtain ⟨hs, ha, hw⟩ := line_inj hl hm hij
          obtain ⟨rfl, -⟩ := ih (fun i hi' => hi i (List.mem_cons_of_mem _ hi'))
            (fun j hj' => hj j (List.mem_cons_of_mem _ hj')) hrest
          have he : i = j := Instruction.Decoded.eq_of_word_eq (hi i List.mem_cons_self)
            (hj j List.mem_cons_self) hw
          exact ⟨by rw [he], fun _ => ⟨hs, ha⟩⟩

theorem lines_congr {l m : Layout} (hw : l.showWord = m.showWord)
    (hs : l.showAddress = m.showAddress) {a b : UInt16} (h : l.showAddress = true → a = b)
    (is : List Instruction) : l.lines a is = m.lines b is := by
  induction is generalizing a b with
  | nil => rfl
  | cons i is ih =>
      have hline : l.line a i = m.line b i := by
        unfold line
        rw [hw, ← hs]
        cases hla : l.showAddress with
        | false => rw [if_neg Bool.false_ne_true, if_neg Bool.false_ne_true]
        | true => rw [h hla]
      rw [lines_cons, lines_cons, hline, ih fun hla => congrArg (· + 2) (h hla)]

theorem mapM_readWord? {l : Layout} (hl : l.showWord = true) (a : UInt16) (is : List Instruction) :
    ((l.lines a is).map String.toList).mapM l.readWord? = some (is.map Instruction.word) := by
  induction is generalizing a with
  | nil => rfl
  | cons i is ih =>
      rw [lines_cons, List.map_cons, List.mapM_cons, readWord?_line hl, ih]
      rfl

theorem readWords?_render {l : Layout} (hl : l.showWord = true) (is : List Instruction) :
    l.readWords? (l.render is) = some (is.map Instruction.word) := by
  rw [readWords?, cut_render, mapM_readWord? hl]

end Chip8.Layout
