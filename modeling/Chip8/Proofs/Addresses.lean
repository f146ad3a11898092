import Chip8.Proofs.Digits
import Chip8.Proofs.Lines
import Mathlib.Data.List.Induction

namespace Chip8

namespace Layout

theorem getElem?_lines (l : Layout) (a : UInt16) (is : List Instruction) (k : Nat) :
    (l.lines a is)[k]? = is[k]?.map (l.line (a + UInt16.ofNat (2 * k))) :=
  getElem?_counted addressOf l.line a is k

/-- The counters agree up to the width of the narrower one, which divides that of the wider. -/
theorem toNat_address (origin : UInt16) (n : Nat) :
    (origin + UInt16.ofNat n).toNat = (origin.toNat + (UInt32.ofNat n).toNat) % 2 ^ 16 := by
  rw [UInt16.toNat_add, UInt16.toNat_ofNat', UInt32.toNat_ofNat']
  omega

theorem count_newline {lines : List (List Char)} (h : ∀ line ∈ lines, '\n' ∉ line) :
    (lines.flatMap (· ++ ['\n'])).count '\n' = lines.length := by
  induction lines with
  | nil => rfl
  | cons line lines ih =>
      rw [List.flatMap_cons, List.count_append, List.count_append,
        List.count_eq_zero_of_not_mem (h line List.mem_cons_self),
        ih fun m hm => h m (List.mem_cons_of_mem _ hm), List.length_cons, Nat.add_comm]
      rfl

theorem getLast?_flatMap (lines : List (List Char)) :
    lines.flatMap (· ++ ['\n']) = [] ∨ (lines.flatMap (· ++ ['\n'])).getLast? = some '\n' := by
  induction lines using List.reverseRecOn with
  | nil => exact .inl rfl
  | append_singleton lines line =>
      right
      rw [List.flatMap_append, List.flatMap_singleton, ← List.append_assoc, List.getLast?_concat]

/-- A listing is made of lines that a newline ends. Each shows the address that its origin and the
offset of an item make, the word of the item, which its two bytes make, and its text. -/
theorem lines_agree_with_items (l : Layout) (bytes : List UInt8) :
    ∃ (text : String) (lines : List String) (items : List Located),
      (Program.listing l bytes).run.value = .ok text ∧
      (Program.items bytes).value = items.map .ok ∧ items.length = bytes.length / 2 ∧
      text.toList.count '\n' = bytes.length / 2 ∧
      (text = "" ∨ text.toList.getLast? = some '\n') ∧
      text = String.join (lines.map (· ++ "\n")) ∧ (∀ line ∈ lines, '\n' ∉ line.toList) ∧
      lines.length = bytes.length / 2 ∧
      ∀ k (hk : k < items.length), ∃ hi lo address word,
        bytes[2 * k]? = some hi ∧ bytes[2 * k + 1]? = some lo ∧
        items[k].instruction.word.toNat = 256 * hi.toNat + lo.toNat ∧
        Hex.Padded Hex.upperDigits 4 ((l.origin.toNat + items[k].offset.toNat) % 2 ^ 16) address ∧
        Hex.Padded Hex.upperDigits 4 items[k].instruction.word.toNat word ∧
        lines[k]? = some ((if l.showAddress then address ++ "  " else "") ++
          (if l.showWord then word ++ "  " else "") ++ items[k].instruction.text) := by
  have hn : ∀ line ∈ l.lines l.origin (Program.instructions bytes), '\n' ∉ line.toList := by
    intro line hline
    exact l.newline_not_mem_lines _ _ _ (List.mem_map_of_mem hline)
  refine ⟨l.render (Program.instructions bytes), l.lines l.origin (Program.instructions bytes),
    Program.located bytes, ?_, ?_, Program.length_located bytes, ?_, ?_, rfl, hn, ?_, ?_⟩
  · rw [Program.listing_run]
  · rw [Program.items_eq]
  · rw [toList_render, count_newline (l.newline_not_mem_lines _ _), List.length_map, lines,
      length_counted, Program.length_instructions]
  · rw [← String.toList_eq_nil_iff, toList_render]
    exact getLast?_flatMap _
  · rw [lines, length_counted, Program.length_instructions]
  · intro k hk
    have h : 2 * k + 1 < bytes.length := by
      rw [Program.length_located] at hk
      omega
    have hi := Program.getElem?_located bytes k h
    rw [List.getElem?_eq_getElem hk, Option.some.injEq] at hi
    rw [hi]
    refine ⟨bytes[2 * k], bytes[2 * k + 1], Hex.upper 4 (l.origin + UInt16.ofNat (2 * k)).toNat,
      Hex.upper 4 (Program.codeAt bytes k h).word.toNat, List.getElem?_eq_getElem _,
      List.getElem?_eq_getElem h, ?_, ?_, ?_, ?_⟩
    · rw [Opcode.instruction_word, Opcode.toNat_word, Program.codeAt]
    · rw [← toNat_address]
      exact Hex.padded_upper (UInt16.toNat_lt _)
    · rw [Opcode.instruction_word]
      exact Hex.padded_upper (UInt16.toNat_lt _)
    · rw [getElem?_lines, Program.getElem?_instructions bytes k h, Option.map_some, line,
        Opcode.instruction_word]

end Layout

def Located.shift (n : Nat) (l : Located) : Located :=
  { l with offset := l.offset + UInt32.ofNat n }

theorem locate_shift (offset : UInt32) (n : Nat) (cs : List Opcode) :
    locate (offset + UInt32.ofNat n) cs = (locate offset cs).map (Located.shift n) := by
  induction cs generalizing offset with
  | nil => rfl
  | cons c cs ih =>
      have ho : offset + UInt32.ofNat n + 2 = offset + 2 + UInt32.ofNat n := by
        rw [UInt32.add_assoc, UInt32.add_comm _ 2, UInt32.add_assoc]
      rw [locate, counted, ho]
      exact congrArg _ (ih (offset + 2))

theorem Layout.render_append (l : Layout) (is js : List Instruction) :
    l.render (is ++ js) =
      l.render is ++ render { l with origin := l.origin + UInt16.ofNat (2 * is.length) } js := by
  let m : Layout := { l with origin := l.origin + UInt16.ofNat (2 * is.length) }
  have h : l.lines m.origin js = m.lines m.origin js :=
    lines_congr (l := l) (m := m) rfl rfl (fun _ => rfl) js
  have happ : l.lines l.origin (is ++ js) = l.lines l.origin is ++ l.lines m.origin js :=
    counted_append addressOf l.line l.origin is js
  rw [render, happ, h, List.map_append, String.join_append]
  rfl

namespace Program

variable {a : List UInt8}

theorem codes_append (ha : a.length % 2 = 0) (b : List UInt8) :
    codes (a ++ b) = codes a ++ codes b := by
  fun_induction codes a with
  | case1 hi lo a ih =>
      have hl : a.length % 2 = 0 := (Nat.add_mod_right a.length 2).symm.trans ha
      rw [List.cons_append, List.cons_append, codes, ih hl, List.cons_append]
  | case2 a h =>
      cases a with
      | nil => rfl
      | cons hi a =>
          cases a with
          | nil => cases ha
          | cons lo a => exact absurd rfl (h hi lo a)

theorem instructions_append (ha : a.length % 2 = 0) (b : List UInt8) :
    instructions (a ++ b) = instructions a ++ instructions b := by
  rw [instructions, codes_append ha, List.map_append]
  rfl

theorem two_mul_length_codes (ha : a.length % 2 = 0) : 2 * (codes a).length = a.length := by
  rw [length_codes]
  omega

theorem located_append (ha : a.length % 2 = 0) (b : List UInt8) :
    located (a ++ b) = located a ++ (located b).map (Located.shift a.length) := by
  have happ : locate 0 (codes a ++ codes b) =
      locate 0 (codes a) ++ locate (0 + UInt32.ofNat (2 * (codes a).length)) (codes b) :=
    counted_append offsetOf _ 0 (codes a) (codes b)
  rw [located, codes_append ha, happ, two_mul_length_codes ha, locate_shift]
  rfl

/-- The outputs for an image are those for its two parts, one after the other. -/
structure Joins (l : Layout) (whole left right : List UInt8) : Prop where
  disassemble : ∃ is js, (disassemble left).run.value = .ok is ∧
    (disassemble right).run.value = .ok js ∧ (disassemble whole).run.value = .ok (is ++ js)
  items : ∃ xs ys : List Located, (items left).value = xs.map .ok ∧
    (items right).value = ys.map .ok ∧
    (items whole).value = (xs ++ ys.map (Located.shift left.length)).map .ok
  listing : ∃ s t, (listing l left).run.value = .ok s ∧
    (listing { l with origin := l.origin + UInt16.ofNat left.length } right).run.value = .ok t ∧
    (listing l whole).run.value = .ok (s ++ t)

theorem joins_of_even (l : Layout) (ha : a.length % 2 = 0) (b : List UInt8) :
    Joins l (a ++ b) a b where
  disassemble := by
    refine ⟨instructions a, instructions b, ?_, ?_, ?_⟩
    · rw [disassemble_run]
    · rw [disassemble_run]
    · rw [disassemble_run, instructions_append ha]
  items := by
    refine ⟨located a, located b, ?_, ?_, ?_⟩
    · rw [items_eq]
    · rw [items_eq]
    · rw [items_eq, located_append ha]
  listing := by
    refine ⟨_, _, by rw [listing_run], by rw [listing_run], ?_⟩
    rw [listing_run, instructions_append ha, Layout.render_append, length_instructions,
      ← length_codes, two_mul_length_codes ha]

/-- An image is put together from its parts at every boundary between instructions. A part that ends
within an instruction gives its last byte to the next part. -/
theorem joins_at_boundary (l : Layout) (b : List UInt8) :
    (∀ a : List UInt8, a.length % 2 = 0 → Joins l (a ++ b) a b) ∧
      ∀ (a : List UInt8) (byte : UInt8), (a ++ [byte]).length % 2 = 1 →
        Joins l (a ++ [byte] ++ b) a (byte :: b) := by
  refine ⟨fun a ha => joins_of_even l ha b, ?_⟩
  intro a byte ha
  have he : a.length % 2 = 0 := by
    rw [List.length_append, List.length_singleton] at ha
    omega
  rw [List.append_assoc, List.singleton_append]
  exact joins_of_even l he (byte :: b)

end Program

end Chip8
