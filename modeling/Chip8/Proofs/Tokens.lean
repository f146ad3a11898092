import Chip8.Proofs.Digits
import Chip8.Proofs.Quoted

namespace Chip8.Json

/-- The values that a writer makes: numbers are plain, and a string or key is a text. -/
inductive Plain : Json → Prop
  | null : Plain null
  | bool (b : Bool) : Plain (bool b)
  | nat (n : Nat) : Plain (nat n)
  | str (s : String) : Plain (str s)
  | arr {elems : List Json} (h : ∀ v ∈ elems, Plain v) : Plain (arr elems)
  | obj {members : List (String × Json)} (h : ∀ m ∈ members, Plain m.2) : Plain (obj members)

mutual

def tokens : Json → List Token
  | arr elems => .beginArray :: [.comma].intercalate (tokensOfElems elems) ++ [.endArray]
  | obj members => .beginObject :: [.comma].intercalate (tokensOfMembers members) ++ [.endObject]
  | v => [.atom v]

def tokensOfElems : List Json → List (List Token)
  | [] => []
  | v :: elems => tokens v :: tokensOfElems elems

def tokensOfMembers : List (String × Json) → List (List Token)
  | [] => []
  | (k, v) :: members => (.atom (.str k) :: .colon :: tokens v) :: tokensOfMembers members

end

def memberTokens (m : String × Json) : List Token := .atom (.str m.1) :: .colon :: m.2.tokens

def memberChars (m : String × Json) : List Char := quote m.1 ++ ':' :: m.2.chars

theorem map_of_cons {α β : Type} (f : α → β) (F : List α → List β) (hnil : F [] = [])
    (hcons : ∀ a as, F (a :: as) = f a :: F as) (as : List α) : F as = as.map f := by
  induction as with
  | nil => exact hnil
  | cons a as ih => rw [hcons, ih, List.map_cons]

theorem tokens_arr (elems : List Json) : (arr elems).tokens =
    .beginArray :: [.comma].intercalate (elems.map tokens) ++ [.endArray] := by
  rw [← map_of_cons tokens tokensOfElems rfl fun _ _ => rfl]
  rfl

theorem tokens_obj (members : List (String × Json)) : (obj members).tokens =
    .beginObject :: [.comma].intercalate (members.map memberTokens) ++ [.endObject] := by
  rw [← map_of_cons memberTokens tokensOfMembers rfl fun _ _ => rfl]
  rfl

theorem chars_arr (elems : List Json) :
    (arr elems).chars = '[' :: [','].intercalate (elems.map chars) ++ [']'] := by
  rw [← map_of_cons chars charsOfElems rfl fun _ _ => rfl]
  rfl

theorem chars_obj (members : List (String × Json)) : (obj members).chars =
    '\x7b' :: [','].intercalate (members.map memberChars) ++ ['\x7d'] := by
  rw [← map_of_cons memberChars charsOfMembers rfl fun _ _ => rfl]
  rfl

namespace Numeral

theorem isDigit_of_mem_toDigits {n : Nat} {c : Char} (h : c ∈ Nat.toDigits 10 n) :
    c.isDigit = true := Nat.isDigit_of_mem_toDigits (by decide) (by decide) h

theorem isPlain_toDigits (n : Nat) : isPlain (Nat.toDigits 10 n) = true := by
  by_cases hn : n = 0
  · rw [hn]
    rfl
  · have hh := head?_toDigits (b := 10) (by decide) (by decide) (Nat.pos_of_ne_zero hn)
    have hd : ∀ c ∈ Nat.toDigits 10 n, c.isDigit = true := fun c => isDigit_of_mem_toDigits
    match hs : Nat.toDigits 10 n with
    | [] => exact absurd hs Nat.toDigits_ne_nil
    | c :: cs =>
        rw [hs] at hh hd
        have hc : c ≠ '0' := fun h => hh (by rw [h]; rfl)
        rw [isPlain.eq_3 c cs (fun h => absurd h hc), Bool.and_eq_true]
        exact ⟨bne_iff_ne.mpr hc, List.all_eq_true.mpr hd⟩

theorem ofChars?_toDigits (n : Nat) : ofChars? (Nat.toDigits 10 n) = some (.nat n) := by
  rw [ofChars?, if_pos (isPlain_toDigits n), Nat.ofDigitChars_toDigits (by decide) (by decide)]

end Numeral

theorem Token.ofWord?_toDigits (n : Nat) : ofWord? (Nat.toDigits 10 n) = some (.atom (.nat n)) := by
  have digits : (Nat.toDigits 10 n).all Char.isDigit = true :=
    List.all_eq_true.mpr fun c => Numeral.isDigit_of_mem_toDigits
  have hne {cs : List Char} (h : cs.all Char.isDigit = false) : Nat.toDigits 10 n ≠ cs := by
    rintro rfl
    exact Bool.false_ne_true (h.symm.trans digits)
  rw [ofWord?, if_neg (hne rfl), if_neg (hne rfl), if_neg (hne rfl),
    Numeral.ofChars?_toDigits, Option.map_some]

namespace Lexer

/-- The tokens of a text that is read on from here to its end. -/
def lex? (l : Lexer) (cs : List Char) : Option (List Token) := cs.foldlM step l >>= finish

/-- Read between tokens, the characters add these tokens, if what comes after ends a word. -/
def Yields (cs : List Char) (ts : List Token) : Prop :=
  ∀ before after, (∀ c ∈ after.head?, endsWord c = true) →
    lex? ⟨before, .between⟩ (cs ++ after) = lex? ⟨ts.reverse ++ before, .between⟩ after

theorem lex?_append {l m : Lexer} {cs : List Char} (h : cs.foldlM step l = some m)
    (after : List Char) : l.lex? (cs ++ after) = m.lex? after := by
  rw [lex?, List.foldlM_append, h]
  rfl

theorem step_mark {c : Char} {t : Token} (h : Token.ofMark? c = some t) (before : List Token) :
    step ⟨before, .between⟩ c = some ⟨t :: before, .between⟩ := by
  unfold Token.ofMark? at h
  split at h
  case h_7 => cases h
  all_goals cases h; rfl

theorem endsWord_of_isDigit {c : Char} (h : c.isDigit = true) : endsWord c = false := by
  have all : ∀ n < 58, 48 ≤ n → endsWord (Char.ofNat n) = false := by decide
  rw [Char.isDigit, Bool.and_eq_true, decide_eq_true_eq, decide_eq_true_eq] at h
  have hl : 48 ≤ c.toNat := UInt32.le_iff_toNat_le.mp h.1
  have hu : c.toNat ≤ 57 := UInt32.le_iff_toNat_le.mp h.2
  have hc := all c.toNat (by omega) hl
  rwa [Char.ofNat_toNat] at hc

theorem step_of_not_endsWord {c : Char} (h : endsWord c = false) (before : List Token) :
    step ⟨before, .between⟩ c = some ⟨before, .word [c]⟩ := by
  simp only [endsWord, Bool.or_eq_false_iff, decide_eq_false_iff_not, Option.isSome_eq_false_iff,
    Option.isNone_iff_eq_none] at h
  rw [step, begin, h.1.1, if_neg Bool.false_ne_true, if_neg h.1.2, h.2]

theorem foldlM_word {cs : List Char} (h : ∀ c ∈ cs, endsWord c = false) (before : List Token)
    (read : List Char) : cs.foldlM step ⟨before, .word read⟩ =
      some ⟨before, .word (cs.reverse ++ read)⟩ := by
  induction cs generalizing read with
  | nil => rfl
  | cons c cs ih =>
      obtain ⟨hc, hcs⟩ := List.forall_mem_cons.mp h
      have hs : step ⟨before, .word read⟩ c = some ⟨before, .word (c :: read)⟩ := by
        rw [step, if_neg (by rw [hc]; decide)]
      rw [List.foldlM_cons, hs, List.reverse_cons, List.append_assoc]
      exact ih hcs (c :: read)

theorem lex?_word {cs : List Char} {t : Token} (ht : Token.ofWord? cs = some t)
    (before : List Token) {after : List Char} (ha : ∀ c ∈ after.head?, endsWord c = true) :
    lex? ⟨before, .word cs.reverse⟩ after = lex? ⟨t :: before, .between⟩ after := by
  cases after with
  | nil =>
      have hf : finish ⟨before, .word cs.reverse⟩ = finish ⟨t :: before, .between⟩ := by
        rw [finish.eq_2, List.reverse_reverse, ht, Option.map_some, finish.eq_1]
      exact hf
  | cons a after =>
      have hs : step ⟨before, .word cs.reverse⟩ a = step ⟨t :: before, .between⟩ a := by
        rw [step.eq_2, if_pos (ha a rfl), List.reverse_reverse, ht, Option.map_some, step.eq_1]
      rw [lex?, lex?, List.foldlM_cons, List.foldlM_cons, hs]

namespace Yields

theorem nil : Yields [] [] := fun _ _ _ => rfl

theorem quote (s : String) : Yields (quote s) [.atom (.str s)] :=
  fun before after _ => lex?_append (foldlM_quote before s) after

theorem word {cs : List Char} {t : Token} (hne : cs ≠ []) (hcs : cs.any endsWord = false)
    (ht : Token.ofWord? cs = some t) : Yields cs [t] := by
  intro before after ha
  have inner : ∀ c ∈ cs, endsWord c = false :=
    fun c hc => Bool.eq_false_iff.mpr (List.any_eq_false.mp hcs c hc)
  obtain ⟨c, cs, rfl⟩ := List.exists_cons_of_ne_nil hne
  obtain ⟨hc, hcs⟩ := List.forall_mem_cons.mp inner
  have hw : (c :: cs).foldlM step ⟨before, .between⟩ = some ⟨before, .word (c :: cs).reverse⟩ := by
    rw [List.foldlM_cons, step_of_not_endsWord hc, List.reverse_cons]
    exact foldlM_word hcs before [c]
  rw [lex?_append hw, lex?_word ht before ha]
  rfl

theorem append_mark {cs ds : List Char} {ts us : List Token} {c : Char} {t : Token}
    (hc : Yields cs ts) (h : Token.ofMark? c = some t) (hd : Yields ds us) :
    Yields (cs ++ c :: ds) (ts ++ t :: us) := by
  have ends (ds : List Char) : ∀ d ∈ (c :: ds).head?, endsWord d = true := by
    intro d hd
    obtain rfl : c = d := Option.some.inj hd
    rw [endsWord, h, Option.isSome_some, Bool.or_true]
  intro before after ha
  have mark : [c].foldlM step ⟨ts.reverse ++ before, .between⟩ =
      some ⟨t :: (ts.reverse ++ before), .between⟩ := by
    rw [List.foldlM_cons, step_mark h]
    rfl
  rw [List.append_assoc, List.cons_append, hc before _ (ends _), ← List.singleton_append,
    lex?_append mark, hd _ after ha]
  simp only [List.reverse_append, List.reverse_cons, List.append_assoc, List.cons_append,
    List.nil_append]

theorem join {α : Type} {f : α → List Char} {g : α → List Token} {as : List α}
    (h : ∀ a ∈ as, Yields (f a) (g a)) :
    Yields ([','].intercalate (as.map f)) ([.comma].intercalate (as.map g)) := by
  induction as with
  | nil => exact nil
  | cons a as ih =>
      obtain ⟨ha, has⟩ := List.forall_mem_cons.mp h
      cases as with
      | nil => simpa using ha
      | cons b as =>
          simp only [List.map_cons, List.intercalate_cons_cons, List.append_assoc,
            List.singleton_append]
          exact ha.append_mark rfl (ih has)

theorem between {α : Type} {f : α → List Char} {g : α → List Token} {as : List α} {c d : Char}
    {t u : Token} (hc : Token.ofMark? c = some t) (h : ∀ a ∈ as, Yields (f a) (g a))
    (hd : Token.ofMark? d = some u) :
    Yields (c :: [','].intercalate (as.map f) ++ [d])
      (t :: [.comma].intercalate (as.map g) ++ [u]) :=
  (nil.append_mark hc (join h)).append_mark hd nil

end Yields

end Lexer

theorem Plain.yields {v : Json} (h : Plain v) : Lexer.Yields v.chars v.tokens := by
  induction h with
  | null => exact .word (List.cons_ne_nil _ _) rfl rfl
  | bool b => cases b <;> exact .word (List.cons_ne_nil _ _) rfl rfl
  | nat n =>
      refine .word Nat.toDigits_ne_nil (List.any_eq_false.mpr ?_) (Token.ofWord?_toDigits n)
      intro c hc
      exact Bool.eq_false_iff.mp (Lexer.endsWord_of_isDigit (Numeral.isDigit_of_mem_toDigits hc))
  | str s => exact Lexer.Yields.quote s
  | @arr elems h ih =>
      rw [chars_arr, tokens_arr]
      exact .between rfl ih rfl
  | @obj members h ih =>
      rw [chars_obj, tokens_obj]
      refine .between rfl ?_ rfl
      intro m hm
      exact (Lexer.Yields.quote m.1).append_mark rfl (ih m hm)

theorem Plain.tokens?_chars {v : Json} (h : Plain v) : tokens? v.chars = some v.tokens := by
  have hl : tokens? v.chars = Lexer.lex? ⟨[], .between⟩ v.chars := rfl
  have hf : Lexer.lex? ⟨v.tokens.reverse, .between⟩ [] = some v.tokens.reverse.reverse := rfl
  have hy := h.yields [] [] (fun c hc => by cases hc)
  rw [List.append_nil, List.append_nil, hf, List.reverse_reverse] at hy
  rw [hl, hy]

end Chip8.Json
