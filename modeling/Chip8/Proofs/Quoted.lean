import Chip8.Json.Text
import Chip8.Json.Token
import Chip8.Proofs.Digits

namespace Chip8.Json

namespace Quoted

theorem ofLetter?_of_letter? {c e : Char} (h : letter? c = some e) :
    ofLetter? e = some c ∧ e ≠ 'u' := by
  unfold letter? at h
  split at h
  case h_8 => cases h
  all_goals cases h; exact ⟨rfl, by decide⟩

theorem ne_of_letter?_eq_none {c : Char} (h : letter? c = none) : c ≠ '"' ∧ c ≠ '\\' := by
  constructor
  · rintro rfl
    cases h
  · rintro rfl
    cases h

theorem encodeChar_cases (c : Char) :
    (∃ e, encodeChar c = ['\\', e] ∧ ofLetter? e = some c ∧ e ≠ 'u') ∨
      (c.toNat < 0x20 ∧ encodeChar c = '\\' :: 'u' :: Hex.digits 4 c.toNat) ∨
      (¬ c.toNat < 0x20 ∧ c ≠ '"' ∧ c ≠ '\\' ∧ encodeChar c = [c]) := by
  unfold encodeChar
  split
  next e he => exact .inl ⟨e, rfl, ofLetter?_of_letter? he⟩
  next he =>
    obtain ⟨hq, hb⟩ := ne_of_letter?_eq_none he
    by_cases hc : c.toNat < 0x20
    · exact .inr (.inl ⟨hc, if_pos hc⟩)
    · exact .inr (.inr ⟨hc, hq, hb, if_neg hc⟩)

theorem pieces?_letter {c e : Char} (he : ofLetter? e = some c) (hu : e ≠ 'u') (cs : List Char) :
    pieces? ('\\' :: e :: cs) = (pieces? cs).map (.char c :: ·) := by
  rw [pieces?.eq_3 e cs (fun _ _ _ _ _ h => absurd h hu), he]
  cases pieces? cs <;> rfl

theorem pieces?_number {n : Nat} (hn : n < 16 ^ 4) (cs : List Char) :
    pieces? ('\\' :: 'u' :: Hex.digits 4 n ++ cs) = (pieces? cs).map (.unit n :: ·) := by
  match hd : Hex.digits 4 n, Hex.length_digits 4 n with
  | [a, b, c, d], _ =>
      have hv := Hex.value?_digits 4 n
      rw [hd, Nat.mod_eq_of_lt hn] at hv
      change pieces? ('\\' :: 'u' :: a :: b :: c :: d :: cs) = _
      rw [pieces?.eq_2, hv]
      cases pieces? cs <;> rfl

theorem pieces?_plain {c : Char} (hc : ¬ c.toNat < 0x20) (hq : c ≠ '"') (hb : c ≠ '\\')
    (cs : List Char) : pieces? (c :: cs) = (pieces? cs).map (.char c :: ·) := by
  have hn : ¬ (c.toNat < 0x20 ∨ c = '\\' ∨ c = '"') := by simp [hc, hq, hb]
  rw [pieces?.eq_4 c cs (fun _ _ _ _ _ h => absurd h hb) (fun _ _ h => absurd h hb), if_neg hn]
  cases pieces? cs <;> rfl

theorem join?_unit {n : Nat} (hn : n < 0xD800) (ps : List Piece) :
    join? (.unit n :: ps) = (join? ps).map (Char.ofNat n :: ·) := by
  have hl : isLead n = false := by simp only [isLead, decide_eq_false_iff_not]; omega
  have ht : isTrail n = false := by simp only [isTrail, decide_eq_false_iff_not]; omega
  match ps with
  | [] | .char _ :: _ => rw [join?.eq_4 n _ (fun _ _ h => by cases h), hl, ht]; rfl
  | .unit m :: ps => rw [join?, hl, ht]; rfl

theorem exists_piece (c : Char) : ∃ p, (∀ cs, pieces? (encodeChar c ++ cs) =
    (pieces? cs).map (p :: ·)) ∧ ∀ ps, join? (p :: ps) = (join? ps).map (c :: ·) := by
  rcases encodeChar_cases c with ⟨e, h, he, hu⟩ | ⟨hc, h⟩ | ⟨hc, hq, hb, h⟩
  · exact ⟨.char c, fun cs => h ▸ pieces?_letter he hu cs, fun ps => rfl⟩
  · refine ⟨.unit c.toNat, fun cs => h ▸ pieces?_number (by omega) cs, fun ps => ?_⟩
    rw [join?_unit (by omega), Char.ofNat_toNat]
  · exact ⟨.char c, fun cs => h ▸ pieces?_plain hc hq hb cs, fun ps => rfl⟩

theorem pieces?_encode (cs : List Char) :
    ∃ ps, pieces? (encode cs) = some ps ∧ join? ps = some cs := by
  induction cs with
  | nil => exact ⟨[], rfl, rfl⟩
  | cons c cs ih =>
      obtain ⟨ps, hps, hcs⟩ := ih
      obtain ⟨p, hp, hj⟩ := exists_piece c
      have he : encode (c :: cs) = encodeChar c ++ encode cs := List.flatMap_cons
      exact ⟨p :: ps, by rw [he, hp, hps]; rfl, by rw [hj, hcs]; rfl⟩

end Quoted

theorem Token.ofQuoted?_encode (s : String) :
    ofQuoted? (Quoted.encode s.toList) = some (.atom (.str s)) := by
  obtain ⟨ps, hps, hcs⟩ := Quoted.pieces?_encode s.toList
  simp only [ofQuoted?, hps, hcs, String.ofList_toList, Option.bind_eq_bind, Option.bind_some]
  rfl

namespace Lexer

theorem foldlM_encodeChar (ts : List Token) (before : List Char) (c : Char) :
    (Quoted.encodeChar c).foldlM step ⟨ts, .quoted before⟩ =
      some ⟨ts, .quoted ((Quoted.encodeChar c).reverse ++ before)⟩ := by
  have plain {c : Char} (hq : c ≠ '"') (hb : c ≠ '\\') (before : List Char) :
      step ⟨ts, .quoted before⟩ c = some ⟨ts, .quoted (c :: before)⟩ := by
    simp only [step, hq, hb, if_false]
  have digits (ds : List Char) (hd : ∀ d ∈ ds, d ≠ '"' ∧ d ≠ '\\') (before : List Char) :
      ds.foldlM step ⟨ts, .quoted before⟩ = some ⟨ts, .quoted (ds.reverse ++ before)⟩ := by
    induction ds generalizing before with
    | nil => rfl
    | cons d ds ih =>
        obtain ⟨⟨hq, hb⟩, hds⟩ := List.forall_mem_cons.mp hd
        rw [List.foldlM_cons, plain hq hb, List.reverse_cons, List.append_assoc]
        exact ih hds (d :: before)
  rcases Quoted.encodeChar_cases c with ⟨e, h, -, -⟩ | ⟨-, h⟩ | ⟨-, hq, hb, h⟩
  · rw [h]
    rfl
  · have hd : ∀ d ∈ Hex.digits 4 c.toNat, d ≠ '"' ∧ d ≠ '\\' := by
      intro d hd
      obtain ⟨n, hn, rfl⟩ := Hex.mem_digits hd
      have all : ∀ n < 16, Nat.digitChar n ≠ '"' ∧ Nat.digitChar n ≠ '\\' := by decide
      exact all n hn
    rw [h, List.reverse_cons, List.reverse_cons, List.append_assoc, List.append_assoc]
    exact digits _ hd ('u' :: '\\' :: before)
  · rw [h, List.foldlM_cons, plain hq hb]
    rfl

theorem foldlM_encode (ts : List Token) (before cs : List Char) :
    (Quoted.encode cs).foldlM step ⟨ts, .quoted before⟩ =
      some ⟨ts, .quoted ((Quoted.encode cs).reverse ++ before)⟩ := by
  induction cs generalizing before with
  | nil => rfl
  | cons c cs ih =>
      have he : Quoted.encode (c :: cs) = Quoted.encodeChar c ++ Quoted.encode cs :=
        List.flatMap_cons
      rw [he, List.foldlM_append, foldlM_encodeChar, List.reverse_append, List.append_assoc]
      exact ih _

theorem foldlM_quote (ts : List Token) (s : String) :
    (quote s).foldlM step ⟨ts, .between⟩ = some ⟨.atom (.str s) :: ts, .between⟩ := by
  have hq : quote s = '"' :: (Quoted.encode s.toList ++ ['"']) := rfl
  have hb : step ⟨ts, .between⟩ '"' = some ⟨ts, .quoted []⟩ := rfl
  have he : step ⟨ts, .quoted (Quoted.encode s.toList).reverse⟩ '"' =
      some ⟨.atom (.str s) :: ts, .between⟩ := by
    rw [step, if_pos rfl, List.reverse_reverse, Token.ofQuoted?_encode]
    rfl
  rw [hq, List.foldlM_cons, hb]
  change (Quoted.encode s.toList ++ ['"']).foldlM step ⟨ts, .quoted []⟩ = _
  rw [List.foldlM_append, foldlM_encode, List.append_nil]
  change [('"')].foldlM step ⟨ts, .quoted (Quoted.encode s.toList).reverse⟩ = _
  rw [List.foldlM_cons, he]
  rfl

end Lexer

end Chip8.Json
