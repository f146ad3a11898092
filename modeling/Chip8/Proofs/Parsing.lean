import Chip8.Json.Text
import Chip8.Proofs.Tokens

namespace Chip8.Json

namespace Parser

/-- Under any open containers these tokens are one value, and the parser goes on behind it. -/
def Completes (ts : List Token) (v : Json) : Prop :=
  ∀ stack, ts.foldlM step (value stack) = some (complete v stack)

theorem foldlM_arrayStart (v : Json) (elems : List Json) (ts : List Token) (stack : List Frame) :
    List.foldlM step (arrayStart stack)
        ([.comma].intercalate ((v :: elems).map tokens) ++ ts) =
      List.foldlM step (value (.elem [] :: stack))
        ([.comma].intercalate ((v :: elems).map tokens) ++ ts) := by
  cases elems <;> cases v <;> rfl

theorem foldlM_objectStart (m : String × Json) (members : List (String × Json)) (ts : List Token)
    (stack : List Frame) :
    List.foldlM step (objectStart stack)
        ([.comma].intercalate ((m :: members).map memberTokens) ++ ts) =
      List.foldlM step (key [] stack)
        ([.comma].intercalate ((m :: members).map memberTokens) ++ ts) := by
  cases members <;> rfl

theorem foldlM_join {α β : Type} {f : α → List Token} (item : α → β)
    (first after : List β → Parser)
    (comma : ∀ read, step (after read) .comma = some (first read)) {a : α} {as : List α}
    (h : ∀ b ∈ a :: as, ∀ read, (f b).foldlM step (first read) = some (after (item b :: read)))
    (read : List β) :
    ([.comma].intercalate ((a :: as).map f)).foldlM step (first read) =
      some (after (((a :: as).map item).reverse ++ read)) := by
  induction as generalizing a read with
  | nil =>
      rw [List.map_singleton, List.intercalate_singleton, h a List.mem_cons_self]
      rfl
  | cons b as ih =>
      obtain ⟨ha, hb⟩ := List.forall_mem_cons.mp h
      rw [List.map_cons, List.map_cons, List.intercalate_cons_cons, List.append_assoc,
        List.foldlM_append, ha, List.map_cons, List.reverse_cons, List.append_assoc]
      change (step (after (item a :: read)) .comma >>= fun p =>
        ([.comma].intercalate ((b :: as).map f)).foldlM step p) = _
      rw [comma]
      exact ih hb (item a :: read)

theorem foldlM_elems {v : Json} {elems : List Json} (h : ∀ e ∈ v :: elems, Completes e.tokens e)
    (stack : List Frame) :
    List.foldlM step (value (.elem [] :: stack))
        ([.comma].intercalate ((v :: elems).map tokens) ++ [.endArray]) =
      some (complete (.arr (v :: elems)) stack) := by
  have hj := foldlM_join id (fun read => value (.elem read :: stack))
    (fun read => afterElem read stack) (fun _ => rfl) (fun e he read => h e he _) []
  rw [List.map_id, List.append_nil] at hj
  rw [List.foldlM_append, hj]
  change some (complete (.arr (v :: elems).reverse.reverse) stack) = _
  rw [List.reverse_reverse]

theorem foldlM_member {m : String × Json} (h : Completes m.2.tokens m.2)
    (stack : List Frame) (read : List (Key × Json)) :
    (memberTokens m).foldlM step (key read stack) =
      some (afterMember ((some m.1, m.2) :: read) stack) :=
  h (.member read (some m.1) :: stack)

theorem foldlM_members {m : String × Json} {members : List (String × Json)}
    (h : ∀ n ∈ m :: members, Completes n.2.tokens n.2) (stack : List Frame) :
    List.foldlM step (key [] stack)
        ([.comma].intercalate ((m :: members).map memberTokens) ++ [.endObject]) =
      some (complete (ofMembers ((m :: members).map fun m => (some m.1, m.2))) stack) := by
  have hj := foldlM_join (fun m : String × Json => (some m.1, m.2)) (fun read => key read stack)
    (fun read => afterMember read stack) (fun _ => rfl)
    (fun n hn => foldlM_member (h n hn) stack) []
  rw [List.append_nil] at hj
  rw [List.foldlM_append, hj]
  change some (complete (ofMembers ((m :: members).map _).reverse.reverse) stack) = _
  rw [List.reverse_reverse]

end Parser

theorem ofMembers_some (members : List (String × Json)) :
    ofMembers (members.map fun m => (some m.1, m.2)) = .obj members := by
  have h : (members.map fun m => ((some m.1 : Key), m.2)).mapM (fun m => m.1.map (·, m.2)) =
      some members := by
    induction members with
    | nil => rfl
    | cons m members ih =>
        rw [List.map_cons, List.mapM_cons, ih]
        rfl
  rw [ofMembers, h]

theorem Plain.completes {v : Json} (h : Plain v) : Parser.Completes v.tokens v := by
  induction h with
  | null | bool b | nat n | str s => exact fun stack => rfl
  | @arr elems h ih =>
      intro stack
      rw [tokens_arr]
      cases elems with
      | nil => rfl
      | cons v elems =>
          exact (Parser.foldlM_arrayStart v elems _ stack).trans (Parser.foldlM_elems ih stack)
  | @obj members h ih =>
      intro stack
      rw [tokens_obj]
      cases members with
      | nil => rfl
      | cons m members =>
          have hr := Parser.foldlM_members ih stack
          rw [ofMembers_some] at hr
          exact (Parser.foldlM_objectStart m members _ stack).trans hr

theorem Plain.parse?_text {v : Json} (h : Plain v) : parse? v.text = some v := by
  have hp : v.tokens.foldlM Parser.step (.value []) = some (.done v) := h.completes []
  rw [parse?, text, String.toList_ofList, h.tokens?_chars]
  change (v.tokens.foldlM Parser.step (.value []) >>= Parser.result?) = _
  rw [hp]
  rfl

end Chip8.Json
