import Chip8.Proofs.Record
import Chip8.Serial.Layout

namespace Chip8

namespace Json

/-- What an object holds under a name: the value of the only member that has it, or nothing. -/
def Finds (members : List (String × Json)) (name : String) : Option Json → Prop
  | some v => HasMember members name v
  | none => ∀ m ∈ members, m.1 ≠ name

variable {members : List (String × Json)} {name : String} {found : Option Json}

theorem member?_eq_some_iff : member? members name = some found ↔ Finds members name found := by
  cases found with
  | some v => exact member?_eq_some_some_iff members name v
  | none =>
      rw [member?_eq_some_iff_filter, Option.map_none, Option.toList_none, List.filter_eq_nil_iff,
        Finds]
      simp only [decide_eq_true_eq]

theorem Finds.mem {v : Json} (h : Finds members name (some v)) : (name, v) ∈ members := by
  obtain ⟨before, after, rfl, -⟩ := h
  exact List.mem_append_right before List.mem_cons_self

theorem Finds.eq_some {v : Json} (h : Finds members name found) (hv : (name, v) ∈ members) :
    found = some v := by
  cases found with
  | none => exact absurd rfl (h _ hv)
  | some w =>
      obtain ⟨before, after, rfl, hne⟩ := h
      rcases List.mem_append.mp hv with hv | hv
      · exact absurd rfl (hne _ (List.mem_append_left after hv))
      · rcases List.mem_cons.mp hv with hv | hv
        · rw [(Prod.mk.inj hv).2]
        · exact absurd rfl (hne _ (List.mem_append_right before hv))

theorem exists_finds_iff :
    (∃ found, Finds members name found) ↔ members.countP (fun m => m.1 = name) ≤ 1 := by
  simp only [← member?_eq_some_iff, ← Option.isSome_iff_exists, List.countP_eq_length_filter]
  unfold member?
  split
  next h => simp [h]
  next m h => simp [h]
  next h h' =>
    match hm : members.filter (fun m => m.1 = name) with
    | [] => exact absurd hm h
    | [m] => exact absurd hm (h' m)
    | _ :: _ :: _ => simp [hm]

theorem member?_perm {ms ns : List (String × Json)} (h : ms.Perm ns) (name : String) :
    member? ms name = member? ns name := by
  have hp := h.filter (fun m => m.1 = name)
  -- no more than one member is found, and so short a list has one order only
  have hone (l : List (String × Json)) (o : Option (String × Json)) :
      l = o.toList ↔ l.Perm o.toList := by
    cases o with
    | none => exact List.perm_nil.symm
    | some m => exact List.perm_singleton.symm
  ext found
  rw [member?_eq_some_iff_filter, member?_eq_some_iff_filter, hone, hone]
  exact hp.congr_left _

theorem member?_insert (before after : List (String × Json)) {m : String × Json}
    (h : m.1 ≠ name) :
    member? (before ++ m :: after) name = member? (before ++ after) name := by
  have hm : (m :: after).filter (fun m => m.1 = name) = after.filter (fun m => m.1 = name) :=
    List.filter_cons_of_neg (by simpa using h)
  rw [member?, member?, List.filter_append, List.filter_append, hm]

theorem fields?_obj_congr {ms ns : List (String × Json)} {names : List String}
    (h : ∀ name ∈ names, member? ms name = member? ns name) :
    fields? names (.obj ms) = fields? names (.obj ns) := by
  induction names with
  | nil => rfl
  | cons name names ih =>
      obtain ⟨hn, hs⟩ := List.forall_mem_cons.mp h
      have ih := ih hs
      rw [fields?, fields?] at ih ⊢
      rw [List.mapM_cons, List.mapM_cons, hn, ih]

end Json

namespace Layout

def fieldNames : List String := ["origin", "show_offsets", "show_raw"]

/-- The value may stand for the field: a number of 16 bits for the origin, a truth value for the
other two, and anything under another name. -/
def Allows (name : String) (v : Json) : Prop :=
  (name = "origin" → ∃ n ≤ 65535, v = .nat n) ∧
    (name = "show_offsets" ∨ name = "show_raw" → ∃ b, v = .bool b)

/-- What is found stands for `a`, or nothing is found and `a` is the default. -/
def Given {α : Type} (write : α → Json) (default a : α) (found : Option Json) : Prop :=
  found = some (write a) ∨ found = none ∧ a = default

structure Fits (l : Layout) (origin showAddress showWord : Option Json) : Prop where
  origin : Given (fun o : UInt16 => .nat o.toNat) ({} : Layout).origin l.origin origin
  showAddress : Given .bool ({} : Layout).showAddress l.showAddress showAddress
  showWord : Given .bool ({} : Layout).showWord l.showWord showWord

/-- The fields that a value gives, by name or by place, are those of the layout, and in the others
the layout is the default one. -/
inductive Describes : Json → Layout → Prop
  | obj {members : List (String × Json)} {l : Layout} {origin showAddress showWord : Option Json}
      (horigin : Json.Finds members "origin" origin)
      (haddress : Json.Finds members "show_offsets" showAddress)
      (hword : Json.Finds members "show_raw" showWord)
      (fits : l.Fits origin showAddress showWord) : Describes (.obj members) l
  | arr {elems : List Json} {l : Layout} (length_le : elems.length ≤ 3)
      (fits : l.Fits elems[0]? elems[1]? elems[2]?) : Describes (.arr elems) l

theorem field?_eq_some_iff {α : Type} {read? : Json → Option α} {write : α → Json} {default a : α}
    (h : ∀ v, read? v = some a ↔ v = write a) (found : Option Json) :
    field? read? default found = some a ↔ Given write default a found := by
  cases found with
  | none => simp [field?, Given, eq_comm]
  | some v => simp [field?, Given, h]

theorem readOrigin?_eq_some_iff (v : Json) (o : UInt16) :
    readOrigin? v = some o ↔ v = .nat o.toNat := by
  rw [readOrigin?, Option.map_eq_some_iff]
  simp only [Json.natUpTo?_eq_some_iff]
  constructor
  · rintro ⟨n, ⟨rfl, hn⟩, rfl⟩
    rw [UInt16.toNat_ofNat_of_lt' (Nat.lt_succ_of_le hn)]
  · intro hv
    exact ⟨o.toNat, ⟨hv, Nat.le_of_lt_succ o.toNat_lt⟩, UInt16.ofNat_toNat⟩

theorem bool?_eq_some_iff (v : Json) (b : Bool) : v.bool? = some b ↔ v = .bool b := by
  cases v <;> simp [Json.bool?]

theorem ofJson?_eq_some_iff_fits (v : Json) (l : Layout) :
    Serial.ofJson? v = some l ↔ ∃ origin showAddress showWord,
      v.fields? fieldNames = some [origin, showAddress, showWord] ∧
        l.Fits origin showAddress showWord := by
  constructor
  · intro h
    simp only [Serial.ofJson?, Serial.reading, ReadM.run_ofOption, Logged.value_pure] at h
    split at h
    next origin showAddress showWord hf =>
      obtain ⟨o, ho, h⟩ := Option.bind_eq_some_iff.mp h
      obtain ⟨a, ha, h⟩ := Option.bind_eq_some_iff.mp h
      obtain ⟨w, hw, h⟩ := Option.bind_eq_some_iff.mp h
      cases h
      exact ⟨origin, showAddress, showWord, hf,
        (field?_eq_some_iff (readOrigin?_eq_some_iff · o) _).mp ho,
        (field?_eq_some_iff (bool?_eq_some_iff · a) _).mp ha,
        (field?_eq_some_iff (bool?_eq_some_iff · w) _).mp hw⟩
    next => cases h
  · rintro ⟨origin, showAddress, showWord, hf, h⟩
    have ho := (field?_eq_some_iff (readOrigin?_eq_some_iff · l.origin) _).mpr h.origin
    have ha := (field?_eq_some_iff (bool?_eq_some_iff · l.showAddress) _).mpr h.showAddress
    have hw := (field?_eq_some_iff (bool?_eq_some_iff · l.showWord) _).mpr h.showWord
    rw [fieldNames] at hf
    simp only [Serial.ofJson?, Serial.reading, ReadM.run_ofOption, Logged.value_pure, hf]
    exact Option.bind_eq_some_iff.mpr ⟨_, ho, Option.bind_eq_some_iff.mpr ⟨_, ha,
      Option.bind_eq_some_iff.mpr ⟨_, hw, rfl⟩⟩⟩

theorem fields?_obj_eq_some_iff (members : List (String × Json))
    (origin showAddress showWord : Option Json) :
    Json.fields? fieldNames (.obj members) = some [origin, showAddress, showWord] ↔
      Json.Finds members "origin" origin ∧ Json.Finds members "show_offsets" showAddress ∧
        Json.Finds members "show_raw" showWord := by
  rw [Json.fields?, mapM_eq_some_iff, fieldNames]
  simp only [List.forall₂_cons, List.forall₂_nil_left_iff, and_true, Json.member?_eq_some_iff]

theorem fields?_arr_eq_some_iff (elems : List Json) (origin showAddress showWord : Option Json) :
    Json.fields? fieldNames (.arr elems) = some [origin, showAddress, showWord] ↔
      elems.length ≤ 3 ∧ elems[0]? = origin ∧ elems[1]? = showAddress ∧ elems[2]? = showWord := by
  match elems with
  | [] | [_] | [_, _] | [_, _, _] => simp [Json.fields?, fieldNames]
  | _ :: _ :: _ :: _ :: _ => simp [Json.fields?, fieldNames]

theorem ofJson?_eq_some_iff (v : Json) (l : Layout) :
    Serial.ofJson? v = some l ↔ Describes v l := by
  rw [ofJson?_eq_some_iff_fits]
  constructor
  · rintro ⟨origin, showAddress, showWord, hf, h⟩
    cases v with
    | obj members =>
        obtain ⟨ho, ha, hw⟩ := (fields?_obj_eq_some_iff _ _ _ _).mp hf
        exact .obj ho ha hw h
    | arr elems =>
        obtain ⟨hl, rfl, rfl, rfl⟩ := (fields?_arr_eq_some_iff _ _ _ _).mp hf
        exact .arr hl h
    | null | bool b | nat n | decimal s | str s | unpaired => cases hf
  · intro h
    cases h with
    | obj ho ha hw h =>
        exact ⟨_, _, _, (fields?_obj_eq_some_iff _ _ _ _).mpr ⟨ho, ha, hw⟩, h⟩
    | arr hl h => exact ⟨_, _, _, (fields?_arr_eq_some_iff _ _ _ _).mpr ⟨hl, rfl, rfl, rfl⟩, h⟩

theorem exists_given_iff {α : Type} (write : α → Json) (default : α) (found : Option Json) :
    (∃ a, Given write default a found) ↔ ∀ v, found = some v → ∃ a, v = write a := by
  cases found with
  | none => exact ⟨fun _ _ => nofun, fun _ => ⟨default, .inr ⟨rfl, rfl⟩⟩⟩
  | some v => simp [Given]

theorem allows_origin_iff (v : Json) : Allows "origin" v ↔ ∃ o : UInt16, v = .nat o.toNat := by
  constructor
  · rintro ⟨h, -⟩
    obtain ⟨n, hn, rfl⟩ := h rfl
    exact ⟨UInt16.ofNat n, by rw [UInt16.toNat_ofNat_of_lt' (Nat.lt_succ_of_le hn)]⟩
  · rintro ⟨o, rfl⟩
    exact ⟨fun _ => ⟨_, Nat.le_of_lt_succ o.toNat_lt, rfl⟩, by simp⟩

theorem allows_flag_iff {name : String} (h : name = "show_offsets" ∨ name = "show_raw") (v : Json) :
    Allows name v ↔ ∃ b, v = .bool b := by
  constructor
  · exact fun hv => hv.2 h
  · intro hv
    refine ⟨?_, fun _ => hv⟩
    rintro rfl
    exact absurd h (by decide)

theorem isSome_ofJson?_iff_allows (v : Json) :
    (Serial.ofJson? v : Option Layout).isSome ↔ ∃ origin showAddress showWord,
      v.fields? fieldNames = some [origin, showAddress, showWord] ∧
        (∀ x, origin = some x → Allows "origin" x) ∧
        (∀ x, showAddress = some x → Allows "show_offsets" x) ∧
        ∀ x, showWord = some x → Allows "show_raw" x := by
  simp only [allows_origin_iff, allows_flag_iff (.inl rfl), allows_flag_iff (.inr rfl),
    ← exists_given_iff _ ({} : Layout).origin, ← exists_given_iff _ ({} : Layout).showAddress]
  rw [Option.isSome_iff_exists]
  simp only [ofJson?_eq_some_iff_fits]
  constructor
  · rintro ⟨l, origin, showAddress, showWord, hf, h⟩
    exact ⟨origin, showAddress, showWord, hf, ⟨_, h.origin⟩, ⟨_, h.showAddress⟩, ⟨_, h.showWord⟩⟩
  · rintro ⟨origin, showAddress, showWord, hf, ⟨o, ho⟩, ⟨a, ha⟩, ⟨w, hw⟩⟩
    exact ⟨⟨o, a, w⟩, origin, showAddress, showWord, hf, ho, ha, hw⟩

theorem isSome_ofJson?_obj_iff (members : List (String × Json)) :
    (Serial.ofJson? (.obj members) : Option Layout).isSome ↔
      (∀ name ∈ fieldNames, members.countP (fun m => m.1 = name) ≤ 1) ∧
        ∀ m ∈ members, Allows m.1 m.2 := by
  rw [isSome_ofJson?_iff_allows]
  simp only [fields?_obj_eq_some_iff, ← Json.exists_finds_iff]
  constructor
  · rintro ⟨origin, showAddress, showWord, ⟨ho, ha, hw⟩, hoa, haa, hwa⟩
    constructor
    · simp only [fieldNames, List.forall_mem_cons]
      exact ⟨⟨_, ho⟩, ⟨_, ha⟩, ⟨_, hw⟩, fun _ h => absurd h List.not_mem_nil⟩
    · rintro ⟨name, v⟩ hm
      constructor
      · rintro rfl
        exact (hoa v (ho.eq_some hm)).1 rfl
      · rintro (rfl | rfl)
        · exact (haa v (ha.eq_some hm)).2 (.inl rfl)
        · exact (hwa v (hw.eq_some hm)).2 (.inr rfl)
  · rintro ⟨hn, hm⟩
    simp only [fieldNames, List.forall_mem_cons] at hn
    obtain ⟨⟨origin, ho⟩, ⟨showAddress, ha⟩, ⟨showWord, hw⟩, -⟩ := hn
    refine ⟨origin, showAddress, showWord, ⟨ho, ha, hw⟩, ?_, ?_, ?_⟩
    · rintro x rfl
      exact hm _ ho.mem
    · rintro x rfl
      exact hm _ ha.mem
    · rintro x rfl
      exact hm _ hw.mem

theorem isSome_ofJson?_arr_iff (elems : List Json) :
    (Serial.ofJson? (.arr elems) : Option Layout).isSome ↔
      elems.length ≤ 3 ∧ ∀ p ∈ fieldNames.zip elems, Allows p.1 p.2 := by
  rw [isSome_ofJson?_iff_allows]
  simp only [fields?_arr_eq_some_iff]
  match elems with
  | [] | [_] | [_, _] | [_, _, _] => simp [fieldNames]
  | _ :: _ :: _ :: _ :: _ => simp

theorem isSome_ofJson?_iff (v : Json) : (Serial.ofJson? v : Option Layout).isSome ↔
    (∃ members, v = .obj members ∧
      (∀ name ∈ fieldNames, members.countP (fun m => m.1 = name) ≤ 1) ∧
        ∀ m ∈ members, Allows m.1 m.2) ∨
    ∃ elems, v = .arr elems ∧ elems.length ≤ 3 ∧ ∀ p ∈ fieldNames.zip elems, Allows p.1 p.2 := by
  cases v with
  | obj members => simp [isSome_ofJson?_obj_iff]
  | arr elems => simp [isSome_ofJson?_arr_iff]
  | null | bool b | nat n | decimal s | str s | unpaired =>
      simp [Serial.ofJson?, Serial.reading, Json.fields?]

theorem ofJson?_congr {v w : Json} (h : v.fields? fieldNames = w.fields? fieldNames) :
    (Serial.ofJson? v : Option Layout) = Serial.ofJson? w := by
  rw [fieldNames] at h
  simp only [Serial.ofJson?, Serial.reading, h]

theorem not_allows_null {name : String} (h : name ∈ fieldNames) : ¬ Allows name .null := by
  rintro ⟨horigin, hflag⟩
  simp only [fieldNames, List.mem_cons, List.not_mem_nil, or_false] at h
  rcases h with h | h
  · obtain ⟨n, -, hn⟩ := horigin h
    cases hn
  · obtain ⟨b, hb⟩ := hflag h
    cases hb

theorem ofJson?_obj_eq_none {members : List (String × Json)} {name : String}
    (hname : name ∈ fieldNames)
    (h : (name, .null) ∈ members ∨ 2 ≤ members.countP (fun m => m.1 = name)) :
    (Serial.ofJson? (.obj members) : Option Layout) = none := by
  by_contra hne
  obtain ⟨hcount, hallows⟩ :=
    (isSome_ofJson?_obj_iff members).mp (Option.isSome_iff_ne_none.mpr hne)
  rcases h with h | h
  · exact not_allows_null hname (hallows _ h)
  · exact absurd (hcount name hname) (Nat.not_le_of_lt h)

theorem ofJson?_arr_eq_none {elems : List Json} (h : .null ∈ elems) :
    (Serial.ofJson? (.arr elems) : Option Layout) = none := by
  by_contra hne
  obtain ⟨hlen, hallows⟩ :=
    (isSome_ofJson?_arr_iff elems).mp (Option.isSome_iff_ne_none.mpr hne)
  -- no element is too many, so each has a field to stand for
  have hzip : (fieldNames.zip elems).map Prod.snd = elems := List.map_snd_zip hlen
  rw [← hzip] at h
  obtain ⟨⟨name, v⟩, hp, rfl⟩ := List.mem_map.mp h
  exact not_allows_null (List.of_mem_zip hp).1 (hallows _ hp)

/-- A value is read as a layout exactly if it is an object in which no field is repeated, or an
array of at most three elements, and what it gives for the fields are a number of 16 bits and two
truth values. What is read is as given in the fields that are given and as by default in the others.
So neither the order of members nor a member of another name ever makes a difference, and null for a
field, or a field given twice, is always refused. -/
theorem read_iff_describes :
    (∀ v : Json, (Serial.ofJson? v : Option Layout).isSome ↔
      (∃ members, v = .obj members ∧
        (∀ name ∈ fieldNames, members.countP (fun m => m.1 = name) ≤ 1) ∧
          ∀ m ∈ members, Allows m.1 m.2) ∨
      ∃ elems, v = .arr elems ∧ elems.length ≤ 3 ∧
        ∀ p ∈ fieldNames.zip elems, Allows p.1 p.2) ∧
    (∀ (v : Json) (l : Layout), Serial.ofJson? v = some l ↔ Describes v l) ∧
    (∀ ms ns : List (String × Json), ms.Perm ns →
      (Serial.ofJson? (.obj ms) : Option Layout) = Serial.ofJson? (.obj ns)) ∧
    (∀ (before after : List (String × Json)) (m : String × Json), m.1 ∉ fieldNames →
      (Serial.ofJson? (.obj (before ++ m :: after)) : Option Layout) =
        Serial.ofJson? (.obj (before ++ after))) ∧
    (∀ (members : List (String × Json)), ∀ name ∈ fieldNames,
      (name, .null) ∈ members ∨ 2 ≤ members.countP (fun m => m.1 = name) →
        (Serial.ofJson? (.obj members) : Option Layout) = none) ∧
    ∀ elems : List Json, .null ∈ elems →
      (Serial.ofJson? (.arr elems) : Option Layout) = none := by
  refine ⟨isSome_ofJson?_iff, ofJson?_eq_some_iff, ?_, ?_, ?_, ?_⟩
  · intro ms ns h
    exact ofJson?_congr (Json.fields?_obj_congr fun name _ => Json.member?_perm h name)
  · intro before after m hm
    refine ofJson?_congr (Json.fields?_obj_congr fun name hname => ?_)
    exact Json.member?_insert before after fun he => hm (he ▸ hname)
  · exact fun members name hname h => ofJson?_obj_eq_none hname h
  · exact fun elems h => ofJson?_arr_eq_none h

end Layout

end Chip8
