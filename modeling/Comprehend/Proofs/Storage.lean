import Comprehend.Comprehension.Json
import Comprehend.Proofs.JsonText

/-! Comprehensions in storage. A comprehension is read back from its JSON text as it was,
well-formed or not, and loading reports the flaw of one that is not. -/
namespace Comprehend

/-! Tables -/

namespace Table

variable {α : Type}

/-- A name behind all others is placed at the end. -/
theorem place_last {name : String} {es : List (String × α)} (h : ∀ e ∈ es, e.1 < name) (value : α) :
    place name value es = es ++ [(name, value)] := by
  induction es with
  | nil => rfl
  | cons e es ih =>
    have he : e.1 < name := h e (by simp)
    have hnot : ¬ name < e.1 := String.lt_asymm he
    have hne : name ≠ e.1 := fun heq => String.lt_irrefl e.1 (heq ▸ he)
    rw [place, if_neg hnot, if_neg hne, ih fun x hx => h x (by simp [hx])]
    rfl

/-- The entries of a table make the same table. -/
theorem ofList_entries (t : Table α) : ofList t.entries = t := by
  have hfold (es : List (String × α)) (s : Table α) (h : Ascending (s.entries ++ es)) :
      (es.foldl (fun s e => s.insert e.1 e.2) s).entries = s.entries ++ es := by
    induction es generalizing s with
    | nil => simp
    | cons e es ih =>
      have hinsert : (s.insert e.1 e.2).entries = s.entries ++ [e] := by
        refine place_last (fun x hx => ?_) e.2
        exact (List.pairwise_append.mp h).2.2 x hx e (by simp)
      rw [List.foldl_cons, ih _ (by rw [hinsert]; simpa using h), hinsert]
      simp
  exact ext (hfold t.entries empty t.ascending)

end Table

/-! Members -/

namespace Json

variable {α : Type} {read : Json → Option α} {write : α → Json} {key : String}
  {members : List (String × Json)}

theorem asString?_str (s : String) : asString? (.str s) = some s :=
  rfl

theorem required_of_member {v : Json} {a : α} (hmember : member? key members = some (some v))
    (hread : read v = some a) : required read key members = some a := by
  simp [required, hmember, hread]

theorem withDefault_of_member {v : Json} {default a : α}
    (hmember : member? key members = some (some v)) (hread : read v = some a) :
    withDefault default read key members = some a := by
  simp [withDefault, hmember, hread]

/-- An option that is written as a value other than null is read back. -/
theorem nullable_ofOption {a : Option α}
    (hmember : member? key members = some (some (ofOption write a)))
    (hread : ∀ a, read (write a) = some a) (hnull : ∀ a, write a ≠ .null) :
    nullable read key members = some a := by
  cases a with
  | none => simp [nullable, hmember, ofOption]
  | some a =>
    simp only [nullable, hmember, ofOption, Option.bind_eq_bind, Option.bind_some]
    split
    next h => simp at h
    next h => exact absurd (Option.some.inj h) (hnull a)
    next h =>
      obtain rfl := Option.some.inj h
      rw [hread, Option.map_some]

theorem faithful_ofOption (h : ∀ a, Faithful (write a)) (a : Option α) :
    Faithful (ofOption write a) := by
  cases a with
  | none => exact .null
  | some a => exact h a

end Json

open Json

/-! Parts of a comprehension -/

theorem Shape.ofName?_name (shape : Shape) : ofName? shape.name = some shape := by
  cases shape <;> rfl

theorem Reducer.ofName?_name (r : Reducer) : ofName? r.name = some r := by
  cases r <;> rfl

namespace Range

theorem faithful_toJson (r : Range) : Faithful r.toJson := by
  refine .obj fun m hm => ?_
  simp only [List.mem_cons, List.not_mem_nil, or_false] at hm
  rcases hm with rfl | rfl | rfl | rfl
  · exact .str _
  all_goals exact .int (Number.fits_toInt _)

theorem ofJson?_toJson (r : Range) : ofJson? r.toJson = some r := by
  simp only [ofJson?, toJson, asObject?, Option.bind_eq_bind, Option.bind_some]
  rw [required_of_member rfl (Number.int64?_toInt r.start),
    required_of_member rfl (Number.int64?_toInt r.stop),
    withDefault_of_member rfl (Number.int64?_toInt r.step)]
  rfl

end Range

namespace Source

theorem faithful_toJson (s : Source) : Faithful s.toJson := by
  cases s with
  | range r => exact r.faithful_toJson
  | text s => exact .str s

theorem ofJson?_toJson (s : Source) : ofJson? s.toJson = some s := by
  cases s with
  | range r =>
    change (Range.ofJson? r.toJson).map Source.range = _
    rw [r.ofJson?_toJson]
    rfl
  | text s => rfl

end Source

namespace Generator

theorem faithful_toJson (g : Generator) : Faithful g.toJson := by
  refine .obj fun m hm => ?_
  simp only [List.mem_cons, List.not_mem_nil, or_false] at hm
  rcases hm with rfl | rfl | rfl | rfl
  · exact .str _
  · exact .str _
  · exact g.source.faithful_toJson
  · refine .arr fun v hv => ?_
    obtain ⟨s, -, rfl⟩ := List.mem_map.mp hv
    exact .str s

theorem ofJson?_toJson (g : Generator) : ofJson? g.toJson = some g := by
  have hfilters : (g.filters.map Json.str).mapM asString? = some g.filters :=
    mapM_map_eq_some asString?_str g.filters
  simp only [ofJson?, toJson, asObject?, Option.bind_eq_bind, Option.bind_some]
  rw [required_of_member rfl (asString?_str g.var), required_of_member rfl g.source.ofJson?_toJson,
    withDefault_of_member rfl hfilters]
  rfl

end Generator

namespace Reduction

theorem faithful_toJson (r : Reduction) : Faithful r.toJson := by
  refine .obj fun m hm => ?_
  simp only [List.mem_cons, List.not_mem_nil, or_false] at hm
  rcases hm with rfl | rfl | rfl | rfl
  · exact .str _
  · exact .str _
  · exact faithful_ofOption .str r.op
  · exact faithful_ofOption .str r.initial

theorem ofJson?_toJson (r : Reduction) : ofJson? r.toJson = some r := by
  simp only [ofJson?, toJson, asObject?, Option.bind_eq_bind, Option.bind_some]
  rw [required_of_member rfl (Reducer.ofName?_name r.reducer),
    nullable_ofOption rfl asString?_str (by simp), nullable_ofOption rfl asString?_str (by simp)]
  rfl

end Reduction

/-! Comprehensions -/

namespace Comprehension

theorem faithful_toJson (c : Comprehension) : Faithful c.toJson := by
  refine .obj fun m hm => ?_
  simp only [List.mem_cons, List.not_mem_nil, or_false] at hm
  rcases hm with rfl | rfl | rfl | rfl | rfl | rfl | rfl | rfl
  · exact .str _
  · exact .str _
  · refine .arr fun v hv => ?_
    obtain ⟨g, -, rfl⟩ := List.mem_map.mp hv
    exact g.faithful_toJson
  · exact faithful_ofOption .str c.element
  · exact faithful_ofOption .str c.key
  · exact faithful_ofOption .str c.value
  · exact faithful_ofOption Reduction.faithful_toJson c.reduction
  · refine .obj fun m hm => ?_
    obtain ⟨e, -, rfl⟩ := List.mem_map.mp hm
    exact .str e.2

theorem provenanceOfJson?_entries (t : Table String) :
    provenanceOfJson? (.obj (t.entries.map fun e => (e.1, .str e.2))) = some t := by
  have hentries : (t.entries.map fun e => (e.1, Json.str e.2)).mapM
      (fun m => m.2.asString?.map (m.1, ·)) = some t.entries := by
    refine mapM_map_eq_some (fun e => ?_) t.entries
    rfl
  simp only [provenanceOfJson?, asObject?, Option.bind_eq_bind, Option.bind_some]
  rw [hentries, Option.bind_some, t.ofList_entries]
  rfl

theorem ofJson?_toJson (c : Comprehension) : ofJson? c.toJson = some c := by
  have hgenerators : (c.generators.map Generator.toJson).mapM Generator.ofJson? =
      some c.generators := mapM_map_eq_some Generator.ofJson?_toJson c.generators
  simp only [ofJson?, toJson, asObject?, Option.bind_eq_bind, Option.bind_some]
  rw [required_of_member rfl (Shape.ofName?_name c.shape), required_of_member rfl hgenerators,
    nullable_ofOption rfl asString?_str (by simp), nullable_ofOption rfl asString?_str (by simp),
    nullable_ofOption rfl asString?_str (by simp),
    nullable_ofOption rfl Reduction.ofJson?_toJson (by simp [Reduction.toJson]),
    withDefault_of_member rfl (provenanceOfJson?_entries c.provenance)]
  rfl

theorem ofText?_jsonText (c : Comprehension) : (Json.ofText? c.jsonText).bind ofJson? = some c := by
  rw [jsonText, Json.ofText?_text c.faithful_toJson, Option.bind_some, c.ofJson?_toJson]

theorem ofJsonText_eq (c : Comprehension) :
    ofJsonText c.jsonText =
      match c.flaw? with
      | none => .ok c
      | some flaw => .error (.flawed flaw) := by
  simp only [ofJsonText, c.ofText?_jsonText]
  cases c.flaw? <;> rfl

/-- The text of a comprehension holds all of it: whatever the comprehension is, its text describes
it and no other. Loading the text gives it back when it is well-formed, and otherwise reports the
flaw that it has. -/
theorem ofJsonText_jsonText (c : Comprehension) :
    (Json.ofText? c.jsonText).bind ofJson? = some c ∧
      ofJsonText c.jsonText =
        match c.flaw? with
        | none => .ok c
        | some flaw => .error (.flawed flaw) :=
  ⟨c.ofText?_jsonText, c.ofJsonText_eq⟩

end Comprehension

end Comprehend
