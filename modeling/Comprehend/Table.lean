/-! Finite maps from names to values, listed in increasing order of the names. Two tables with the
same entries are equal, because the order leaves no choice. -/
namespace Comprehend

/-- The names of the entries increase. -/
def Ascending {α : Type} (entries : List (String × α)) : Prop :=
  entries.Pairwise fun a b => a.1 < b.1

structure Table (α : Type) where
  entries : List (String × α) := []
  ascending : Ascending entries := by exact List.Pairwise.nil

namespace Table

variable {α : Type}

/-- The entries with `value` under `name`; what stood there before is replaced. -/
def place (name : String) (value : α) : List (String × α) → List (String × α)
  | [] => [(name, value)]
  | e :: es =>
    if name < e.1 then (name, value) :: e :: es
    else if name = e.1 then (name, value) :: es
    else e :: place name value es

theorem mem_place {name : String} {value : α} {es : List (String × α)} {x : String × α}
    (h : x ∈ place name value es) : x = (name, value) ∨ x ∈ es := by
  induction es with
  | nil => simpa [place] using h
  | cons e es ih =>
    simp only [place] at h
    split at h
    · simpa using h
    · split at h
      · simp only [List.mem_cons] at h ⊢
        exact h.imp id .inr
      · simp only [List.mem_cons] at h ⊢
        rcases h with h | h
        · exact .inr (.inl h)
        · exact (ih h).imp id .inr

theorem ascending_place {name : String} {value : α} {es : List (String × α)}
    (h : Ascending es) : Ascending (place name value es) := by
  induction es with
  | nil => exact List.pairwise_singleton _ _
  | cons e es ih =>
    obtain ⟨he, hes⟩ := List.pairwise_cons.mp h
    simp only [place]
    split
    next hlt =>
      refine List.pairwise_cons.mpr ⟨fun x hx => ?_, h⟩
      rcases List.mem_cons.mp hx with rfl | hx
      · exact hlt
      · exact String.lt_trans hlt (he x hx)
    next hge =>
      split
      next heq => exact List.pairwise_cons.mpr ⟨fun x hx => heq ▸ he x hx, hes⟩
      next hne =>
        refine List.pairwise_cons.mpr ⟨fun x hx => ?_, ih hes⟩
        rcases mem_place hx with rfl | hx
        · exact Std.lt_of_le_of_ne (String.not_lt.mp hge) (Ne.symm hne)
        · exact he x hx

def empty : Table α := {}

instance : Inhabited (Table α) := ⟨empty⟩

def insert (t : Table α) (name : String) (value : α) : Table α :=
  ⟨place name value t.entries, ascending_place t.ascending⟩

def get? (t : Table α) (name : String) : Option α :=
  t.entries.lookup name

def contains (t : Table α) (name : String) : Bool :=
  (t.get? name).isSome

def isEmpty (t : Table α) : Bool :=
  t.entries.isEmpty

def names (t : Table α) : List String :=
  t.entries.map (·.1)

/-- The entries in turn, later ones replacing earlier ones. -/
def ofList (entries : List (String × α)) : Table α :=
  entries.foldl (fun t e => t.insert e.1 e.2) empty

/-- Both tables in one; where both have a name, `top` decides. -/
def overlay (t top : Table α) : Table α :=
  top.entries.foldl (fun t e => t.insert e.1 e.2) t

def filter (t : Table α) (keep : String → Bool) : Table α :=
  ⟨t.entries.filter (keep ·.1), List.Pairwise.filter _ t.ascending⟩

theorem ext {s t : Table α} (h : s.entries = t.entries) : s = t := by
  cases s; cases t; cases h; rfl

end Table

end Comprehend
