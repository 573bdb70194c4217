/-!
# Dictionaries

Parameters and properties are names with values. They are kept in ascending
order of their names, each name once, whatever the order in which they were
written; names are ordered by their characters, which is the order of their
UTF-8 bytes.
-/

namespace ConnectorQuery

/-- Names with their values, in ascending order of the names. -/
structure Dictionary where
  entries : List (String × String)
  ascending : entries.Pairwise (·.1 < ·.1)
  deriving DecidableEq

namespace Dictionary

/-- The dictionary without names. -/
def empty : Dictionary := ⟨[], .nil⟩

/-- The entries with `name` standing for `value`, at its place in the order. -/
def insertInto (name value : String) : List (String × String) → List (String × String)
  | [] => [(name, value)]
  | e :: es =>
    if name < e.1 then (name, value) :: e :: es
    else if name = e.1 then (name, value) :: es
    else e :: insertInto name value es

theorem mem_insertInto {name value : String} {es : List (String × String)} {x : String × String}
    (h : x ∈ insertInto name value es) : x = (name, value) ∨ x ∈ es := by
  induction es with
  | nil => exact .inl (List.mem_singleton.1 h)
  | cons e es ih =>
    unfold insertInto at h
    split at h
    · exact List.mem_cons.1 h
    · split at h
      · exact (List.mem_cons.1 h).imp_right (List.mem_cons_of_mem _)
      · rcases List.mem_cons.1 h with rfl | h
        · exact .inr List.mem_cons_self
        · exact (ih h).imp_right (List.mem_cons_of_mem _)

theorem ascending_insertInto {name value : String} {es : List (String × String)}
    (h : es.Pairwise (·.1 < ·.1)) : (insertInto name value es).Pairwise (·.1 < ·.1) := by
  induction es with
  | nil => exact List.pairwise_singleton _ _
  | cons e es ih =>
    obtain ⟨below, rest⟩ := List.pairwise_cons.1 h
    unfold insertInto
    split
    · rename_i before
      refine List.pairwise_cons.2 ⟨fun x hx => ?_, h⟩
      rcases List.mem_cons.1 hx with rfl | hx
      · exact before
      · exact String.lt_trans before (below x hx)
    · rename_i notBefore
      split
      · rename_i same
        exact List.pairwise_cons.2 ⟨fun x hx => same ▸ below x hx, rest⟩
      · -- the entry goes further on, and whatever comes behind is above this one
        rename_i other
        refine List.pairwise_cons.2 ⟨fun x hx => ?_, ih rest⟩
        rcases mem_insertInto hx with rfl | hx
        · exact Std.lt_of_le_of_ne (String.not_lt.1 notBefore) (Ne.symm other)
        · exact below x hx

/-- The dictionary in which `name` stands for `value`. -/
def insert (d : Dictionary) (name value : String) : Dictionary :=
  ⟨insertInto name value d.entries, ascending_insertInto d.ascending⟩

/-- The dictionary of the given pairs; of two pairs with one name the later one
    counts. -/
def ofList (pairs : List (String × String)) : Dictionary :=
  pairs.foldl (fun d p => d.insert p.1 p.2) empty

/-- The names, in ascending order. -/
def names (d : Dictionary) : List String :=
  d.entries.map (·.1)

/-- The value that stands under the first name as `wanted`. -/
def findBy? (d : Dictionary) (wanted : String → Bool) : Option String :=
  (d.entries.find? fun e => wanted e.1).map (·.2)

/-- The value of a name. -/
def get? (d : Dictionary) (name : String) : Option String :=
  d.findBy? (· == name)

end Dictionary

end ConnectorQuery
