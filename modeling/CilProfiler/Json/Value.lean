/-! # JSON values

Numbers are kept in two forms: numerals that are whole 64 bit numbers as integers, any other as
a double. Objects keep their fields in written order, each name once.
-/

namespace CilProfiler

inductive JsonValue where
  | null
  | bool (value : Bool)
  | integer (value : Int)
  | real (value : Float)
  | string (value : String)
  | array (items : List JsonValue)
  | object (fields : List (String × JsonValue))
  deriving Repr, Inhabited

namespace JsonValue

def string? : JsonValue → Option String
  | .string value => some value
  | _ => none

def array? : JsonValue → Option (List JsonValue)
  | .array items => some items
  | _ => none

/-- A whole number from `low` up to but without `high`. -/
def integer? (low high : Int) : JsonValue → Option Int
  | .integer value => if low ≤ value ∧ value < high then some value else none
  | _ => none

def real? : JsonValue → Option Float
  | .integer value => Option.guard Float.isFinite (Float.ofInt value)
  | .real value => Option.guard Float.isFinite value
  | _ => none

def strings? (value : JsonValue) : Option (List String) := do
  (← value.array?).mapM string?

/-- Members of a record, in the order of their names: the fields of those names, or the items
    of an array that is not longer. Other fields are ignored, and absent members are `none`. -/
def members? (names : List String) : JsonValue → Option (List (Option JsonValue))
  | .object fields => some (names.map fun name => fields.lookup name)
  | .array items =>
    if items.length ≤ names.length then
      some ((List.range names.length).map (items[·]?))
    else none
  | _ => none

/-- A value found by name is smaller than the fields it was found in. -/
theorem sizeOf_lookup_lt {fields : List (String × JsonValue)} {name : String} {value : JsonValue}
    (found : fields.lookup name = some value) : sizeOf value < sizeOf fields := by
  induction fields with
  | nil => simp at found
  | cons field rest ih =>
    obtain ⟨key, stored⟩ := field
    rw [List.lookup_cons] at found
    split at found
    · cases found
      simp only [List.cons.sizeOf_spec, Prod.mk.sizeOf_spec]
      omega
    · have := ih found
      simp only [List.cons.sizeOf_spec]
      omega

/-- Members are smaller than the record. -/
theorem sizeOf_member_lt {names : List String} {value : JsonValue}
    {members : List (Option JsonValue)} {member : JsonValue}
    (found : value.members? names = some members) (listed : some member ∈ members) :
    sizeOf member < sizeOf value := by
  cases value with
  | object fields =>
    cases found
    obtain ⟨name, -, there⟩ := List.mem_map.mp listed
    have := sizeOf_lookup_lt there
    simp only [object.sizeOf_spec]
    omega
  | array items =>
    simp only [members?] at found
    split at found
    · cases found
      obtain ⟨index, -, there⟩ := List.mem_map.mp listed
      have := List.sizeOf_lt_of_mem (List.mem_of_getElem? there)
      simp only [array.sizeOf_spec]
      omega
    · contradiction
  | null | bool | integer | real | string => simp [members?] at found

end JsonValue
end CilProfiler
