import CilProfiler.Json.Value
import CilProfiler.Snapshot.FoldedStack
import CilProfiler.Trace.Handle

/-! # JSON shapes

How method names, handles and snapshots are written as JSON values and read back. A record is
written as an object and read from an object or from the array of its members. The generic
lists of a method are left out where they are empty, and a method is null where there is none.
-/

namespace CilProfiler

/-- A list of texts that may be absent, which makes it empty, and is never null. -/
def JsonValue.optionalStrings? : Option JsonValue → Option (List String)
  | none => some []
  | some value => value.strings?

/-- A field with a list of texts that is left out where the list is empty. -/
def JsonValue.stringsField (name : String) (values : List String) : List (String × JsonValue) :=
  if values = [] then [] else [(name, .array (values.map .string))]

namespace MethodName

def memberNames : List String :=
  ["declaring_type", "name", "generic_parameters", "generic_arguments"]

def toJson (method : MethodName) : JsonValue :=
  .object <|
    [("declaring_type", .string method.declaringType), ("name", .string method.name)]
      ++ JsonValue.stringsField "generic_parameters" method.genericParameters
      ++ JsonValue.stringsField "generic_arguments" method.genericArguments

def ofJson? (value : JsonValue) : Option MethodName := do
  match ← value.members? memberNames with
  | [some declaringType, some name, parameters, arguments] =>
    return {
      declaringType := ← declaringType.string?
      name := ← name.string?
      genericParameters := ← JsonValue.optionalStrings? parameters
      genericArguments := ← JsonValue.optionalStrings? arguments }
  | _ => none

end MethodName

namespace Handle

def toJson (handle : Handle) : JsonValue :=
  .integer handle.raw

def ofJson? (value : JsonValue) : Option Handle := do
  Handle.ofNat? (← value.integer? 1 Handle.bound).toNat

end Handle

namespace CallStats

def memberNames : List String :=
  ["method", "calls", "ticks", "percent"]

/-- The statistics as a JSON value. What is no finite number has no numeral. -/
def toJson (stats : CallStats) : JsonValue :=
  .object [
    ("method", (stats.method.map MethodName.toJson).getD .null),
    ("calls", .integer stats.calls),
    ("ticks", .integer stats.ticks),
    ("percent", if stats.percent.isFinite then .real stats.percent else .null)]

def methodOfJson? : Option JsonValue → Option (Option MethodName)
  | none | some .null => some none
  | some value => some <$> MethodName.ofJson? value

def ofJson? (value : JsonValue) : Option CallStats := do
  match ← value.members? memberNames with
  | [method, some calls, some ticks, some percent] =>
    return {
      method := ← methodOfJson? method
      calls := (← calls.integer? 0 Count.bound).toNat
      ticks := ← ticks.integer? (-Ticks.bound) Ticks.bound
      percent := ← percent.real? }
  | _ => none

end CallStats

namespace ProfileNode

def memberNames : List String :=
  ["stats", "children"]

mutual

def toJson : ProfileNode → JsonValue
  | ⟨stats, children⟩ =>
    .object [("stats", stats.toJson), ("children", .array (listToJson children))]

def listToJson : List ProfileNode → List JsonValue
  | [] => []
  | node :: rest => node.toJson :: listToJson rest

end

def ofJson? (value : JsonValue) : Option ProfileNode :=
  match _found : value.members? memberNames with
  | some [some stats, some (.array items)] => do
    let stats ← CallStats.ofJson? stats
    let children ← items.attach.mapM fun ⟨item, _listed⟩ => ofJson? item
    return ⟨stats, children⟩
  | _ => none
termination_by sizeOf value
decreasing_by
  have inside : sizeOf (JsonValue.array items) < sizeOf value :=
    JsonValue.sizeOf_member_lt _found (by simp)
  have := List.sizeOf_lt_of_mem _listed
  simp only [JsonValue.array.sizeOf_spec] at inside
  omega

end ProfileNode

namespace FoldedStack

def memberNames : List String :=
  ["stack", "weight"]

def toJson (entry : FoldedStack) : JsonValue :=
  .object [("stack", .string entry.stack), ("weight", .integer entry.weight)]

def ofJson? (value : JsonValue) : Option FoldedStack := do
  match ← value.members? memberNames with
  | [some stack, some weight] =>
    return {
      stack := ← stack.string?
      weight := (← weight.integer? 0 Count.bound).toNat }
  | _ => none

end FoldedStack
end CilProfiler
