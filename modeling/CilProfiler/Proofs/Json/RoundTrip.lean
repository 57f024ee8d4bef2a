import CilProfiler.Json.Shapes
import CilProfiler.Proofs.Snapshot.Shown
import Mathlib.Data.List.Forall2

/-! # Shapes are read back

What is written as JSON is read back as it was, although empty lists are left out and absent methods
become null. What can be read has numbers that fit; so a value that was read, from whatever JSON, is
also written and read back. The two halves meet at what may be written.
-/

namespace CilProfiler

/-- Written values are read back exactly if they may be written, and what was read from any JSON value
    is one of them. -/
structure RoundTrips {α : Type} (write : α → JsonValue) (read? : JsonValue → Option α)
    (writable : α → Prop) : Prop where
  written : ∀ a, read? (write a) = some a ↔ writable a
  read : ∀ value a, read? value = some a → read? (write a) = some a

theorem RoundTrips.intro {α : Type} {write : α → JsonValue} {read? : JsonValue → Option α}
    {writable : α → Prop} (written : ∀ a, writable a → read? (write a) = some a)
    (writable_of_read : ∀ value a, read? value = some a → writable a) :
    RoundTrips write read? writable where
  written a := ⟨writable_of_read (write a) a, written a⟩
  read value a found := written a (writable_of_read value a found)

namespace JsonValue

variable {value : JsonValue} {low high n : Int} {x : Float} {name : String}

theorem string?_eq_some {text : String} : value.string? = some text ↔ value = .string text := by
  cases value <;> simp [string?]

theorem integer?_eq_some : value.integer? low high = some n ↔
    value = .integer n ∧ low ≤ n ∧ n < high := by
  cases value with
  | integer m =>
      rw [integer?, Option.ite_none_right_eq_some, Option.some.injEq, integer.injEq]
      constructor
      · rintro ⟨range, rfl⟩
        exact ⟨rfl, range⟩
      · rintro ⟨rfl, range⟩
        exact ⟨range, rfl⟩
  | _ => simp [integer?]

theorem integer?_eq_natural {bound count : Nat} : value.integer? 0 bound = some (count : Int) ↔
    value = .integer count ∧ count < bound := by
  rw [integer?_eq_some, Int.ofNat_lt]
  exact and_congr_right fun _ => and_iff_right (Int.natCast_nonneg count)

theorem eq_natural_of_integer? {bound : Nat} (found : value.integer? 0 bound = some n) :
    value = .integer n.toNat ∧ n.toNat < bound := by
  obtain ⟨-, low, -⟩ := integer?_eq_some.mp found
  rw [← Int.toNat_of_nonneg low] at found
  exact integer?_eq_natural.mp found

theorem isFinite_of_real? (found : value.real? = some x) : x.isFinite := by
  cases value with
  | integer _ | real _ =>
      obtain ⟨rfl, finite⟩ := Option.guard_eq_some_iff.mp found
      exact finite
  | _ => cases found

/-- A list is read item by item. -/
theorem mapM_eq_some {α β : Type} {convert : α → Option β} {list : List α} {results : List β} :
    list.mapM convert = some results ↔ List.Forall₂ (fun a b => convert a = some b) list results := by
  induction list generalizing results with
  | nil => simp [eq_comm]
  | cons a rest ih =>
      rw [List.mapM_cons, Option.bind_eq_bind, Option.bind_eq_some_iff, List.forall₂_cons_left_iff]
      constructor
      · rintro ⟨b, first, found⟩
        obtain ⟨bs, further, found⟩ := Option.bind_eq_some_iff.mp found
        cases found
        exact ⟨b, bs, first, ih.mp further, rfl⟩
      · rintro ⟨b, bs, first, further, rfl⟩
        exact ⟨b, first, Option.bind_eq_some_iff.mpr ⟨bs, ih.mpr further, rfl⟩⟩

/-- What is written for a list: nothing if it is empty. -/
def listed (texts : List String) : List JsonValue :=
  if texts = [] then [] else [.array (texts.map .string)]

theorem stringsField_eq (name : String) (texts : List String) :
    stringsField name texts = (listed texts).map (name, ·) := by
  rw [stringsField, listed]
  split <;> rfl

theorem strings?_array (texts : List String) : strings? (.array (texts.map .string)) = some texts := by
  rw [strings?, array?, Option.bind_eq_bind, Option.bind_some, mapM_eq_some, List.forall₂_map_left_iff]
  exact List.forall₂_same.mpr fun _ _ => rfl

theorem optionalStrings?_listed (texts : List String) :
    optionalStrings? (listed texts).head? = some texts := by
  rw [listed]
  split
  · rename_i empty
    rw [empty]
    rfl
  · exact strings?_array texts

mutual

/-- Values of all fields with a name, at any depth, in written order. -/
def under (name : String) : JsonValue → List JsonValue
  | .array items => underItems name items
  | .object fields => underFields name fields
  | _ => []

def underItems (name : String) : List JsonValue → List JsonValue
  | [] => []
  | value :: rest => under name value ++ underItems name rest

def underFields (name : String) : List (String × JsonValue) → List JsonValue
  | [] => []
  | (key, value) :: rest =>
    (if key = name then [value] else []) ++ under name value ++ underFields name rest

end

theorem underFields_append (front back : List (String × JsonValue)) :
    underFields name (front ++ back) = underFields name front ++ underFields name back := by
  induction front with
  | nil => rfl
  | cons field rest ih =>
      obtain ⟨key, value⟩ := field
      rw [List.cons_append, underFields, underFields, ih, ← List.append_assoc]

theorem underItems_strings (texts : List String) : underItems name (texts.map .string) = [] := by
  induction texts with
  | nil => rfl
  | cons text rest ih =>
      rw [List.map_cons, underItems, ih]
      rfl

theorem underFields_stringsField (key : String) (texts : List String) :
    underFields name (stringsField key texts) = if key = name then listed texts else [] := by
  rw [stringsField, listed]
  split
  · simp [underFields]
  · simp [underFields, under, underItems_strings]

end JsonValue

/-- The two generic lists of a method. -/
inductive GenericList where
  | parameters
  | arguments

namespace GenericList

def name : GenericList → String
  | parameters => "generic_parameters"
  | arguments => "generic_arguments"

def texts : GenericList → MethodName → List String
  | parameters, method => method.genericParameters
  | arguments, method => method.genericArguments

/-- What is written for the list: nothing if it is empty. -/
def listed (list : GenericList) (method : MethodName) : List JsonValue :=
  JsonValue.listed (list.texts method)

end GenericList

namespace MethodName

theorem members?_toJson (method : MethodName) : method.toJson.members? memberNames =
    some [some (.string method.declaringType), some (.string method.name),
      (JsonValue.listed method.genericParameters).head?,
      (JsonValue.listed method.genericArguments).head?] := by
  rw [toJson, JsonValue.stringsField_eq, JsonValue.stringsField_eq, JsonValue.listed, JsonValue.listed]
  split <;> split <;> rfl

theorem ofJson?_toJson (method : MethodName) : ofJson? method.toJson = some method := by
  simp only [ofJson?, members?_toJson, Option.bind_eq_bind, Option.bind_some, JsonValue.string?,
    JsonValue.optionalStrings?_listed]
  rfl

theorem under_toJson (list : GenericList) (method : MethodName) :
    method.toJson.under list.name = list.listed method := by
  rw [toJson, JsonValue.under, JsonValue.underFields_append, JsonValue.underFields_append,
    JsonValue.underFields_stringsField, JsonValue.underFields_stringsField]
  cases list <;>
    simp [GenericList.name, GenericList.listed, GenericList.texts, JsonValue.underFields,
      JsonValue.under]

end MethodName

namespace Handle

theorem ofJson?_toJson (handle : Handle) : ofJson? handle.toJson = some handle := by
  obtain ⟨raw, pos, less⟩ := handle
  have inside : (JsonValue.integer raw).integer? 1 bound = some raw :=
    JsonValue.integer?_eq_some.mpr ⟨rfl, by omega, by omega⟩
  simp only [ofJson?, toJson, inside, Option.bind_eq_bind, Option.bind_some]
  exact dif_pos ⟨pos, less⟩

end Handle

namespace CallStats

/-- The numbers are of their types, and the percentage has a numeral. -/
structure Writable (stats : CallStats) : Prop where
  calls_lt : stats.calls < Count.bound
  ticks_inRange : Ticks.InRange stats.ticks
  percent_isFinite : stats.percent.isFinite

theorem ofJson?_eq_some {value : JsonValue} {stats : CallStats} : ofJson? value = some stats ↔
    ∃ method calls ticks percent,
      value.members? memberNames = some [method, some calls, some ticks, some percent] ∧
        methodOfJson? method = some stats.method ∧
        (calls = .integer stats.calls ∧ stats.calls < Count.bound) ∧
        (ticks = .integer stats.ticks ∧ Ticks.InRange stats.ticks) ∧
        percent.real? = some stats.percent := by
  constructor
  · intro found
    obtain ⟨members, shape, found⟩ := Option.bind_eq_some_iff.mp found
    split at found
    · rename_i method calls ticks percent
      obtain ⟨_, named, found⟩ := Option.bind_eq_some_iff.mp found
      obtain ⟨_, counted, found⟩ := Option.bind_eq_some_iff.mp found
      obtain ⟨_, timed, found⟩ := Option.bind_eq_some_iff.mp found
      obtain ⟨_, shared, found⟩ := Option.bind_eq_some_iff.mp found
      cases found
      exact ⟨method, calls, ticks, percent, shape, named, JsonValue.eq_natural_of_integer? counted,
        JsonValue.integer?_eq_some.mp timed, shared⟩
    · cases found
  · rintro ⟨method, calls, ticks, percent, shape, named, counted, timed, shared⟩
    have counted := JsonValue.integer?_eq_natural.mpr counted
    have timed := JsonValue.integer?_eq_some.mpr timed
    simp only [ofJson?, shape, named, counted, timed, shared, Option.bind_eq_bind, Option.bind_some]
    rfl

theorem methodOfJson?_toJson (method : Option MethodName) :
    methodOfJson? (some ((method.map MethodName.toJson).getD .null)) = some method := by
  cases method with
  | none => rfl
  | some method =>
      have read := method.ofJson?_toJson
      rw [Option.map_some, Option.getD_some, MethodName.toJson] at *
      rw [methodOfJson?, read]
      · rfl
      · simp

theorem ofJson?_toJson {stats : CallStats} (writable : stats.Writable) :
    ofJson? stats.toJson = some stats := by
  refine ofJson?_eq_some.mpr ⟨_, _, _, _, rfl, methodOfJson?_toJson stats.method,
    ⟨rfl, writable.calls_lt⟩, ⟨rfl, writable.ticks_inRange⟩, ?_⟩
  rw [if_pos writable.percent_isFinite]
  exact Option.guard_eq_some_iff.mpr ⟨rfl, writable.percent_isFinite⟩

theorem writable_of_ofJson? {value : JsonValue} {stats : CallStats}
    (found : ofJson? value = some stats) : stats.Writable := by
  obtain ⟨_, _, _, _, -, -, ⟨-, calls⟩, ⟨-, ticks⟩, percent⟩ := ofJson?_eq_some.mp found
  exact ⟨calls, ticks, JsonValue.isFinite_of_real? percent⟩

theorem under_toJson (list : GenericList) (stats : CallStats) :
    stats.toJson.under list.name = stats.method.toList.flatMap list.listed := by
  have percent : JsonValue.under list.name
      (if stats.percent.isFinite then .real stats.percent else .null) = [] := by
    split <;> rfl
  have method : JsonValue.under list.name ((stats.method.map MethodName.toJson).getD .null) =
      stats.method.toList.flatMap list.listed := by
    cases stats.method with
    | none => simp [JsonValue.under]
    | some method => simp [MethodName.under_toJson]
  simp only [toJson, JsonValue.under, JsonValue.underFields, percent, method]
  cases list <;> simp [GenericList.name]

end CallStats

namespace ProfileNode

theorem ofJson?_eq_some {value : JsonValue} {node : ProfileNode} : ofJson? value = some node ↔
    ∃ stats items, value.members? memberNames = some [some stats, some (.array items)] ∧
      CallStats.ofJson? stats = some node.stats ∧
      List.Forall₂ (fun item child => ofJson? item = some child) items node.children := by
  rw [ofJson?]
  split
  · rename_i stats items shape
    simp only [List.mapM_subtype, List.unattach_attach]
    constructor
    · intro found
      obtain ⟨_, own, found⟩ := Option.bind_eq_some_iff.mp found
      obtain ⟨_, below, found⟩ := Option.bind_eq_some_iff.mp found
      cases found
      exact ⟨stats, items, shape, own, JsonValue.mapM_eq_some.mp below⟩
    · rintro ⟨_, _, shape', own, below⟩
      cases shape.symm.trans shape'
      -- A node holds nodes, so that it is equal to the record of its fields only once taken apart.
      cases node
      exact Option.bind_eq_some_iff.mpr
        ⟨_, own, Option.bind_eq_some_iff.mpr ⟨_, JsonValue.mapM_eq_some.mpr below, rfl⟩⟩
  · rename_i other
    constructor
    · intro found
      cases found
    · rintro ⟨stats, items, shape, -⟩
      exact absurd shape (other stats items)

/-- The numbers of all nodes may be written. -/
def Writable (node : ProfileNode) : Prop :=
  ∀ inner ∈ node.preorder, inner.stats.Writable

mutual

theorem ofJson?_toJson : ∀ node : ProfileNode, node.Writable → ofJson? node.toJson = some node
  | ⟨stats, children⟩, writable => by
      rw [Writable, preorder, List.forall_mem_cons] at writable
      rw [toJson]
      exact ofJson?_eq_some.mpr ⟨_, _, rfl, CallStats.ofJson?_toJson writable.1,
        forall₂_listToJson children writable.2⟩

theorem forall₂_listToJson : ∀ nodes : List ProfileNode,
    (∀ inner ∈ preorders nodes, inner.stats.Writable) →
      List.Forall₂ (fun item node => ofJson? item = some node) (listToJson nodes) nodes
  | [], _ => by
      rw [listToJson]
      exact .nil
  | node :: rest, writable => by
      rw [preorders, List.forall_mem_append] at writable
      rw [listToJson]
      exact .cons (ofJson?_toJson node writable.1) (forall₂_listToJson rest writable.2)

end

mutual

theorem writable_of_ofJson? : ∀ (node : ProfileNode) (value : JsonValue),
    ofJson? value = some node → node.Writable
  | ⟨stats, children⟩, value, found => by
      obtain ⟨_, items, -, own, below⟩ := ofJson?_eq_some.mp found
      rw [Writable, preorder, List.forall_mem_cons]
      exact ⟨CallStats.writable_of_ofJson? own, writable_of_forall₂ children items below⟩

theorem writable_of_forall₂ : ∀ (nodes : List ProfileNode) (items : List JsonValue),
    List.Forall₂ (fun item node => ofJson? item = some node) items nodes →
      ∀ inner ∈ preorders nodes, inner.stats.Writable
  | [], _, _ => by
      rw [preorders]
      intro inner member
      cases member
  | node :: rest, [], found => by cases found
  | node :: rest, item :: items, found => by
      obtain ⟨first, further⟩ := List.forall₂_cons.mp found
      rw [preorders, List.forall_mem_append]
      exact ⟨writable_of_ofJson? node item first, writable_of_forall₂ rest items further⟩

end

mutual

theorem under_toJson (list : GenericList) : ∀ node : ProfileNode, node.toJson.under list.name =
    node.preorder.flatMap fun inner => inner.stats.method.toList.flatMap list.listed
  | ⟨stats, children⟩ => by
      rw [toJson, preorder, List.flatMap_cons, ← CallStats.under_toJson, ← underItems_listToJson]
      cases list <;> simp [JsonValue.under, JsonValue.underFields, GenericList.name]

theorem underItems_listToJson (list : GenericList) : ∀ nodes : List ProfileNode,
    JsonValue.underItems list.name (listToJson nodes) =
      (preorders nodes).flatMap fun inner => inner.stats.method.toList.flatMap list.listed
  | [] => rfl
  | node :: rest => by
      rw [listToJson, JsonValue.underItems, preorders, List.flatMap_append, under_toJson,
        underItems_listToJson]

end

end ProfileNode

namespace FoldedStack

theorem ofJson?_eq_some {value : JsonValue} {entry : FoldedStack} : ofJson? value = some entry ↔
    ∃ weight, value.members? memberNames = some [some (.string entry.stack), some weight] ∧
      weight = .integer entry.weight ∧ entry.weight < Count.bound := by
  constructor
  · intro found
    obtain ⟨members, shape, found⟩ := Option.bind_eq_some_iff.mp found
    split at found
    · rename_i stack weight
      obtain ⟨_, named, found⟩ := Option.bind_eq_some_iff.mp found
      obtain ⟨_, weighed, found⟩ := Option.bind_eq_some_iff.mp found
      cases found
      rw [JsonValue.string?_eq_some.mp named] at shape
      exact ⟨weight, shape, JsonValue.eq_natural_of_integer? weighed⟩
    · cases found
  · rintro ⟨weight, shape, weighed⟩
    have weighed := JsonValue.integer?_eq_natural.mpr weighed
    simp only [ofJson?, shape, JsonValue.string?, weighed, Option.bind_eq_bind, Option.bind_some]
    rfl

theorem ofJson?_toJson {entry : FoldedStack} (less : entry.weight < Count.bound) :
    ofJson? entry.toJson = some entry :=
  ofJson?_eq_some.mpr ⟨_, rfl, rfl, less⟩

theorem weight_lt_of_ofJson? {value : JsonValue} {entry : FoldedStack}
    (found : ofJson? value = some entry) : entry.weight < Count.bound := by
  obtain ⟨_, -, -, less⟩ := ofJson?_eq_some.mp found
  exact less

end FoldedStack

/-- Method names, handles, statistics, snapshots of any depth and folded stacks are read back as they
    were written, if their numbers are of their types and percentages are finite. Whatever is read from
    a JSON value is such a one, so that it is read back as well. In what is written for a method, for
    statistics or for a snapshot, the generic lists of all methods are found under their names, in order
    and without those that are empty. -/
theorem json_roundTrips :
    RoundTrips MethodName.toJson MethodName.ofJson? (fun _ => True) ∧
      RoundTrips Handle.toJson Handle.ofJson? (fun _ => True) ∧
      RoundTrips CallStats.toJson CallStats.ofJson? CallStats.Writable ∧
      RoundTrips ProfileNode.toJson ProfileNode.ofJson? ProfileNode.Writable ∧
      RoundTrips FoldedStack.toJson FoldedStack.ofJson? (·.weight < Count.bound) ∧
      ∀ list : GenericList,
        (∀ method : MethodName, method.toJson.under list.name = list.listed method) ∧
          (∀ stats : CallStats,
            stats.toJson.under list.name = stats.method.toList.flatMap list.listed) ∧
          ∀ node : ProfileNode, node.toJson.under list.name =
            node.preorder.flatMap fun inner => inner.stats.method.toList.flatMap list.listed :=
  ⟨.intro (fun method _ => method.ofJson?_toJson) fun _ _ _ => trivial,
    .intro (fun handle _ => handle.ofJson?_toJson) fun _ _ _ => trivial,
    .intro (fun _ => CallStats.ofJson?_toJson) fun _ _ => CallStats.writable_of_ofJson?,
    .intro ProfileNode.ofJson?_toJson fun value node => node.writable_of_ofJson? value,
    .intro (fun _ => FoldedStack.ofJson?_toJson) fun _ _ => FoldedStack.weight_lt_of_ofJson?,
    fun list => ⟨MethodName.under_toJson list, CallStats.under_toJson list,
      ProfileNode.under_toJson list⟩⟩

/-- A snapshot of one method and a generic one that it calls. -/
def storedSnapshot (caller callee : MethodName) : ProfileNode :=
  { stats := { method := none, calls := 0, ticks := 0 }
    children := [
      { stats := { method := caller, calls := 1, ticks := 1000, percent := 100.0 }
        children := [
          { stats := { method := callee, calls := 7, ticks := -250, percent := -25.0 }
            children := [] }] }] }

theorem storedSnapshot_roundTrips :
    let node := storedSnapshot ⟨"App", "Main", [], []⟩ ⟨"App.Cache", "Get", ["K"], []⟩
    node.Writable ∧ ProfileNode.ofJson? node.toJson = some node ∧
      node.toJson.under "generic_parameters" = [.array [.string "K"]] ∧
      node.toJson.under "generic_arguments" = [] := by
  obtain ⟨-, -, -, nodes, -, lists⟩ := json_roundTrips
  intro node
  have writable : node.Writable := by
    intro inner member
    simp only [node, storedSnapshot, ProfileNode.preorder, ProfileNode.preorders, List.append_nil,
      List.mem_cons, List.not_mem_nil, or_false] at member
    rcases member with rfl | rfl | rfl <;> exact ⟨by decide, by decide, by decide⟩
  exact ⟨writable, (nodes.written node).mpr writable, (lists .parameters).2.2 node,
    (lists .arguments).2.2 node⟩

end CilProfiler
