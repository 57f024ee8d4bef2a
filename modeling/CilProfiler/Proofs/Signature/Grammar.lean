import CilProfiler.Signature.Parse
import CilProfiler.Proofs.Signature.Compressed

/-! # The grammar of method signatures

Signatures and the types in them as derivations of a grammar. A derivation carries what makes it
one: which bytes stand for which kind of type, the depth up to which types nest, and that as many
parts follow as a count announces. Its bytes are read off; no two derivations of one symbol begin a
blob in different ways.
-/

namespace CilProfiler

/-- First bytes of the types of a kind. -/
def ElementKind.elements : ElementKind → List UInt8
  | .simple => [0x01, 0x02, 0x03, 0x04, 0x05, 0x06, 0x07, 0x08, 0x09, 0x0A, 0x0B, 0x0C, 0x0D, 0x0E,
      0x16, 0x18, 0x19, 0x1C]
  | .indexed => [0x11, 0x12, 0x13, 0x1E]
  | .wrapper => [0x0F, 0x10, 0x1D, 0x45]
  | .modifier => [0x1F, 0x20]
  | .genericInstance => [0x15]
  | .array => [0x14]
  | .functionPointer => [0x1B]

/-- A custom modifier with its token. -/
structure Modifier where
  element : UInt8
  named : element ∈ ElementKind.modifier.elements
  token : Compressed

/-- A counted list of integers. -/
structure Counted where
  count : Compressed
  items : List Compressed
  counted : items.length = count.value

inductive SignatureSymbol where
  | type (depth : Nat)
  /-- What follows the first byte of a type. -/
  | operand (depth : Nat) (kind : ElementKind)
  | types (depth count : Nat)
  | result (depth : Nat)
  | parameters (depth count : Nat)
  | signature (depth : Nat)

inductive Derivation : SignatureSymbol → Type where
  | type {depth : Nat} (nested : depth ≤ 64) {kind : ElementKind} (element : UInt8)
      (named : element ∈ kind.elements) (operand : Derivation (.operand depth kind)) :
      Derivation (.type depth)
  | simple {depth : Nat} : Derivation (.operand depth .simple)
  | indexed {depth : Nat} (index : Compressed) : Derivation (.operand depth .indexed)
  | wrapper {depth : Nat} (target : Derivation (.type (depth + 1))) :
      Derivation (.operand depth .wrapper)
  | modifier {depth : Nat} (token : Compressed) (target : Derivation (.type (depth + 1))) :
      Derivation (.operand depth .modifier)
  | genericInstance {depth : Nat} (definition : Derivation (.type (depth + 1))) (count : Compressed)
      (arguments : Derivation (.types (depth + 1) count.value)) :
      Derivation (.operand depth .genericInstance)
  | array {depth : Nat} (item : Derivation (.type (depth + 1))) (rank : Compressed)
      (sizes bounds : Counted) : Derivation (.operand depth .array)
  | functionPointer {depth : Nat} (callee : Derivation (.signature (depth + 1))) :
      Derivation (.operand depth .functionPointer)
  | noTypes {depth : Nat} : Derivation (.types depth 0)
  | moreTypes {depth count : Nat} (first : Derivation (.type depth))
      (rest : Derivation (.types depth count)) : Derivation (.types depth (count + 1))
  | void {depth : Nat} : Derivation (.result depth)
  /-- A result type is neither the one that stands for no value nor a modified type, whose
      modifiers belong to the signature. -/
  | value {depth : Nat} (nested : depth ≤ 64) {kind : ElementKind} (element : UInt8)
      (named : element ∈ kind.elements) (proper : element ∉ [0x01, 0x1F, 0x20])
      (operand : Derivation (.operand depth kind)) : Derivation (.result depth)
  | noParameters {depth : Nat} : Derivation (.parameters depth 0)
  | moreParameters {depth count : Nat} (sentinel : Bool) (first : Derivation (.type depth))
      (rest : Derivation (.parameters depth count)) : Derivation (.parameters depth (count + 1))
  | signature {depth : Nat} (convention : UInt8) (method : convention &&& 0x0F ≤ 0x05)
      (generics : Option Compressed) (generic : generics.isSome ↔ convention &&& 0x10 ≠ 0)
      (count : Compressed) (modifiers : List Modifier) (result : Derivation (.result (depth + 1)))
      (parameters : Derivation (.parameters (depth + 1) count.value)) :
      Derivation (.signature depth)

def Modifier.bytes (modifier : Modifier) : List UInt8 :=
  modifier.element :: modifier.token.bytes

def Counted.bytes (list : Counted) : List UInt8 :=
  list.count.bytes ++ list.items.flatMap Compressed.bytes

namespace Derivation

def bytes {symbol : SignatureSymbol} : Derivation symbol → List UInt8
  | type _ element _ operand => element :: operand.bytes
  | simple => []
  | indexed index => index.bytes
  | wrapper target => target.bytes
  | modifier token target => token.bytes ++ target.bytes
  | genericInstance definition count arguments =>
      definition.bytes ++ (count.bytes ++ arguments.bytes)
  | array item rank sizes bounds => item.bytes ++ (rank.bytes ++ (sizes.bytes ++ bounds.bytes))
  | functionPointer callee => callee.bytes
  | noTypes => []
  | moreTypes first rest => first.bytes ++ rest.bytes
  | void => [0x01]
  | value _ element _ _ operand => element :: operand.bytes
  | noParameters => []
  | moreParameters sentinel first rest =>
      (if sentinel then [0x41] else []) ++ (first.bytes ++ rest.bytes)
  | signature convention _ generics _ count modifiers result parameters =>
      convention :: (generics.elim [] Compressed.bytes ++ (count.bytes ++
        (modifiers.flatMap Modifier.bytes ++ (result.bytes ++ parameters.bytes))))

def isVoid {depth : Nat} : Derivation (.result depth) → Bool
  | void => true
  | value .. => false

def shape {depth : Nat} : Derivation (.signature depth) → CallShape
  | signature convention _ _ _ count _ result _ => {
      hasThis := convention &&& 0x20 ≠ 0
      explicitThis := convention &&& 0x40 ≠ 0
      paramCount := count.value
      hasReturn := !result.isVoid }

end Derivation

theorem ElementKind.ofByte?_of_mem {kind : ElementKind} {element : UInt8}
    (named : element ∈ kind.elements) : ofByte? element = some kind := by
  revert element
  cases kind <;> decide +kernel

/-- A byte names at most one kind of type. -/
theorem ElementKind.eq_of_mem {kind other : ElementKind} {element : UInt8}
    (named : element ∈ kind.elements) (named' : element ∈ other.elements) : kind = other :=
  Option.some.inj ((ofByte?_of_mem named).symm.trans (ofByte?_of_mem named'))

theorem ElementKind.ne_sentinel {kind : ElementKind} {element : UInt8}
    (named : element ∈ kind.elements) : element ≠ 0x41 := by
  revert element
  cases kind <;> decide +kernel

/-- A list of encodings of known length ends at one place only. -/
theorem Compressed.list_unambiguous {forms others : List Compressed} {rest rest' : List UInt8}
    (length : forms.length = others.length)
    (same : forms.flatMap bytes ++ rest = others.flatMap bytes ++ rest') :
    forms = others ∧ rest = rest' := by
  induction forms generalizing others with
  | nil =>
      cases others with
      | nil => exact ⟨rfl, same⟩
      | cons => cases length
  | cons form forms ih =>
      cases others with
      | nil => cases length
      | cons other others =>
          simp only [List.flatMap_cons, List.append_assoc] at same
          obtain ⟨rfl, tail⟩ := unambiguous same
          obtain ⟨rfl, behind⟩ := ih (Nat.succ.inj length) tail
          exact ⟨rfl, behind⟩

theorem Compressed.option_unambiguous {form other : Option Compressed} {rest rest' : List UInt8}
    (present : form.isSome ↔ other.isSome)
    (same : form.elim [] bytes ++ rest = other.elim [] bytes ++ rest') :
    form = other ∧ rest = rest' := by
  cases form with
  | none =>
      cases other with
      | none => exact ⟨rfl, same⟩
      | some => simp at present
  | some form =>
      cases other with
      | none => simp at present
      | some other =>
          obtain ⟨rfl, tail⟩ := unambiguous same
          exact ⟨rfl, tail⟩

theorem Counted.unambiguous {list other : Counted} {rest rest' : List UInt8}
    (same : list.bytes ++ rest = other.bytes ++ rest') : list = other ∧ rest = rest' := by
  obtain ⟨count, items, counted⟩ := list
  obtain ⟨count', items', counted'⟩ := other
  simp only [bytes, List.append_assoc] at same
  obtain ⟨rfl, tail⟩ := Compressed.unambiguous same
  obtain ⟨rfl, behind⟩ := Compressed.list_unambiguous (counted.trans counted'.symm) tail
  exact ⟨rfl, behind⟩

/-- Modifiers end where the next byte is none of theirs. -/
theorem Modifier.list_unambiguous {modifiers others : List Modifier} {rest rest' : List UInt8}
    (plain : ∀ next tail, rest = next :: tail → next ∉ ElementKind.modifier.elements)
    (plain' : ∀ next tail, rest' = next :: tail → next ∉ ElementKind.modifier.elements)
    (same : modifiers.flatMap bytes ++ rest = others.flatMap bytes ++ rest') :
    modifiers = others ∧ rest = rest' := by
  induction modifiers generalizing others with
  | nil =>
      cases others with
      | nil => exact ⟨rfl, same⟩
      | cons other others => exact absurd other.named (plain _ _ same)
  | cons modifier modifiers ih =>
      cases others with
      | nil => exact absurd modifier.named (plain' _ _ same.symm)
      | cons other others =>
          obtain ⟨element, named, token⟩ := modifier
          obtain ⟨element', named', token'⟩ := other
          simp only [List.flatMap_cons, bytes, List.cons_append, List.append_assoc] at same
          obtain ⟨rfl, tail⟩ := List.cons.inj same
          obtain ⟨rfl, behind⟩ := Compressed.unambiguous tail
          obtain ⟨rfl, ending⟩ := ih behind
          exact ⟨rfl, ending⟩

namespace Derivation

variable {depth : Nat}

theorem type_bytes (derivation : Derivation (.type depth)) :
    ∃ element tail, derivation.bytes = element :: tail ∧ element ≠ 0x41 := by
  cases derivation with
  | type nested element named operand => exact ⟨element, _, rfl, ElementKind.ne_sentinel named⟩

theorem result_bytes (derivation : Derivation (.result depth)) :
    ∃ next tail, derivation.bytes = next :: tail := by
  cases derivation with
  | void => exact ⟨0x01, [], rfl⟩
  | value nested element named proper operand => exact ⟨element, operand.bytes, rfl⟩

/-- What stands for a result begins with no modifier. -/
theorem result_head (derivation : Derivation (.result depth)) {rest tail : List UInt8} {next : UInt8}
    (head : derivation.bytes ++ rest = next :: tail) : next ∉ ElementKind.modifier.elements := by
  cases derivation with
  | void =>
      obtain ⟨rfl, _⟩ := List.cons.inj head
      decide
  | value nested element named proper operand =>
      obtain ⟨rfl, _⟩ := List.cons.inj head
      exact fun modified => proper (List.mem_cons_of_mem _ modified)

/-- The byte in front of a parameter is told apart from the parameter's type. -/
theorem sentinel_unambiguous {sentinel other : Bool} (first first' : Derivation (.type depth))
    {rest rest' : List UInt8}
    (same : (if sentinel then [0x41] else []) ++ (first.bytes ++ rest) =
      (if other then [0x41] else []) ++ (first'.bytes ++ rest')) :
    sentinel = other ∧ first.bytes ++ rest = first'.bytes ++ rest' := by
  obtain ⟨element, tail, head, plain⟩ := first.type_bytes
  obtain ⟨element', tail', head', plain'⟩ := first'.type_bytes
  rw [head, head'] at same ⊢
  cases sentinel with
  | false =>
      cases other with
      | false => exact ⟨rfl, same⟩
      | true => exact absurd (List.cons.inj same).1 plain
  | true =>
      cases other with
      | false => exact absurd (List.cons.inj same).1.symm plain'
      | true => exact ⟨rfl, (List.cons.inj same).2⟩

/-- Two derivations of one symbol that begin a blob are the same, and end at the same place. -/
theorem unambiguous {symbol : SignatureSymbol} (derivation other : Derivation symbol)
    {rest rest' : List UInt8} (same : derivation.bytes ++ rest = other.bytes ++ rest') :
    derivation = other ∧ rest = rest' := by
  induction derivation generalizing rest rest' with
  | type nested element named operand ih =>
      cases other with
      | type nested' element' named' operand' =>
          obtain ⟨rfl, tail⟩ := List.cons.inj same
          obtain rfl := ElementKind.eq_of_mem named named'
          obtain ⟨rfl, behind⟩ := ih operand' tail
          exact ⟨rfl, behind⟩
  | simple =>
      cases other with
      | simple => exact ⟨rfl, same⟩
  | indexed index =>
      cases other with
      | indexed index' =>
          obtain ⟨rfl, tail⟩ := Compressed.unambiguous same
          exact ⟨rfl, tail⟩
  | wrapper target ih =>
      cases other with
      | wrapper target' =>
          obtain ⟨rfl, tail⟩ := ih target' same
          exact ⟨rfl, tail⟩
  | modifier token target ih =>
      cases other with
      | modifier token' target' =>
          simp only [bytes, List.append_assoc] at same
          obtain ⟨rfl, tail⟩ := Compressed.unambiguous same
          obtain ⟨rfl, behind⟩ := ih target' tail
          exact ⟨rfl, behind⟩
  | genericInstance definition count arguments ih ih' =>
      cases other with
      | genericInstance definition' count' arguments' =>
          simp only [bytes, List.append_assoc] at same
          obtain ⟨rfl, tail⟩ := ih definition' same
          obtain ⟨rfl, behind⟩ := Compressed.unambiguous tail
          obtain ⟨rfl, ending⟩ := ih' arguments' behind
          exact ⟨rfl, ending⟩
  | array item rank sizes bounds ih =>
      cases other with
      | array item' rank' sizes' bounds' =>
          simp only [bytes, List.append_assoc] at same
          obtain ⟨rfl, tail⟩ := ih item' same
          obtain ⟨rfl, behind⟩ := Compressed.unambiguous tail
          obtain ⟨rfl, lists⟩ := Counted.unambiguous behind
          obtain ⟨rfl, ending⟩ := Counted.unambiguous lists
          exact ⟨rfl, ending⟩
  | functionPointer callee ih =>
      cases other with
      | functionPointer callee' =>
          obtain ⟨rfl, tail⟩ := ih callee' same
          exact ⟨rfl, tail⟩
  | noTypes =>
      cases other with
      | noTypes => exact ⟨rfl, same⟩
  | moreTypes first others ih ih' =>
      cases other with
      | moreTypes first' others' =>
          simp only [bytes, List.append_assoc] at same
          obtain ⟨rfl, tail⟩ := ih first' same
          obtain ⟨rfl, behind⟩ := ih' others' tail
          exact ⟨rfl, behind⟩
  | void =>
      cases other with
      | void => exact ⟨rfl, (List.cons.inj same).2⟩
      | value nested element named proper operand =>
          obtain ⟨rfl, _⟩ := List.cons.inj same
          exact absurd (List.mem_cons_self ..) proper
  | value nested element named proper operand ih =>
      cases other with
      | void =>
          obtain ⟨rfl, _⟩ := List.cons.inj same
          exact absurd (List.mem_cons_self ..) proper
      | value nested' element' named' proper' operand' =>
          obtain ⟨rfl, tail⟩ := List.cons.inj same
          obtain rfl := ElementKind.eq_of_mem named named'
          obtain ⟨rfl, behind⟩ := ih operand' tail
          exact ⟨rfl, behind⟩
  | noParameters =>
      cases other with
      | noParameters => exact ⟨rfl, same⟩
  | moreParameters sentinel first others ih ih' =>
      cases other with
      | moreParameters sentinel' first' others' =>
          simp only [bytes, List.append_assoc] at same
          obtain ⟨rfl, tail⟩ := sentinel_unambiguous first first' same
          obtain ⟨rfl, behind⟩ := ih first' tail
          obtain ⟨rfl, ending⟩ := ih' others' behind
          exact ⟨rfl, ending⟩
  | signature convention method generics generic count modifiers result parameters ih ih' =>
      cases other with
      | signature convention' method' generics' generic' count' modifiers' result' parameters' =>
          simp only [bytes, List.cons_append, List.append_assoc] at same
          obtain ⟨rfl, head⟩ := List.cons.inj same
          obtain ⟨rfl, tail⟩ := Compressed.option_unambiguous (generic.trans generic'.symm) head
          obtain ⟨rfl, behind⟩ := Compressed.unambiguous tail
          obtain ⟨rfl, body⟩ := Modifier.list_unambiguous (fun _ _ => result.result_head)
            (fun _ _ => result'.result_head) behind
          obtain ⟨rfl, rear⟩ := ih result' body
          obtain ⟨rfl, ending⟩ := ih' parameters' rear
          exact ⟨rfl, ending⟩

end Derivation
end CilProfiler
