import CilProfiler.Proofs.Outcome
import CilProfiler.Proofs.Signature.Grammar

/-! # The parser accepts its grammar

Every reader takes exactly the bytes of the derivations of its symbol. The readers for types and
for signatures call each other with growing depth, so that the proof goes down from the deepest
types; within a type it follows the kinds.
-/

namespace CilProfiler

/-- The table of first bytes and the reader's classification are the same. -/
theorem ElementKind.ofByte?_eq_some {kind : ElementKind} {element : UInt8} :
    ofByte? element = some kind ↔ element ∈ kind.elements := by
  refine ⟨fun named => ?_, ofByte?_of_mem⟩
  have every : ∀ number : Fin 256, ∀ kind ∈ ofByte? (.ofNat number),
      UInt8.ofNat number ∈ kind.elements := by decide +kernel
  have here := every ⟨element.toNat, element.toNat_lt⟩ kind
  rw [UInt8.ofNat_toNat] at here
  exact here named

namespace Reader

variable {α : Type} {cursor after : Cursor} {depth count : Nat} {walk : Reader Unit}

theorem fail_eq_ok {reason : BlobError} {value : α} :
    fail reason cursor = .ok (value, after) ↔ False :=
  iff_false_intro nofun

/-- A byte that is accepted is taken, any other is left in place. -/
theorem accept_eq_ok {expected : UInt8} {found : Bool} :
    accept expected cursor = .ok (found, after) ↔
      (found = true ∧ cursor.Takes [expected] after) ∨
        (found = false ∧ after = cursor ∧ ∃ next tail, cursor.rest = next :: tail ∧ next ≠ expected) := by
  obtain ⟨position, rest⟩ := cursor
  cases rest with
  | nil =>
      constructor
      · intro taken
        cases taken
      · rintro (⟨_, rest, _⟩ | ⟨_, _, next, tail, rest, _⟩)
        · cases rest
        · cases rest
  | cons next tail =>
      have looked : accept expected ⟨position, next :: tail⟩ = (if next = expected then do
          let _ ← byte
          return true
        else
          return false : Reader Bool) ⟨position, next :: tail⟩ := rfl
      rw [looked]
      split
      · rename_i same
        subst same
        rw [bind_eq_ok_iff]
        simp only [byte_eq_ok, pure_eq_ok]
        constructor
        · rintro ⟨lead, middle, taken, rfl, rfl⟩
          obtain ⟨rfl, _⟩ := List.cons.inj taken.rest
          exact .inl ⟨rfl, taken⟩
        · rintro (⟨rfl, taken⟩ | ⟨_, _, other, _, rest, different⟩)
          · exact ⟨next, after, taken, rfl, rfl⟩
          · exact absurd (List.cons.inj rest).1.symm different
      · rename_i different
        rw [pure_eq_ok]
        constructor
        · rintro ⟨rfl, rfl⟩
          exact .inr ⟨rfl, rfl, next, tail, rfl, different⟩
        · rintro (⟨_, taken⟩ | ⟨rfl, rfl, _⟩)
          · exact absurd (List.cons.inj taken.rest).1 different
          · exact ⟨rfl, rfl⟩

/-- Modifiers are walked over up to a byte that is none of theirs, which has to be there. -/
theorem walkModifiers_eq_ok :
    walkModifiers cursor = .ok ((), after) ↔
      ∃ modifiers : List Modifier, cursor.Takes (modifiers.flatMap Modifier.bytes) after ∧
        ∃ next tail, after.rest = next :: tail ∧ next ∉ ElementKind.modifier.elements := by
  fun_induction walkModifiers cursor with
  | case1 cursor empty =>
      constructor
      · intro taken
        cases taken
      · rintro ⟨modifiers, taken, next, tail, behind, _⟩
        have rest := taken.rest
        rw [empty, behind] at rest
        simp at rest
  | case2 cursor lead rest there named reason failed =>
      rw [ElementKind.ofByte?_eq_some] at named
      constructor
      · intro taken
        cases taken
      · rintro ⟨modifiers, taken, next, tail, behind, plain⟩
        cases modifiers with
        | nil =>
            rw [Cursor.takes_nil.mp taken, there] at behind
            obtain ⟨rfl, _⟩ := List.cons.inj behind
            exact absurd named plain
        | cons modifier modifiers =>
            obtain ⟨_, taken⟩ := (Cursor.takes_cons_of_rest there).mp taken
            obtain ⟨middle, token, _⟩ := Cursor.takes_append.mp taken
            cases failed.symm.trans (compressed_of_form modifier.token token)
  | case3 cursor lead rest there named number middle read ih =>
      rw [ElementKind.ofByte?_eq_some] at named
      rw [ih]
      constructor
      · rintro ⟨modifiers, taken, ends⟩
        obtain ⟨token, first, _⟩ := form_of_compressed read
        refine ⟨⟨lead, named, token⟩ :: modifiers, ?_, ends⟩
        exact (Cursor.takes_cons_of_rest there).mpr ⟨rfl, Cursor.takes_append.mpr ⟨middle, first, taken⟩⟩
      · rintro ⟨modifiers, taken, next, tail, behind, plain⟩
        cases modifiers with
        | nil =>
            rw [Cursor.takes_nil.mp taken, there] at behind
            obtain ⟨rfl, _⟩ := List.cons.inj behind
            exact absurd named plain
        | cons modifier modifiers =>
            obtain ⟨_, taken⟩ := (Cursor.takes_cons_of_rest there).mp taken
            obtain ⟨middle', token, later⟩ := Cursor.takes_append.mp taken
            have same := read.symm.trans (compressed_of_form modifier.token token)
            injection same with pair
            injection pair with _ same
            subst same
            exact ⟨modifiers, later, next, tail, behind, plain⟩
  | case4 cursor lead rest there plain =>
      rw [ElementKind.ofByte?_eq_some] at plain
      constructor
      · intro taken
        cases taken
        exact ⟨[], Cursor.takes_nil.mpr rfl, lead, rest, there, plain⟩
      · rintro ⟨modifiers, taken, _⟩
        cases modifiers with
        | nil => rw [Cursor.takes_nil.mp taken]
        | cons modifier modifiers =>
            obtain ⟨rfl, _⟩ := List.cons.inj (there.symm.trans taken.rest)
            exact absurd modifier.named plain

theorem skip_eq_ok :
    (do let _ ← compressed : Reader Unit) cursor = .ok ((), after) ↔
      ∃ form : Compressed, cursor.Takes form.bytes after := by
  rw [bind_eq_ok_iff]
  constructor
  · rintro ⟨number, middle, taken, same⟩
    obtain ⟨_, rfl⟩ := pure_eq_ok.mp same
    obtain ⟨form, takes, _⟩ := form_of_compressed taken
    exact ⟨form, takes⟩
  · rintro ⟨form, takes⟩
    exact ⟨form.value, after, compressed_of_form form takes, rfl⟩

theorem times_skip_eq_ok :
    times (do let _ ← compressed) count cursor = .ok ((), after) ↔
      ∃ items : List Compressed, items.length = count ∧
        cursor.Takes (items.flatMap Compressed.bytes) after := by
  induction count generalizing cursor with
  | zero =>
      rw [times, pure_eq_ok]
      constructor
      · rintro ⟨_, same⟩
        exact ⟨[], rfl, Cursor.takes_nil.mpr same⟩
      · rintro ⟨items, length, takes⟩
        rw [List.eq_nil_of_length_eq_zero length] at takes
        exact ⟨rfl, Cursor.takes_nil.mp takes⟩
  | succ count ih =>
      rw [times, bind_eq_ok_iff]
      constructor
      · rintro ⟨_, middle, first, rest⟩
        obtain ⟨item, takes⟩ := skip_eq_ok.mp first
        obtain ⟨items, length, takes'⟩ := ih.mp rest
        exact ⟨item :: items, congrArg (· + 1) length, Cursor.takes_append.mpr ⟨middle, takes, takes'⟩⟩
      · rintro ⟨items, length, whole⟩
        cases items with
        | nil => cases length
        | cons item items =>
            obtain ⟨middle, takes, takes'⟩ := Cursor.takes_append.mp whole
            exact ⟨(), middle, skip_eq_ok.mpr ⟨item, takes⟩,
              ih.mpr ⟨items, Nat.succ.inj length, takes'⟩⟩

theorem walkCounted_eq_ok :
    walkCounted cursor = .ok ((), after) ↔ ∃ list : Counted, cursor.Takes list.bytes after := by
  rw [walkCounted, bind_eq_ok_iff]
  constructor
  · rintro ⟨_, middle, counted, rest⟩
    obtain ⟨count, takes, rfl⟩ := form_of_compressed counted
    obtain ⟨items, length, takes'⟩ := times_skip_eq_ok.mp rest
    exact ⟨⟨count, items, length⟩, Cursor.takes_append.mpr ⟨middle, takes, takes'⟩⟩
  · rintro ⟨⟨count, items, length⟩, whole⟩
    obtain ⟨middle, takes, takes'⟩ := Cursor.takes_append.mp whole
    exact ⟨count.value, middle, compressed_of_form count takes, times_skip_eq_ok.mpr ⟨items, length, takes'⟩⟩

/-- The reader takes exactly the bytes of the derivations of a symbol. -/
def Walks (read : Reader Unit) (symbol : SignatureSymbol) : Prop :=
  ∀ cursor after, read cursor = .ok ((), after) ↔
    ∃ derivation : Derivation symbol, cursor.Takes derivation.bytes after

theorem times_walks (walks : walk.Walks (.type depth)) : (times walk count).Walks (.types depth count) := by
  induction count with
  | zero =>
      intro cursor after
      rw [times, pure_eq_ok]
      constructor
      · rintro ⟨_, same⟩
        exact ⟨.noTypes, Cursor.takes_nil.mpr same⟩
      · rintro ⟨derivation, takes⟩
        cases derivation with
        | noTypes => exact ⟨rfl, Cursor.takes_nil.mp takes⟩
  | succ count ih =>
      intro cursor after
      rw [times, bind_eq_ok_iff]
      constructor
      · rintro ⟨_, middle, first, rest⟩
        obtain ⟨first, takes⟩ := (walks cursor middle).mp first
        obtain ⟨rest, takes'⟩ := (ih middle after).mp rest
        exact ⟨.moreTypes first rest, Cursor.takes_append.mpr ⟨middle, takes, takes'⟩⟩
      · rintro ⟨derivation, whole⟩
        cases derivation with
        | moreTypes first rest =>
            obtain ⟨middle, takes, takes'⟩ := Cursor.takes_append.mp whole
            exact ⟨(), middle, (walks cursor middle).mpr ⟨first, takes⟩,
              (ih middle after).mpr ⟨rest, takes'⟩⟩

/-- A parameter may have the byte in front that starts the variable part. -/
theorem parameters_walks (walks : walk.Walks (.type depth)) :
    (times (do let _ ← accept sentinel; walk) count).Walks (.parameters depth count) := by
  induction count with
  | zero =>
      intro cursor after
      rw [times, pure_eq_ok]
      constructor
      · rintro ⟨_, same⟩
        exact ⟨.noParameters, Cursor.takes_nil.mpr same⟩
      · rintro ⟨derivation, takes⟩
        cases derivation with
        | noParameters => exact ⟨rfl, Cursor.takes_nil.mp takes⟩
  | succ count ih =>
      intro cursor after
      rw [times, bind_eq_ok_iff]
      constructor
      · rintro ⟨_, middle, first, rest⟩
        obtain ⟨found, start, accepted, first⟩ := bind_eq_ok first
        obtain ⟨first, takes⟩ := (walks start middle).mp first
        obtain ⟨rest, takes'⟩ := (ih middle after).mp rest
        refine ⟨.moreParameters found first rest, Cursor.takes_append.mpr ⟨start, ?_,
          Cursor.takes_append.mpr ⟨middle, takes, takes'⟩⟩⟩
        rcases accept_eq_ok.mp accepted with ⟨rfl, taken⟩ | ⟨rfl, rfl, _⟩
        · exact taken
        · exact Cursor.takes_nil.mpr rfl
      · rintro ⟨derivation, whole⟩
        cases derivation with
        | moreParameters found first rest =>
            obtain ⟨start, accepted, behind⟩ := Cursor.takes_append.mp whole
            obtain ⟨middle, takes, takes'⟩ := Cursor.takes_append.mp behind
            refine ⟨(), middle, bind_eq_ok_iff.mpr ⟨found, start, accept_eq_ok.mpr ?_,
              (walks start middle).mpr ⟨first, takes⟩⟩, (ih middle after).mpr ⟨rest, takes'⟩⟩
            cases found with
            | true => exact .inl ⟨rfl, accepted⟩
            | false =>
                obtain ⟨element, tail, head, plain⟩ := first.type_bytes
                have same := Cursor.takes_nil.mp accepted
                refine .inr ⟨rfl, same, element, tail ++ middle.rest, ?_, plain⟩
                rw [← same, takes.rest, head]
                rfl

/-- The count of generic parameters, where the convention announces one. -/
def generics (convention : UInt8) : Reader Unit :=
  if convention &&& 0x10 ≠ 0 then do let _ ← compressed else pure ()

/-- Modifiers and result of a signature; tells whether there is no value. -/
def result (walk : Reader Unit) : Reader Bool := do
  walkModifiers
  let isVoid ← accept void
  unless isVoid do
    walk
  return isVoid

theorem methodShape_eq (walk : Reader Unit) :
    methodShape walk = (do
      let convention ← byte
      if 0x05 < convention &&& 0x0F then
        fail (.notAMethodSignature convention)
      else
        generics convention
        let paramCount ← compressed
        let isVoid ← result walk
        times (do let _ ← accept sentinel; walk) paramCount
        return {
          hasThis := convention &&& 0x20 ≠ 0
          explicitThis := convention &&& 0x40 ≠ 0
          paramCount
          hasReturn := !isVoid }) := by
  unfold methodShape generics result
  congr
  funext convention
  split
  · rfl
  · split
    all_goals
      simp only [bind_assoc, pure_bind]
      repeat refine bind_congr fun _ => ?_
      split <;> simp only [bind_assoc, pure_bind]

theorem result_eq_ok (walks : walk.Walks (.type depth)) {isVoid : Bool} :
    result walk cursor = .ok (isVoid, after) ↔
      ∃ (modifiers : List Modifier) (derivation : Derivation (.result depth)),
        cursor.Takes (modifiers.flatMap Modifier.bytes ++ derivation.bytes) after ∧
          derivation.isVoid = isVoid := by
  rw [result, bind_eq_ok_iff]
  constructor
  · rintro ⟨_, start, modified, taken⟩
    obtain ⟨modifiers, takes, next, tail, head, plain⟩ := walkModifiers_eq_ok.mp modified
    obtain ⟨found, middle, accepted, decided⟩ := bind_eq_ok taken
    rcases accept_eq_ok.mp accepted with ⟨rfl, first⟩ | ⟨rfl, rfl, next', tail', head', other⟩
    · obtain ⟨rfl, rfl⟩ := pure_eq_ok.mp decided
      exact ⟨modifiers, .void, Cursor.takes_append.mpr ⟨start, takes, first⟩, rfl⟩
    · obtain ⟨_, behind, walked, same⟩ := bind_eq_ok decided
      obtain ⟨rfl, rfl⟩ := pure_eq_ok.mp same
      obtain ⟨derivation, takes'⟩ := (walks _ _).mp walked
      cases derivation with
      | type nested element named operand =>
          obtain ⟨rfl, _⟩ := List.cons.inj (head.symm.trans takes'.rest)
          obtain ⟨rfl, _⟩ := List.cons.inj (head'.symm.trans head)
          have proper : next' ∉ [0x01, 0x1F, 0x20] := List.not_mem_cons_of_ne_of_not_mem other plain
          exact ⟨modifiers, .value nested next' named proper operand,
            Cursor.takes_append.mpr ⟨_, takes, takes'⟩, rfl⟩
  · rintro ⟨modifiers, derivation, whole, rfl⟩
    obtain ⟨start, takes, behind⟩ := Cursor.takes_append.mp whole
    have ends : ∃ next tail, start.rest = next :: tail ∧ next ∉ ElementKind.modifier.elements := by
      obtain ⟨next, tail, head⟩ := derivation.result_bytes
      have there : start.rest = next :: (tail ++ after.rest) := by rw [behind.rest, head]; rfl
      exact ⟨next, _, there, derivation.result_head (behind.rest.symm.trans there)⟩
    refine ⟨(), start, walkModifiers_eq_ok.mpr ⟨modifiers, takes, ends⟩, ?_⟩
    cases derivation with
    | void =>
        exact bind_eq_ok_iff.mpr ⟨true, after, accept_eq_ok.mpr (.inl ⟨rfl, behind⟩), rfl⟩
    | value nested element named proper operand =>
        have plain : element ≠ Reader.void := List.ne_of_not_mem_cons proper
        refine bind_eq_ok_iff.mpr ⟨false, start,
          accept_eq_ok.mpr (.inr ⟨rfl, rfl, element, _, behind.rest, plain⟩), ?_⟩
        exact bind_eq_ok_iff.mpr ⟨(), after,
          (walks start after).mpr ⟨.type nested element named operand, behind⟩, rfl⟩

theorem generics_eq_ok {convention : UInt8} :
    generics convention cursor = .ok ((), after) ↔
      ∃ form : Option Compressed, (form.isSome ↔ convention &&& 0x10 ≠ 0) ∧
        cursor.Takes (form.elim [] Compressed.bytes) after := by
  unfold generics
  split
  · rename_i generic
    rw [skip_eq_ok]
    constructor
    · rintro ⟨form, takes⟩
      exact ⟨some form, by simpa using generic, takes⟩
    · rintro ⟨form, present, takes⟩
      cases form with
      | none => simp [generic] at present
      | some form => exact ⟨form, takes⟩
  · rename_i plain
    rw [pure_eq_ok]
    constructor
    · rintro ⟨_, same⟩
      exact ⟨none, by simpa using plain, Cursor.takes_nil.mpr same⟩
    · rintro ⟨form, present, takes⟩
      cases form with
      | none => exact ⟨rfl, Cursor.takes_nil.mp takes⟩
      | some form => exact absurd (present.mp rfl) plain

/-- Signatures are read as they are derived, if the types in them are. -/
theorem methodShape_eq_ok (walks : walk.Walks (.type (depth + 1))) {shape : CallShape} :
    methodShape walk cursor = .ok (shape, after) ↔
      ∃ derivation : Derivation (.signature depth),
        cursor.Takes derivation.bytes after ∧ derivation.shape = shape := by
  rw [methodShape_eq, bind_eq_ok_iff]
  constructor
  · rintro ⟨convention, c1, first, taken⟩
    split at taken
    · cases taken
    · rename_i method
      obtain ⟨_, c2, announced, taken⟩ := bind_eq_ok taken
      obtain ⟨_, c3, counted, taken⟩ := bind_eq_ok taken
      obtain ⟨_, c4, resulted, taken⟩ := bind_eq_ok taken
      obtain ⟨_, c5, walked, taken⟩ := bind_eq_ok taken
      obtain ⟨rfl, rfl⟩ := pure_eq_ok.mp taken
      obtain ⟨form, generic, announces⟩ := generics_eq_ok.mp announced
      obtain ⟨count, counts, rfl⟩ := form_of_compressed counted
      obtain ⟨modifiers, result, results, rfl⟩ := (result_eq_ok walks).mp resulted
      obtain ⟨parameters, lists⟩ := (parameters_walks walks _ _).mp walked
      obtain ⟨middle, modifies, values⟩ := Cursor.takes_append.mp results
      refine ⟨.signature convention (UInt8.not_lt.mp method) form generic count modifiers result
        parameters, ?_, rfl⟩
      exact Cursor.takes_cons.mpr ⟨c1, byte_eq_ok.mp first, Cursor.takes_append.mpr ⟨c2, announces,
        Cursor.takes_append.mpr ⟨c3, counts, Cursor.takes_append.mpr ⟨middle, modifies,
          Cursor.takes_append.mpr ⟨c4, values, lists⟩⟩⟩⟩⟩
  · rintro ⟨derivation, whole, rfl⟩
    cases derivation with
    | signature convention method form generic count modifiers result parameters =>
        obtain ⟨c1, first, behind1⟩ := Cursor.takes_cons.mp whole
        obtain ⟨c2, announces, behind2⟩ := Cursor.takes_append.mp behind1
        obtain ⟨c3, counts, behind3⟩ := Cursor.takes_append.mp behind2
        obtain ⟨middle, modifies, behind4⟩ := Cursor.takes_append.mp behind3
        obtain ⟨c4, values, lists⟩ := Cursor.takes_append.mp behind4
        refine ⟨convention, c1, byte_eq_ok.mpr first, ?_⟩
        rw [if_neg (UInt8.not_lt.mpr method)]
        refine bind_eq_ok_iff.mpr ⟨(), c2, generics_eq_ok.mpr ⟨form, generic, announces⟩, ?_⟩
        refine bind_eq_ok_iff.mpr ⟨_, c3, compressed_of_form count counts, ?_⟩
        refine bind_eq_ok_iff.mpr ⟨_, c4, (result_eq_ok walks).mpr ⟨modifiers, result,
          Cursor.takes_append.mpr ⟨middle, modifies, values⟩, rfl⟩, ?_⟩
        exact bind_eq_ok_iff.mpr ⟨(), after, (parameters_walks walks c4 after).mpr ⟨parameters, lists⟩, rfl⟩

/-- What is read behind the first byte of a type. -/
def walkOperand (depth : Nat) : ElementKind → Reader Unit
  | .simple => pure ()
  | .indexed => do let _ ← compressed
  | .wrapper => walkType (depth + 1)
  | .modifier => do
      let _ ← compressed
      walkType (depth + 1)
  | .genericInstance => do
      walkType (depth + 1)
      let count ← compressed
      times (walkType (depth + 1)) count
  | .array => do
      walkType (depth + 1)
      let _ ← compressed
      walkCounted
      walkCounted
  | .functionPointer => do
      let _ ← methodShape (walkType (depth + 2))

theorem walkType_eq (depth : Nat) :
    walkType depth = (do
      let start ← position
      if maxNesting < depth then
        fail (.nestingTooDeep start)
      else
        let element ← byte
        match ElementKind.ofByte? element with
        | none => fail (.unknownElementType element start)
        | some kind => walkOperand depth kind) := by
  rw [walkType]
  refine bind_congr fun start => ?_
  split
  · rfl
  · refine bind_congr fun element => ?_
    cases ElementKind.ofByte? element with
    | none => rfl
    | some kind => cases kind <;> rfl

theorem walkOperand_walks (walks : (walkType (depth + 1)).Walks (.type (depth + 1)))
    (deeper : (walkType (depth + 2)).Walks (.type (depth + 2))) (kind : ElementKind) :
    (walkOperand depth kind).Walks (.operand depth kind) := by
  intro cursor after
  cases kind with
  | simple =>
      rw [walkOperand, pure_eq_ok]
      constructor
      · rintro ⟨_, same⟩
        exact ⟨.simple, Cursor.takes_nil.mpr same⟩
      · rintro ⟨derivation, takes⟩
        cases derivation with
        | simple => exact ⟨rfl, Cursor.takes_nil.mp takes⟩
  | indexed =>
      rw [walkOperand, skip_eq_ok]
      constructor
      · rintro ⟨index, takes⟩
        exact ⟨.indexed index, takes⟩
      · rintro ⟨derivation, takes⟩
        cases derivation with
        | indexed index => exact ⟨index, takes⟩
  | wrapper =>
      rw [walkOperand, walks]
      constructor
      · rintro ⟨target, takes⟩
        exact ⟨.wrapper target, takes⟩
      · rintro ⟨derivation, takes⟩
        cases derivation with
        | wrapper target => exact ⟨target, takes⟩
  | modifier =>
      rw [walkOperand, bind_eq_ok_iff]
      constructor
      · rintro ⟨_, middle, first, walked⟩
        obtain ⟨token, names, _⟩ := form_of_compressed first
        obtain ⟨target, takes⟩ := (walks middle after).mp walked
        exact ⟨.modifier token target, Cursor.takes_append.mpr ⟨middle, names, takes⟩⟩
      · rintro ⟨derivation, whole⟩
        cases derivation with
        | modifier token target =>
            obtain ⟨middle, names, takes⟩ := Cursor.takes_append.mp whole
            exact ⟨token.value, middle, compressed_of_form token names,
              (walks middle after).mpr ⟨target, takes⟩⟩
  | genericInstance =>
      rw [walkOperand, bind_eq_ok_iff]
      constructor
      · rintro ⟨_, c1, defined, taken⟩
        obtain ⟨_, c2, counted, walked⟩ := bind_eq_ok taken
        obtain ⟨definition, takes⟩ := (walks cursor c1).mp defined
        obtain ⟨count, counts, rfl⟩ := form_of_compressed counted
        obtain ⟨arguments, lists⟩ := (times_walks walks c2 after).mp walked
        exact ⟨.genericInstance definition count arguments, Cursor.takes_append.mpr ⟨c1, takes,
          Cursor.takes_append.mpr ⟨c2, counts, lists⟩⟩⟩
      · rintro ⟨derivation, whole⟩
        cases derivation with
        | genericInstance definition count arguments =>
            obtain ⟨c1, takes, behind⟩ := Cursor.takes_append.mp whole
            obtain ⟨c2, counts, lists⟩ := Cursor.takes_append.mp behind
            exact ⟨(), c1, (walks cursor c1).mpr ⟨definition, takes⟩, bind_eq_ok_iff.mpr ⟨_, c2,
              compressed_of_form count counts, (times_walks walks c2 after).mpr ⟨arguments, lists⟩⟩⟩
  | array =>
      rw [walkOperand, bind_eq_ok_iff]
      constructor
      · rintro ⟨_, c1, walked, taken⟩
        obtain ⟨_, c2, ranked, taken⟩ := bind_eq_ok taken
        obtain ⟨_, c3, sized, bounded⟩ := bind_eq_ok taken
        obtain ⟨item, takes⟩ := (walks cursor c1).mp walked
        obtain ⟨rank, ranks, _⟩ := form_of_compressed ranked
        obtain ⟨sizes, first⟩ := walkCounted_eq_ok.mp sized
        obtain ⟨bounds, second⟩ := walkCounted_eq_ok.mp bounded
        exact ⟨.array item rank sizes bounds, Cursor.takes_append.mpr ⟨c1, takes,
          Cursor.takes_append.mpr ⟨c2, ranks, Cursor.takes_append.mpr ⟨c3, first, second⟩⟩⟩⟩
      · rintro ⟨derivation, whole⟩
        cases derivation with
        | array item rank sizes bounds =>
            obtain ⟨c1, takes, behind1⟩ := Cursor.takes_append.mp whole
            obtain ⟨c2, ranks, behind2⟩ := Cursor.takes_append.mp behind1
            obtain ⟨c3, first, second⟩ := Cursor.takes_append.mp behind2
            refine ⟨(), c1, (walks cursor c1).mpr ⟨item, takes⟩, ?_⟩
            refine bind_eq_ok_iff.mpr ⟨_, c2, compressed_of_form rank ranks, ?_⟩
            exact bind_eq_ok_iff.mpr ⟨(), c3, walkCounted_eq_ok.mpr ⟨sizes, first⟩,
              walkCounted_eq_ok.mpr ⟨bounds, second⟩⟩
  | functionPointer =>
      rw [walkOperand, bind_eq_ok_iff]
      constructor
      · rintro ⟨_, middle, read, same⟩
        obtain ⟨_, rfl⟩ := pure_eq_ok.mp same
        obtain ⟨callee, takes, _⟩ := (methodShape_eq_ok deeper).mp read
        exact ⟨.functionPointer callee, takes⟩
      · rintro ⟨derivation, takes⟩
        cases derivation with
        | functionPointer callee =>
            exact ⟨callee.shape, after, (methodShape_eq_ok deeper).mpr ⟨callee, takes, rfl⟩, rfl⟩

/-- Types are read as they are derived, at every depth. -/
theorem walkType_walks (depth : Nat) : (walkType depth).Walks (.type depth) := by
  intro cursor after
  rw [walkType_eq, bind_eq_ok_iff]
  by_cases deep : maxNesting < depth
  · simp only [if_pos deep, fail_eq_ok, and_false, exists_false, false_iff, not_exists]
    intro derivation
    cases derivation with
    | type nested => exact absurd nested (Nat.not_le.mpr deep)
  · have nested : depth ≤ 64 := Nat.not_lt.mp deep
    have operand := walkOperand_walks (walkType_walks (depth + 1)) (walkType_walks (depth + 2))
    simp only [if_neg deep]
    constructor
    · rintro ⟨start, middle, here, taken⟩
      cases here
      obtain ⟨element, middle, first, taken⟩ := bind_eq_ok taken
      cases named : ElementKind.ofByte? element with
      | none =>
          rw [named] at taken
          cases taken
      | some kind =>
          rw [named] at taken
          obtain ⟨derivation, takes⟩ := (operand kind middle after).mp taken
          exact ⟨.type nested element (ElementKind.ofByte?_eq_some.mp named) derivation,
            Cursor.takes_cons.mpr ⟨middle, byte_eq_ok.mp first, takes⟩⟩
    · rintro ⟨derivation, whole⟩
      cases derivation with
      | type nested element named derivation =>
          obtain ⟨middle, first, takes⟩ := Cursor.takes_cons.mp whole
          refine ⟨_, _, rfl, bind_eq_ok_iff.mpr ⟨element, middle, byte_eq_ok.mpr first, ?_⟩⟩
          rw [ElementKind.ofByte?_of_mem named]
          exact (operand _ middle after).mpr ⟨derivation, takes⟩
termination_by 65 - depth

end Reader

/-- The parser accepts exactly the blobs that begin with a signature, and answers its shape. Which
    signature that is, and where it ends, is determined by the blob. -/
theorem CallShape.parse_eq_ok (blob : List UInt8) (shape : CallShape) :
    (parse blob = .ok shape ↔
      ∃ derivation : Derivation (.signature 0), derivation.bytes <+: blob ∧ derivation.shape = shape) ∧
    ∀ derivation other : Derivation (.signature 0), derivation.bytes <+: blob → other.bytes <+: blob →
      derivation = other := by
  refine ⟨?_, fun derivation other ⟨rest, begins⟩ ⟨rest', begins'⟩ => ?_⟩
  · constructor
    · intro parsed
      unfold parse at parsed
      split at parsed
      · cases parsed
      · obtain ⟨⟨shape, after⟩, read, rfl⟩ := Outcome.map_eq_ok.mp parsed
        obtain ⟨derivation, takes, shaped⟩ := (Reader.methodShape_eq_ok (Reader.walkType_walks 1)).mp read
        exact ⟨derivation, ⟨after.rest, takes.rest.symm⟩, shaped⟩
    · rintro ⟨derivation, ⟨rest, rfl⟩, rfl⟩
      have read := (Reader.methodShape_eq_ok (Reader.walkType_walks 1)).mpr
        ⟨derivation, Cursor.takes_start derivation.bytes rest, rfl⟩
      have nonempty : derivation.bytes ++ rest ≠ [] := by
        cases derivation with
        | signature => exact List.cons_ne_nil _ _
      rw [parse, if_neg nonempty, read]
      rfl
  · exact (derivation.unambiguous other (begins.trans begins'.symm)).1

end CilProfiler
