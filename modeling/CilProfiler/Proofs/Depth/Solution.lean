import CilProfiler.Proofs.Depth.Resemblance
import Mathlib.Order.Bounds.Basic

/-! # The solution of the depth recurrence

The recurrence can be read as a system of equations for the depths in front of and behind the
instructions of a body, with sets in the place of seeds: which depths are handed to an instruction
does not depend on the order in which they were, and one that is handed over twice counts once. The
system has one solution. It ends with the code or with the first instruction that cannot be
evaluated, and all that a computation gives is read off it, however many computations came before.
-/

namespace CilProfiler

attribute [ext] DepthVisit

namespace MethodBody

/-- Depths that an exception, and the branches among the first visits, hand to an instruction. -/
def handed (body : MethodBody) (visits : List DepthVisit) (count : Nat) (id : InstrId) : Set Depth :=
  {depth | (id ∈ body.exceptionStarts ∧ depth = 1) ∨
    ∃ (j : Nat) (visit : DepthVisit), j < count ∧ visits[j]? = some visit ∧
      id ∈ visit.item.targets ∧ visit.after ≠ 0 ∧ visit.after = depth}

end MethodBody

/-- Depth that the visit before a position leaves to it. -/
inductive DepthVisit.Carries (visits : List DepthVisit) : Nat → Depth → Prop where
  | start : Carries visits 0 0
  | stopped {j : Nat} {visit : DepthVisit} (there : visits[j]? = some visit)
      (stops : visit.item.code.flow.stopsFlow = true) : Carries visits (j + 1) 0
  | passed {j : Nat} {visit : DepthVisit} (there : visits[j]? = some visit)
      (passes : visit.item.code.flow.stopsFlow = false) : Carries visits (j + 1) visit.after

namespace MethodBody

/-- The instruction at a position is entered with the greatest depth that is handed to it, or with what
    is carried there if nothing is. -/
inductive Enters (body : MethodBody) (visits : List DepthVisit) (i : Nat) (id : InstrId)
    (depth : Depth) : Prop where
  | handed (greatest : IsGreatest (body.handed visits i id) depth)
  | carried (nothing : body.handed visits i id = ∅) (carries : DepthVisit.Carries visits i depth)

/-- The equations for the depths of a body, up to its end or to the first instruction that cannot be
    evaluated. -/
structure Solves (body : MethodBody) (resolver : Resolver) (visits : List DepthVisit) : Prop where
  linked : ∀ (i : Nat) (visit : DepthVisit), visits[i]? = some visit →
    body.code.items[i]? = some (visit.id, visit.item)
  entry : ∀ (i : Nat) (visit : DepthVisit), visits[i]? = some visit →
    body.Enters visits i visit.id visit.entry
  after : ∀ (i : Nat) (visit : DepthVisit), visits[i]? = some visit →
    visit.item.depthAfter resolver visit.entry = .ok visit.after
  ends : ∀ id item, body.code.items[visits.length]? = some (id, item) →
    ∃ entry reason, body.Enters visits visits.length id entry ∧
      item.depthAfter resolver entry = .error reason

variable {body : MethodBody} {resolver : Resolver} {visits visits' : List DepthVisit} {i : Nat}
  {id : InstrId} {depth : Depth}

theorem mem_handed : depth ∈ body.handed visits i id ↔ depth ∈ body.seedValues (visits.take i) id := by
  rw [mem_seedValues]
  refine or_congr Iff.rfl ⟨?_, ?_⟩
  · rintro ⟨j, visit, before, there, target, nonzero, same⟩
    have member := List.mem_of_getElem? ((List.getElem?_take_of_lt before).trans there)
    exact ⟨visit, member, nonzero, target, same⟩
  · rintro ⟨visit, member, nonzero, target, same⟩
    obtain ⟨j, there⟩ := List.getElem?_of_mem member
    obtain ⟨inside, _⟩ := List.getElem?_eq_some_iff.mp there
    rw [List.length_take] at inside
    have before : j < i := by omega
    exact ⟨j, visit, before, (List.getElem?_take_of_lt before).symm.trans there, target, nonzero, same⟩

theorem isGreatest_handed : IsGreatest (body.handed visits i id) depth ↔
    (body.seedValues (visits.take i) id).max? = some depth := by
  rw [List.max?_eq_some_iff]
  exact and_congr mem_handed (forall_congr' fun other => imp_congr_left mem_handed)

theorem handed_eq_empty :
    body.handed visits i id = ∅ ↔ (body.seedValues (visits.take i) id).max? = none := by
  rw [List.max?_eq_none_iff, List.eq_nil_iff_forall_not_mem, Set.eq_empty_iff_forall_notMem]
  exact forall_congr' fun depth => not_congr mem_handed

theorem carries_iff (within : i ≤ visits.length) :
    DepthVisit.Carries visits i depth ↔ depth = DepthVisit.carried (visits.take i) := by
  cases i with
  | zero =>
      constructor
      · intro carries
        cases carries
        rfl
      · rintro rfl
        exact .start
  | succ j =>
      have there : visits[j]? = some visits[j] := List.getElem?_eq_getElem within
      have last : (visits.take (j + 1)).length = j + 1 := List.length_take_of_le within
      rw [DepthVisit.carried_eq last ((List.getElem?_take_of_lt (Nat.lt_succ_self j)).trans there)]
      constructor
      · intro carries
        cases carries with
        | stopped there' stops =>
            cases there.symm.trans there'
            rw [if_pos stops]
        | passed there' passes =>
            cases there.symm.trans there'
            rw [if_neg (by simp [passes])]
      · rintro rfl
        cases stops : visits[j].item.code.flow.stopsFlow with
        | true => exact .stopped there stops
        | false => exact .passed there stops

theorem enters_iff (within : i ≤ visits.length) :
    body.Enters visits i id depth ↔ depth = body.entryDepth (visits.take i) id := by
  unfold entryDepth
  cases greatest : (body.seedValues (visits.take i) id).max? with
  | none =>
      have nothing := handed_eq_empty.mpr greatest
      rw [Option.getD_none, ← carries_iff within]
      constructor
      · intro enters
        cases enters with
        | handed some => cases greatest.symm.trans (isGreatest_handed.mp some)
        | carried _ carries => exact carries
      · exact .carried nothing
  | some seed =>
      have handed := isGreatest_handed.mpr greatest
      rw [Option.getD_some]
      constructor
      · intro enters
        cases enters with
        | handed other => exact other.unique handed
        | carried nothing => cases greatest.symm.trans (handed_eq_empty.mp nothing)
      · rintro rfl
        exact .handed handed

theorem Solves.walked (solves : body.Solves resolver visits) : body.Walked resolver visits where
  linked := solves.linked
  entry i visit there :=
    (enters_iff (Nat.le_of_lt (List.getElem?_eq_some_iff.mp there).1)).mp (solves.entry i visit there)
  after := solves.after

theorem Walked.enters (walked : body.Walked resolver visits) {visit : DepthVisit}
    (there : visits[i]? = some visit) : body.Enters visits i visit.id visit.entry :=
  (enters_iff (Nat.le_of_lt (List.getElem?_eq_some_iff.mp there).1)).mpr (walked.entry i visit there)

/-- As far as two walks over one body have come, they are one. -/
theorem Walked.take_eq (walked : body.Walked resolver visits) (walked' : body.Walked resolver visits')
    (le : i ≤ visits.length) (le' : i ≤ visits'.length) : visits.take i = visits'.take i := by
  induction i with
  | zero => rfl
  | succ k ih =>
      have same := ih (by omega) (by omega)
      have there : visits[k]? = some visits[k] := List.getElem?_eq_getElem (by omega)
      have there' : visits'[k]? = some visits'[k] := List.getElem?_eq_getElem (by omega)
      have items := (walked.linked k _ there).symm.trans (walked'.linked k _ there')
      rw [Option.some.injEq, Prod.mk.injEq] at items
      have entry : visits[k].entry = visits'[k].entry := by
        rw [walked.entry k _ there, walked'.entry k _ there', items.1, same]
      have after := walked.after k _ there
      rw [items.2, entry, walked'.after k _ there'] at after
      have visit := DepthVisit.ext items.1 items.2 entry (Except.ok.inj after).symm
      rw [List.take_add_one, List.take_add_one, same, there, there', visit]

/-- No walk comes further than a solution. -/
theorem Solves.length_le (solves : body.Solves resolver visits)
    (walked' : body.Walked resolver visits') : visits'.length ≤ visits.length := by
  by_contra beyond
  have inside : visits.length < visits'.length := Nat.lt_of_not_le beyond
  have found := walked'.linked _ _ (List.getElem?_eq_getElem inside)
  obtain ⟨entry, reason, enters, failed⟩ := solves.ends _ _ found
  rw [(enters_iff (Nat.le_refl _)).mp enters,
    solves.walked.take_eq walked' (Nat.le_refl _) (Nat.le_of_lt inside)] at failed
  exact beyond (walked'.length_le_of_failed found failed)

theorem Solves.unique (solves : body.Solves resolver visits) (solves' : body.Solves resolver visits') :
    visits = visits' := by
  have length : visits.length = visits'.length :=
    Nat.le_antisymm (solves'.length_le solves.walked) (solves.length_le solves'.walked)
  have same := solves.walked.take_eq solves'.walked (Nat.le_refl _) (Nat.le_of_eq length)
  rwa [List.take_length, length, List.take_length] at same

/-- What a walk has visited solves the equations. -/
theorem analyzed_solves (body : MethodBody) (resolver : Resolver) :
    body.Solves resolver (body.analyzeDepth resolver).visits where
  linked := (body.analyzed resolver).walked.linked
  entry _ _ there := (body.analyzed resolver).walked.enters there
  after := (body.analyzed resolver).walked.after
  ends id item found := by
    obtain ⟨reason, failed, -⟩ := (body.analyzed resolver).stops id item found
    refine ⟨_, reason, (enters_iff (Nat.le_refl _)).mpr rfl, ?_⟩
    rwa [List.take_length]

theorem solves_iff : body.Solves resolver visits ↔ visits = (body.analyzeDepth resolver).visits := by
  constructor
  · exact fun solves => solves.unique (body.analyzed_solves resolver)
  · rintro rfl
    exact body.analyzed_solves resolver

end MethodBody

/-- The depths in front of and behind visited instructions, and the empty stack. -/
def DepthVisit.depths (visits : List DepthVisit) : Set Depth :=
  {depth | depth = 0 ∨ ∃ visit ∈ visits, visit.entry = depth ∨ visit.after = depth}

theorem DepthVisit.isGreatest_peak (visits : List DepthVisit) :
    IsGreatest (depths visits) (peak visits) := by
  obtain ⟨⟨nonneg, bounds⟩, reached⟩ := peak_spec visits
  refine ⟨reached, ?_⟩
  rintro depth (rfl | ⟨visit, member, rfl | rfl⟩)
  · exact nonneg
  · exact (bounds visit member).1
  · exact (bounds visit member).2

namespace DepthAnalysis.Describes

variable {analysis : DepthAnalysis} {body : MethodBody} {resolver : Resolver} {visits : List DepthVisit}
  (describes : analysis.Describes body resolver visits)

include describes

theorem outcome_eq_ok (maxStack : Nat) : analysis.outcome = .ok maxStack ↔
    visits.length = body.code.items.length ∧ IsGreatest (DepthVisit.depths visits) maxStack := by
  constructor
  · intro computed
    refine ⟨describes.length_of_ok computed, ?_⟩
    rw [describes.peak_of_ok computed]
    exact DepthVisit.isGreatest_peak visits
  · rintro ⟨all, greatest⟩
    rw [describes.completes all, ← greatest.unique (DepthVisit.isGreatest_peak visits)]
    rfl

theorem outcome_eq_error (reason : DepthError) : analysis.outcome = .error reason ↔
    ∃ id item entry, body.code.items[visits.length]? = some (id, item) ∧
      body.Enters visits visits.length id entry ∧ item.depthAfter resolver entry = .error reason := by
  constructor
  · intro stopped
    by_cases all : visits.length = body.code.items.length
    · cases (describes.completes all).symm.trans stopped
    · have found := List.getElem?_eq_getElem (Nat.lt_of_le_of_ne describes.walked.length_le all)
      obtain ⟨reason', failed, stopped'⟩ := describes.stops _ _ found
      cases stopped.symm.trans stopped'
      refine ⟨_, _, _, found, (MethodBody.enters_iff (Nat.le_refl _)).mpr rfl, ?_⟩
      rwa [List.take_length]
  · rintro ⟨id, item, entry, found, enters, failed⟩
    obtain ⟨reason', failed', stopped⟩ := describes.stops id item found
    rw [(MethodBody.enters_iff (Nat.le_refl _)).mp enters, List.take_length, failed'] at failed
    rw [stopped, Except.error.inj failed]

theorem seed_eq_some (id : InstrId) (depth : Depth) : analysis.seeds.depth? id = some depth ↔
    IsGreatest (body.handed visits visits.length id) depth := by
  rw [describes.seeds, MethodBody.isGreatest_handed, List.take_length]

theorem seed_eq_none (id : InstrId) :
    analysis.seeds.depth? id = none ↔ body.handed visits visits.length id = ∅ := by
  rw [describes.seeds, MethodBody.handed_eq_empty, List.take_length]

end DepthAnalysis.Describes

namespace DepthCalculator

/-- The calculator after a number of computations. -/
def computed (calculator : DepthCalculator) : Nat → DepthCalculator
  | 0 => calculator
  | runs + 1 => (calculator.computed runs).compute.2

theorem compute_computed (calculator : DepthCalculator) (runs : Nat) :
    (calculator.computed runs).compute = calculator.compute := by
  induction runs with
  | zero => rfl
  | succ runs ih => rw [computed, ih]; rfl

/-- The depths of a body are the one solution of the equations, and a computation, also one after
    others and after failed ones, gives what can be read off it: the greatest depth if the solution
    reaches the end of the code, why the first instruction behind it cannot be evaluated otherwise, and
    for every instruction, linked or not, the greatest depth that is handed to it. -/
theorem compute_solves (calculator : DepthCalculator) (runs : Nat) :
    ∃ visits,
      (∀ other, calculator.body.Solves calculator.resolver other ↔ other = visits) ∧
      (∀ maxStack, (calculator.computed runs).compute.1 = .ok maxStack ↔
        visits.length = calculator.body.code.items.length ∧
          IsGreatest (DepthVisit.depths visits) maxStack) ∧
      (∀ reason, (calculator.computed runs).compute.1 = .error reason ↔
        ∃ id item entry, calculator.body.code.items[visits.length]? = some (id, item) ∧
          calculator.body.Enters visits visits.length id entry ∧
          item.depthAfter calculator.resolver entry = .error reason) ∧
      (∀ id depth, (calculator.computed runs).compute.2.seedOf? id = some depth ↔
        IsGreatest (calculator.body.handed visits visits.length id) depth) ∧
      ∀ id, (calculator.computed runs).compute.2.seedOf? id = none ↔
        calculator.body.handed visits visits.length id = ∅ := by
  have analyzed := calculator.body.analyzed calculator.resolver
  rw [calculator.compute_computed runs]
  exact ⟨_, fun _ => MethodBody.solves_iff, analyzed.outcome_eq_ok, analyzed.outcome_eq_error,
    analyzed.seed_eq_some, analyzed.seed_eq_none⟩

end DepthCalculator
end CilProfiler
