import CilProfiler.Proofs.Code.Navigation
import CilProfiler.Proofs.Depth.Assignment
import Mathlib.Data.List.Dedup

/-! # Dead code

Control enters a body at its first instruction and at the handlers of its clauses, and goes on to
the instruction behind and to branch targets. What it never comes to is dead. The walk evaluates
dead code like any other, and live code behind it can be entered with what dead code leaves or hands
on: a depth that control never has there, and it may be too low.

This happens only where live code hands nothing on itself: branches with an empty stack seed nothing,
and branches from further behind come too late. Everywhere else the walk enters live code at no less
than its depth, whatever is dead.
-/

namespace CilProfiler

/-- Instructions that a clause enters with an empty stack. -/
def ExceptionClause.emptyStarts (clause : ExceptionClause) : List InstrId :=
  match clause.kind with
  | .catching | .filter => []
  | .finallyRun | .fault => [clause.handlerStart]

namespace MethodBody

def emptyStarts (body : MethodBody) : List InstrId :=
  body.clauses.flatMap (·.emptyStarts)

/-- Positions at which control enters the code. -/
def entries (body : MethodBody) : List Nat :=
  (if 0 < body.code.length then [0] else []) ++
    (body.exceptionStarts ++ body.emptyStarts).filterMap body.code.position?

/-- Positions to which control goes on from a position. -/
def successors (body : MethodBody) (position : Nat) : List Nat :=
  match (body.code.at? position).bind body.code.get? with
  | none => []
  | some item =>
    (if !item.code.flow.stopsFlow ∧ position + 1 < body.code.length then [position + 1] else []) ++
      item.targets.filterMap body.code.position?

/-- Control comes to a position. -/
inductive Live (body : MethodBody) : Nat → Prop where
  | entry {position : Nat} (enters : position ∈ body.entries) : Live body position
  | step {position next : Nat} (live : Live body position) (leads : next ∈ body.successors position) :
      Live body next

/-- Positions that are found in a number of rounds. -/
def explored (body : MethodBody) : Nat → List Nat
  | 0 => body.entries
  | rounds + 1 => (body.explored rounds ++ (body.explored rounds).flatMap body.successors).dedup

/-- Nothing new is found in the next round. -/
def Exhausted (body : MethodBody) (rounds : Nat) : Prop :=
  ∀ position ∈ body.explored rounds, ∀ next ∈ body.successors position, next ∈ body.explored rounds

instance (body : MethodBody) (rounds : Nat) : Decidable (body.Exhausted rounds) :=
  inferInstanceAs (Decidable (∀ position ∈ _, ∀ next ∈ _, _))

variable {body : MethodBody} {position next : Nat} {id target : InstrId} {item : Instruction}

theorem live_of_mem_explored {rounds : Nat} (found : position ∈ body.explored rounds) :
    body.Live position := by
  induction rounds generalizing position with
  | zero => exact .entry found
  | succ rounds ih =>
      rw [explored, List.mem_dedup, List.mem_append, List.mem_flatMap] at found
      rcases found with known | ⟨earlier, known, leads⟩
      · exact ih known
      · exact .step (ih known) leads

theorem entries_subset_explored (rounds : Nat) : body.entries ⊆ body.explored rounds := by
  induction rounds with
  | zero => exact List.Subset.refl _
  | succ rounds ih =>
      intro position enters
      rw [explored, List.mem_dedup]
      exact List.mem_append_left _ (ih enters)

/-- Once nothing new is found, everything live is found. -/
theorem Exhausted.live_iff {rounds : Nat} (exhausted : body.Exhausted rounds) :
    body.Live position ↔ position ∈ body.explored rounds := by
  refine ⟨fun live => ?_, live_of_mem_explored⟩
  induction live with
  | entry enters => exact entries_subset_explored rounds enters
  | step _ leads ih => exact exhausted _ ih _ leads

theorem Exhausted.live_eq {rounds : Nat} (exhausted : body.Exhausted rounds) {positions : List Nat}
    (found : body.explored rounds = positions) : body.Live = (· ∈ positions) :=
  funext fun _ => propext (found ▸ exhausted.live_iff)

theorem successors_eq (linked : body.code.Linked position id item) :
    body.successors position =
      (if !item.code.flow.stopsFlow ∧ position + 1 < body.code.length then [position + 1] else []) ++
        item.targets.filterMap body.code.position? := by
  rw [successors, linked.1, Option.bind_some, linked.2]

theorem mem_successors_of_falls (linked : body.code.Linked position id item)
    (falls : item.code.flow.stopsFlow = false) (inside : position + 1 < body.code.length) :
    position + 1 ∈ body.successors position := by
  simp [successors_eq linked, falls, inside]

theorem mem_successors_of_target (consistent : body.code.Consistent)
    (linked : body.code.Linked position id item) (there : body.code.at? next = some target)
    (member : target ∈ item.targets) : next ∈ body.successors position := by
  rw [successors_eq linked]
  exact List.mem_append_right _
    (List.mem_filterMap.mpr ⟨target, member, consistent.position?_eq_some there⟩)

/-- Control comes only to linked instructions. -/
theorem Live.lt_length (live : body.Live position) : position < body.code.length := by
  cases live with
  | entry enters =>
      rw [entries, List.mem_append, List.mem_filterMap] at enters
      rcases enters with first | ⟨id, _, located⟩
      · split at first
        · rename_i nonempty
          rwa [List.mem_singleton.mp first]
        · cases first
      · exact InstructionList.lt_length_of_position? located
  | @step earlier _ _ leads =>
      unfold successors at leads
      split at leads
      · cases leads
      · rw [List.mem_append, List.mem_filterMap] at leads
        rcases leads with behind | ⟨target, _, located⟩
        · split at behind
          · rename_i falls
            rw [List.mem_singleton.mp behind]
            exact falls.2
          · cases behind
        · exact InstructionList.lt_length_of_position? located

end MethodBody

/-- A property holds at every linked position of a set. -/
def InstructionList.ForallOn (list : InstructionList) (live : Nat → Prop)
    (holds : Nat → InstrId → Instruction → Prop) : Prop :=
  list.ForallLinked fun position id item => live position → holds position id item

instance (list : InstructionList) (live : Nat → Prop) [DecidablePred live]
    (holds : Nat → InstrId → Instruction → Prop)
    [∀ position id item, Decidable (holds position id item)] : Decidable (list.ForallOn live holds) :=
  inferInstanceAs (Decidable (list.ForallLinked _))

/-- Neither an exception nor a branch of the set up to a position enters the instruction. -/
def MethodBody.UnenteredFrom (body : MethodBody) (live : Nat → Prop) (position : Nat) (id : InstrId) :
    Prop :=
  id ∉ body.exceptionStarts ∧
    body.code.ForallOn live fun i _ item => i ≤ position → id ∉ item.targets

instance (body : MethodBody) (live : Nat → Prop) [DecidablePred live] (position : Nat)
    (id : InstrId) : Decidable (body.UnenteredFrom live position id) :=
  inferInstanceAs (Decidable (_ ∧ _))

/-- The depths of an assignment fit together along the ways between positions of a set. -/
structure DepthAssignment.ConsistentOn (assigned : DepthAssignment) (live : Nat → Prop)
    (body : MethodBody) (resolver : Resolver) : Prop where
  start : body.code.ForallOn live fun i id _ =>
    i = 0 → id ∉ body.exceptionStarts → assigned.entry i = 0
  exception : body.code.ForallOn live fun i id _ => id ∈ body.exceptionStarts → assigned.entry i = 1
  empty : body.code.ForallOn live fun i id _ => id ∈ body.emptyStarts → assigned.entry i = 0
  available : body.code.ForallOn live fun i _ item => item.code.popCount ≤ assigned.entry i
  moves : body.code.ForallOn live fun i _ item =>
    item.Moves resolver (assigned.entry i) (assigned.after i)
  falls : body.code.ForallOn live fun i _ item => item.code.flow.stopsFlow = false →
    live (i + 1) → assigned.entry (i + 1) = assigned.after i
  branch : body.code.ForallOn live fun i _ item => body.code.ForallOn live fun j target _ =>
    target ∈ item.targets → assigned.entry j = assigned.after i
  /-- Behind a terminator, where nothing enters from before, the stack is empty. -/
  reset : body.code.ForallLinked fun i _ item => body.code.ForallOn live fun j next _ =>
    j = i + 1 → item.code.flow.stopsFlow → body.UnenteredFrom live i next → assigned.entry j = 0

set_option synthInstance.maxSize 512 in
instance (assigned : DepthAssignment) (live : Nat → Prop) [DecidablePred live] (body : MethodBody)
    (resolver : Resolver) : Decidable (assigned.ConsistentOn live body resolver) :=
  decidable_of_iff (_ ∧ _ ∧ _ ∧ _ ∧ _ ∧ _ ∧ _ ∧ _)
    ⟨fun ⟨start, exception, empty, available, moves, falls, branch, reset⟩ =>
      ⟨start, exception, empty, available, moves, falls, branch, reset⟩,
      fun ⟨start, exception, empty, available, moves, falls, branch, reset⟩ =>
      ⟨start, exception, empty, available, moves, falls, branch, reset⟩⟩

/-- A visited branch at one of the positions before hands a depth to the instruction. -/
def DepthVisit.Hands (visits : List DepthVisit) (holds : Nat → Prop) (position : Nat) (id : InstrId) :
    Prop :=
  ∃ k < position, holds k ∧ ∃ visit ∈ visits[k]?, visit.after ≠ 0 ∧ id ∈ visit.item.targets

/-- Only dead code gives the walk a depth for the position: a dead branch hands one on and no live one
    does, or nothing is handed on and a dead instruction stands in front. -/
def DepthVisit.FedByDead (visits : List DepthVisit) (live : Nat → Prop) (body : MethodBody)
    (position : Nat) (id : InstrId) : Prop :=
  id ∉ body.exceptionStarts ∧ ¬Hands visits live position id ∧
    (Hands visits (fun k => ¬live k) position id ∨
      ∃ k < position, position = k + 1 ∧ ¬live k ∧
        ∃ visit ∈ visits[k]?, visit.item.code.flow.stopsFlow = false)

instance (visits : List DepthVisit) (holds : Nat → Prop) [DecidablePred holds] (position : Nat)
    (id : InstrId) : Decidable (DepthVisit.Hands visits holds position id) :=
  inferInstanceAs (Decidable (∃ k < position, _))

instance (visits : List DepthVisit) (live : Nat → Prop) [DecidablePred live] (body : MethodBody)
    (position : Nat) (id : InstrId) : Decidable (DepthVisit.FedByDead visits live body position id) :=
  inferInstanceAs (Decidable (_ ∧ _))

/-- Where only dead code gives the walk a depth, it gives enough. -/
def DepthAssignment.Undisturbed (assigned : DepthAssignment) (live : Nat → Prop) (body : MethodBody)
    (visits : List DepthVisit) : Prop :=
  body.code.ForallOn live fun i id _ => DepthVisit.FedByDead visits live body i id →
    ∀ visit ∈ visits[i]?, assigned.entry i ≤ visit.entry

instance (assigned : DepthAssignment) (live : Nat → Prop) [DecidablePred live] (body : MethodBody)
    (visits : List DepthVisit) : Decidable (assigned.Undisturbed live body visits) :=
  inferInstanceAs (Decidable (body.code.ForallOn live _))

/-- No dead instruction leads to a live one behind it. -/
def MethodBody.Separate (body : MethodBody) (live : Nat → Prop) : Prop :=
  ∀ position next, ¬live position → next ∈ body.successors position → position < next → ¬live next

namespace MethodBody

variable {body : MethodBody} {visits : List DepthVisit} {id : InstrId}

theorem notMem_exceptionStarts_of_unseeded (unseeded : body.seedValues visits id = []) :
    id ∉ body.exceptionStarts := by
  intro starts
  have handed : Seeds.objectSlots ∈ body.seedValues visits id := mem_seedValues.mpr (.inl ⟨starts, rfl⟩)
  simp [unseeded] at handed

/-- A visited branch hands its depth to its targets, unless the stack is empty. -/
theorem mem_seedValues_take {i k : Nat} (before : k < i) {source : DepthVisit}
    (found : visits[k]? = some source) (nonzero : source.after ≠ 0) (target : id ∈ source.item.targets) :
    source.after ∈ body.seedValues (visits.take i) id :=
  mem_seedValues.mpr (.inr ⟨source, List.mem_of_getElem? ((List.getElem?_take_of_lt before).trans found),
    nonzero, target, rfl⟩)

/-- An instruction is entered at no less than what is handed to it. -/
theorem Walked.le_entry {resolver : Resolver} (walked : body.Walked resolver visits) {i : Nat}
    {visit : DepthVisit} (there : visits[i]? = some visit) {depth : Depth}
    (handed : depth ∈ body.seedValues (visits.take i) visit.id) : depth ≤ visit.entry := by
  rw [walked.entry i visit there]
  exact (entryDepth_greatest (List.ne_nil_of_mem handed)).2 depth handed

/-- Branches to an instruction to which nothing is handed leave the stack empty. -/
theorem after_of_unseeded (unseeded : body.seedValues visits id = []) {k : Nat} {visit : DepthVisit}
    (found : visits[k]? = some visit) (target : id ∈ visit.item.targets) : visit.after = 0 := by
  by_contra nonzero
  have handed : visit.after ∈ body.seedValues visits id :=
    mem_seedValues.mpr (.inr ⟨visit, List.mem_of_getElem? found, nonzero, target, rfl⟩)
  simp [unseeded] at handed

/-- Depths are handed on by live branches or by dead ones. -/
theorem seedValues_eq_nil {live : Nat → Prop} {i : Nat} (plain : id ∉ body.exceptionStarts)
    (alive : ¬DepthVisit.Hands visits live i id)
    (dead : ¬DepthVisit.Hands visits (fun k => ¬live k) i id) :
    body.seedValues (visits.take i) id = [] := by
  refine List.eq_nil_iff_forall_not_mem.mpr fun depth handed => ?_
  rcases mem_seedValues.mp handed with ⟨starts, _⟩ | ⟨source, member, nonzero, target, _⟩
  · exact plain starts
  · obtain ⟨k, found⟩ := List.getElem?_of_mem member
    obtain ⟨inside, _⟩ := List.getElem?_eq_some_iff.mp found
    rw [List.length_take] at inside
    have before : k < i := by omega
    rw [List.getElem?_take_of_lt before] at found
    by_cases lives : live k
    · exact alive ⟨k, before, lives, source, found, nonzero, target⟩
    · exact dead ⟨k, before, lives, source, found, nonzero, target⟩

end MethodBody

namespace DepthAssignment.ConsistentOn

variable {assigned : DepthAssignment} {live : Nat → Prop} {body : MethodBody} {resolver : Resolver}
  {visits : List DepthVisit}

/-- A live branch that was visited hands on no less than the depth of its target. -/
theorem entry_le_after (consistent : assigned.ConsistentOn live body resolver)
    (ordered : body.code.Ordered) (walked : body.Walked resolver visits) {i k : Nat}
    {visit source : DepthVisit} (there : visits[i]? = some visit) (lives : live i)
    (found : visits[k]? = some source) (lives' : live k) (target : visit.id ∈ source.item.targets)
    (below : assigned.after k ≤ source.after) : assigned.entry i ≤ source.after := by
  have linked := ordered.items_getElem?.mp (walked.linked i visit there)
  have branching := ordered.items_getElem?.mp (walked.linked k source found)
  rw [consistent.branch k _ _ branching lives' i _ _ linked lives target]
  exact below

/-- Where nothing is handed on, the walk carries enough to a live position, unless it is dead code
    that it comes from. -/
theorem entry_le_carried (consistent : assigned.ConsistentOn live body resolver)
    (ordered : body.code.Ordered) (walked : body.Walked resolver visits) {i : Nat} {visit : DepthVisit}
    (there : visits[i]? = some visit) (lives : live i)
    (unseeded : body.seedValues (visits.take i) visit.id = [])
    (below : ∀ k < i, live k → ∀ source, visits[k]? = some source → assigned.after k ≤ source.after)
    (apart : ∀ k, i = k + 1 → ¬live k → ∀ source, visits[k]? = some source →
      source.item.code.flow.stopsFlow = true) : assigned.entry i ≤ visit.entry := by
  have linked := ordered.items_getElem?.mp (walked.linked i visit there)
  have plain := MethodBody.notMem_exceptionStarts_of_unseeded unseeded
  obtain ⟨inside, _⟩ := List.getElem?_eq_some_iff.mp there
  have carried := walked.entry i visit there
  rw [MethodBody.entryDepth_of_nil unseeded] at carried
  cases i with
  | zero =>
      rw [consistent.start 0 _ _ linked lives rfl plain, carried]
      exact Int.le_refl 0
  | succ j =>
      have found : visits[j]? = some visits[j] := List.getElem?_eq_getElem (by omega)
      have previous := ordered.items_getElem?.mp (walked.linked j _ found)
      have length : (visits.take (j + 1)).length = j + 1 := by rw [List.length_take]; omega
      rw [DepthVisit.carried_eq length
        ((List.getElem?_take_of_lt (Nat.lt_succ_self j)).trans found)] at carried
      cases stops : visits[j].item.code.flow.stopsFlow with
      | true =>
          rw [carried, if_pos stops]
          by_cases entered : ∃ k source item, k ≤ j ∧ live k ∧ body.code.Linked k source item ∧
              visit.id ∈ item.targets
          · -- Only branches with an empty stack come here from before.
            obtain ⟨k, source, item, before, lives', branching, target⟩ := entered
            have earlier : visits[k]? = some visits[k] := List.getElem?_eq_getElem (by omega)
            have same := (walked.linked k _ earlier).symm.trans (ordered.items_getElem?.mpr branching)
            cases same
            have empty := MethodBody.after_of_unseeded unseeded
              ((List.getElem?_take_of_lt (by omega)).trans earlier) target
            rw [← empty]
            exact consistent.entry_le_after ordered walked there lives earlier lives' target
              (below k (by omega) lives' _ earlier)
          · refine Int.le_of_eq (consistent.reset j _ _ previous (j + 1) _ _ linked lives rfl stops
              ⟨plain, fun k source item branching lives' before target => ?_⟩)
            exact entered ⟨k, source, item, before, lives', branching, target⟩
      | false =>
          rw [carried, if_neg (by simp [stops])]
          by_cases lives' : live j
          · rw [consistent.falls j _ _ previous lives' stops lives]
            exact below j (Nat.lt_succ_self j) lives' _ found
          · rw [apart j rfl lives' _ found] at stops
            cases stops

/-- Where dead code gives enough, the walk enters and leaves no live instruction at less than its
    depth. -/
theorem visit_le (consistent : assigned.ConsistentOn live body resolver) (ordered : body.code.Ordered)
    (walked : body.Walked resolver visits) (undisturbed : assigned.Undisturbed live body visits) (i : Nat) :
    ∀ visit, visits[i]? = some visit → live i →
      assigned.entry i ≤ visit.entry ∧ assigned.after i ≤ visit.after := by
  induction i using Nat.strongRecOn with
  | ind i ih =>
      intro visit there lives
      have linked := ordered.items_getElem?.mp (walked.linked i visit there)
      have below : ∀ k < i, live k → ∀ source, visits[k]? = some source →
          assigned.after k ≤ source.after :=
        fun k before lives' source found => (ih k before source found lives').2
      have entered : assigned.entry i ≤ visit.entry := by
        by_cases starts : visit.id ∈ body.exceptionStarts
        · rw [consistent.exception i _ _ linked lives starts]
          exact walked.le_entry there (MethodBody.mem_seedValues.mpr (.inl ⟨starts, rfl⟩))
        by_cases handed : DepthVisit.Hands visits live i visit.id
        · obtain ⟨k, before, lives', source, found, nonzero, target⟩ := handed
          exact Int.le_trans
            (consistent.entry_le_after ordered walked there lives found lives' target
              (below k before lives' source found))
            (walked.le_entry there (MethodBody.mem_seedValues_take before found nonzero target))
        by_cases fed : DepthVisit.FedByDead visits live body i visit.id
        · exact undisturbed i _ _ linked lives fed visit there
        · simp only [DepthVisit.FedByDead, starts, handed, not_false_eq_true, true_and, not_or] at fed
          refine consistent.entry_le_carried ordered walked there lives
            (MethodBody.seedValues_eq_nil starts handed fed.1) below fun k same dead source found => ?_
          by_contra passes
          exact fed.2 ⟨k, by omega, same, dead, source, found, by simpa using passes⟩
      refine ⟨entered, ?_⟩
      exact (consistent.moves i _ _ linked lives).mono
        (Instruction.moves_of_depthAfter (walked.after i visit there)) entered

end DepthAssignment.ConsistentOn

/-- Dead code that leads to no live code behind it does no harm. -/
theorem MethodBody.Separate.undisturbed {body : MethodBody} {live : Nat → Prop}
    (separate : body.Separate live) (consistent : body.code.Consistent) {resolver : Resolver}
    {visits : List DepthVisit} (walked : body.Walked resolver visits) (assigned : DepthAssignment) :
    assigned.Undisturbed live body visits := by
  rintro i id item linked lives ⟨_, _, fed⟩ visit there
  refine absurd lives ?_
  rcases fed with ⟨k, before, dead, source, found, _, target⟩ | ⟨k, _, rfl, dead, source, found, falls⟩
  · have branching := consistent.ordered.items_getElem?.mp (walked.linked k source found)
    exact separate k i dead (mem_successors_of_target consistent branching linked.1 target) before
  · have previous := consistent.ordered.items_getElem?.mp (walked.linked k source found)
    have inside : k + 1 < body.code.length := (List.getElem?_eq_some_iff.mp linked.1).1
    exact separate k (k + 1) dead (mem_successors_of_falls previous falls inside) (Nat.lt_succ_self k)

/-- On a body whose live depths fit together, the walk enters live code nowhere too low if and only if
    dead code gives enough wherever nothing else does. Then the computed maximum is enough for the
    live code, whatever else is linked. It is always so if dead code leads to no live code behind it. -/
theorem DepthCalculator.compute_covers_live (calculator : DepthCalculator)
    (reachable : calculator.body.code.Reachable) {assigned : DepthAssignment}
    (consistent :
      assigned.ConsistentOn calculator.body.Live calculator.body calculator.resolver)
    {maxStack : Nat} (computed : calculator.compute.1 = .ok maxStack) :
    let visits := (calculator.body.analyzeDepth calculator.resolver).visits
    ((∀ i, calculator.body.Live i → ∀ visit ∈ visits[i]?, assigned.entry i ≤ visit.entry) ↔
        assigned.Undisturbed calculator.body.Live calculator.body visits) ∧
      (assigned.Undisturbed calculator.body.Live calculator.body visits →
        ∀ i, calculator.body.Live i → assigned.entry i ≤ maxStack ∧ assigned.after i ≤ maxStack) ∧
      (calculator.body.Separate calculator.body.Live →
        assigned.Undisturbed calculator.body.Live calculator.body visits) := by
  intro visits
  have ordered := reachable.ordered
  have analyzed := calculator.body.analyzed calculator.resolver
  have walked : calculator.body.Walked calculator.resolver visits := analyzed.walked
  refine ⟨⟨fun entered i id item linked lives _ visit there => entered i lives visit there, ?_⟩, ?_,
    fun separate => separate.undisturbed reachable.consistent walked assigned⟩
  · intro undisturbed i lives visit there
    exact (consistent.visit_le ordered walked undisturbed i visit there lives).1
  · intro undisturbed i lives
    have inside := lives.lt_length
    rw [← ordered.length_items, ← analyzed.length_of_ok computed] at inside
    have there : visits[i]? = some visits[i] := List.getElem?_eq_getElem inside
    obtain ⟨entered, left⟩ := consistent.visit_le ordered walked undisturbed i _ there lives
    obtain ⟨entry_le, after_le⟩ := analyzed.le_of_ok computed (List.getElem_mem inside)
    exact ⟨Int.le_trans entered entry_le, Int.le_trans left after_le⟩

/-- Dead code with a branch into live code, and dead code that falls into it; both leave more than
    control has there. -/
def litteredHistory : List Edit := [
  .create .pop .none,
  .create .nop .none,
  .push .ldcI40 .none,
  .push .br (.target ⟨0⟩),
  .push .ldcI40 .none,
  .push .ldcI40 .none,
  .push .brtrue (.target ⟨0⟩),
  .append ⟨0⟩,
  .push .br (.target ⟨1⟩),
  .push .ldcI40 .none,
  .append ⟨1⟩,
  .push .ret .none,
  .push .pop .none,
  .push .ret .none]

def litteredCalculator : DepthCalculator where
  body := {
    code := InstructionList.empty.edits litteredHistory
    clauses := [{ kind := .catching, tryStart := ⟨2⟩, handlerStart := ⟨10⟩ }] }
  resolver := {
    method := fun _ => .ok {}
    signature := fun token => .error (.unknownToken token) }

def litteredDepths : DepthAssignment where
  entry i := [0, 1, 0, 0, 0, 1, 0, 0, 0, 0, 1, 0].getD i 0
  after i := [1, 1, 0, 0, 0, 0, 0, 0, 0, 0, 0, 0].getD i 0

theorem litteredCalculator_compute_covers_live :
    litteredCalculator.body.code.Reachable ∧
      litteredCalculator.body.Live = (· ∈ [0, 10, 1, 11, 5, 6, 8, 9]) ∧
      litteredDepths.ConsistentOn litteredCalculator.body.Live litteredCalculator.body
        litteredCalculator.resolver ∧
      litteredCalculator.compute.1 = .ok 2 ∧
      litteredDepths.Undisturbed litteredCalculator.body.Live litteredCalculator.body
        (litteredCalculator.body.analyzeDepth litteredCalculator.resolver).visits ∧
      ∀ i, litteredCalculator.body.Live i → litteredDepths.entry i ≤ 2 ∧ litteredDepths.after i ≤ 2 := by
  have reachable : litteredCalculator.body.code.Reachable := ⟨litteredHistory, by decide +kernel⟩
  have exhausted : litteredCalculator.body.Exhausted 5 := by decide +kernel
  have live : litteredCalculator.body.Live = (· ∈ [0, 10, 1, 11, 5, 6, 8, 9]) :=
    exhausted.live_eq (by decide +kernel)
  have consistent : litteredDepths.ConsistentOn litteredCalculator.body.Live
      litteredCalculator.body litteredCalculator.resolver := by
    rw [live]
    decide +kernel
  have computed : litteredCalculator.compute.1 = .ok 2 := by decide +kernel
  have undisturbed : litteredDepths.Undisturbed litteredCalculator.body.Live litteredCalculator.body
      (litteredCalculator.body.analyzeDepth litteredCalculator.resolver).visits := by
    rw [live]
    decide +kernel
  exact ⟨reachable, live, consistent, computed, undisturbed,
    (litteredCalculator.compute_covers_live reachable consistent computed).2.1 undisturbed⟩

/-- A branch with an empty stack around an instruction that pops. -/
def poppedCalculator : DepthCalculator where
  body := { code := InstructionList.empty.edits [
    .create .ldcI40 .none,
    .push .br (.target ⟨0⟩),
    .push .pop .none,
    .append ⟨0⟩,
    .push .ret .none] }
  resolver := litteredCalculator.resolver

def poppedDepths : DepthAssignment where
  entry i := [0, 0, 0, 1].getD i 0
  after i := [0, 0, 1, 1].getD i 0

/-- Live code falls with two values into a target of a dead branch with one. -/
def overriddenCalculator : DepthCalculator where
  body := { code := InstructionList.empty.edits [
    .create .ldcI40 .none,
    .create .ldcI40 .none,
    .push .br (.target ⟨0⟩),
    .push .ldcI40 .none,
    .push .br (.target ⟨1⟩),
    .append ⟨0⟩,
    .push .ldcI40 .none,
    .append ⟨1⟩,
    .push .pop .none,
    .push .pop .none,
    .push .pop .none,
    .push .ret .none] }
  resolver := litteredCalculator.resolver

def overriddenDepths : DepthAssignment where
  entry i := [0, 0, 0, 0, 1, 2, 3, 2, 1, 0].getD i 0
  after i := [0, 0, 0, 1, 2, 3, 2, 1, 0, 0].getD i 0

/-- Computed maxima below a depth that live code has. -/
theorem compute_below_live :
    (poppedCalculator.body.code.Reachable ∧
      poppedDepths.ConsistentOn poppedCalculator.body.Live poppedCalculator.body
        poppedCalculator.resolver ∧
      poppedCalculator.compute.1 = .ok 0 ∧ poppedCalculator.body.Live 2 ∧ poppedDepths.after 2 = 1) ∧
    overriddenCalculator.body.code.Reachable ∧
      overriddenDepths.ConsistentOn overriddenCalculator.body.Live overriddenCalculator.body
        overriddenCalculator.resolver ∧
      overriddenCalculator.compute.1 = .ok 2 ∧ overriddenCalculator.body.Live 5 ∧
      overriddenDepths.after 5 = 3 := by
  have exhausted : poppedCalculator.body.Exhausted 2 := by decide +kernel
  have live : poppedCalculator.body.Live = (· ∈ [0, 2, 3]) := exhausted.live_eq (by decide +kernel)
  have exhausted' : overriddenCalculator.body.Exhausted 7 := by decide +kernel
  have live' : overriddenCalculator.body.Live = (· ∈ [0, 3, 4, 5, 6, 7, 8, 9]) :=
    exhausted'.live_eq (by decide +kernel)
  rw [live, live']
  exact ⟨⟨⟨_, rfl⟩, by decide +kernel, rfl, by decide, rfl⟩,
    ⟨_, rfl⟩, by decide +kernel, rfl, by decide, rfl⟩

end CilProfiler
