import CilProfiler.Proofs.Code.Blocks
import CilProfiler.Proofs.Depth.Moves
import CilProfiler.Proofs.Depth.Solution

/-! # Instrumented bodies

New code that control only runs through, and that leaves the stack as deep as it finds it, changes no
depth of the code around it: what the walk carries to the new code it carries behind it, and seeds go
past it, since no branch leads to it or starts in it. The maximum of the instrumented body is that of
the old body or the greatest depth of the new code.

An exception entry is seeded by its handle, whether there is an instruction behind it or not. A block
that a clause names as an entry starts with the exception object, and nothing is said of it here.
-/

namespace CilProfiler

/-- Control goes on behind the opcode, and nowhere else. -/
def Opcode.Straight (op : Opcode) : Prop :=
  op.flow.stopsFlow = false ∧ op.flow ≠ .condBranch

instance (op : Opcode) : Decidable op.Straight :=
  inferInstanceAs (Decidable (_ ∧ _))

namespace Opcode

variable {op : Opcode} {operand : Operand}

theorem not_straight_of_all (pops : op.info.pops.effect = .all) : ¬op.Straight := by
  revert pops
  cases op <;> decide

theorem not_straight_of_variable (plain : op.flow ≠ .call) (pops : op.info.pops.effect = .variable) :
    ¬op.Straight := by
  revert plain pops
  cases op <;> decide

theorem Straight.takesTargets (straight : op.Straight) : op.operandType.takesTargets = false := by
  revert straight
  cases op <;> decide

theorem Straight.targets_eq_nil (straight : op.Straight) (taken : op.Takes operand) :
    operand.targets = [] := by
  have type := straight.takesTargets
  have fits : operand.fits op = true := Operand.fits_iff.mpr taken.1
  cases operand with
  | target =>
      rcases of_decide_eq_true fits with near | far
      · rw [near] at type
        cases type
      · rw [far] at type
        cases type
  | switch =>
      rw [of_decide_eq_true fits] at type
      cases type
  | none | int8 | uint8 | uint16 | int32 | int64 | float32 | float64 | string | token => rfl

end Opcode

namespace Instruction

variable {resolver : Resolver} {item item' : Instruction} {before after : Int}

theorem calleeShape_of_same (code : item.code = item'.code) (operand : item.operand = item'.operand)
    {callee : CallShape} (resolved : item.calleeShape resolver = .ok callee) :
    item'.calleeShape resolver = .ok callee := by
  unfold calleeShape token? at resolved ⊢
  rw [← code, ← operand]
  split at resolved
  · cases resolved
  · split at resolved <;> rename_i indirect
    · rw [if_pos indirect]
      obtain ⟨blob, found, parsed⟩ := Outcome.bind_eq_ok.mp resolved
      refine Outcome.bind_eq_ok.mpr ⟨blob, ?_, ?_⟩
      · exact Outcome.mapError_eq_ok.mpr (Outcome.mapError_eq_ok.mp found)
      · exact Outcome.mapError_eq_ok.mpr (Outcome.mapError_eq_ok.mp parsed)
    · rw [if_neg indirect]
      exact Outcome.mapError_eq_ok.mpr (Outcome.mapError_eq_ok.mp resolved)

/-- Where an instruction stands matters for errors only. -/
theorem depthAfter_of_same (code : item.code = item'.code) (operand : item.operand = item'.operand)
    {depth computed : Depth} (evaluated : item.depthAfter resolver depth = .ok computed) :
    item'.depthAfter resolver depth = .ok computed := by
  by_cases family : item.code.flow = .call
  · cases resolved : item.calleeShape resolver with
    | error reason => simp [depthAfter, family, resolved, bind, Except.bind] at evaluated
    | ok callee =>
        rw [depthAfter_call family resolved, code] at evaluated
        exact (depthAfter_call (code ▸ family) (calleeShape_of_same code operand resolved)).mpr evaluated
  · rw [depthAfter_plain family, code] at evaluated
    exact (depthAfter_plain (code ▸ family)).mpr evaluated

/-- What an instruction changes the depth by, if control goes on behind it. -/
def change? (resolver : Resolver) (item : Instruction) : Option Int :=
  item.destination? resolver 0

theorem Moves.change?_eq (moves : item.Moves resolver before after) (straight : item.code.Straight) :
    item.change? resolver = some (after - before) := by
  cases moves with
  | @call callee family resolved =>
      have same : before + item.code.callEffect callee - before = 0 + item.code.callEffect callee := by
        omega
      rw [same, change?, ← moves_iff]
      exact .call family resolved
  | @fixed count plain pops =>
      have same : before - count + item.code.info.pushes.count - before =
          0 - count + item.code.info.pushes.count := by omega
      rw [same, change?, ← moves_iff]
      exact .fixed plain pops
  | clears plain pops => exact absurd straight (Opcode.not_straight_of_all pops)
  | keeps plain pops => exact absurd straight (Opcode.not_straight_of_variable plain pops)

end Instruction

/-- Depths behind the instructions of straight code that is entered at a depth. -/
def depthsBehind (resolver : Resolver) (depth : Depth) :
    List (Opcode × Operand) → Except DepthError (List Depth)
  | [] => .ok []
  | (code, operand) :: rest => do
    let after ← Instruction.depthAfter resolver { code, operand } depth
    let later ← depthsBehind resolver after rest
    return after :: later

/-- The highest of a depth and those behind it. -/
def highest (depth : Depth) (depths : List Depth) : Depth :=
  depths.foldl max depth

theorem highest_max (depths : List Depth) (depth other : Depth) :
    highest (max depth other) depths = max depth (highest other depths) := by
  induction depths generalizing other with
  | nil => rfl
  | cons first rest ih =>
      rw [highest, List.foldl_cons, Int.max_assoc]
      exact ih (max other first)

/-- Sum of what the instructions of straight code change the depth by. -/
def netChange? (resolver : Resolver) : List (Opcode × Operand) → Option Int
  | [] => some 0
  | (code, operand) :: rest => do
    let first ← Instruction.change? resolver { code, operand }
    let others ← netChange? resolver rest
    return first + others

namespace DepthVisit

theorem carried_concat (visits : List DepthVisit) (visit : DepthVisit) :
    carried (visits ++ [visit]) = if visit.item.code.flow.stopsFlow then 0 else visit.after := by
  simp [carried]

theorem peak_concat (visits : List DepthVisit) (visit : DepthVisit) :
    peak (visits ++ [visit]) = max (max (peak visits) visit.entry) visit.after := by
  simp [peak]

theorem peak_append (visits more : List DepthVisit) :
    peak (visits ++ more) = max (peak visits) (peak more) := by
  induction more generalizing visits with
  | nil =>
      rw [List.append_nil]
      exact (Int.max_eq_left (peak_spec visits).1.1).symm
  | cons first more ih =>
      have single : peak [first] = max (max 0 first.entry) first.after := peak_concat [] first
      have whole : peak (first :: more) = max (peak [first]) (peak more) := ih [first]
      have regroup : ∀ a b c d : Int, 0 ≤ a → max (max (max a b) c) d = max a (max (max (max 0 b) c) d) := by
        omega
      rw [List.append_cons, ih, peak_concat, whole, single]
      exact regroup _ _ _ _ (peak_spec visits).1.1

theorem carried_le_peak (visits : List DepthVisit) : carried visits ≤ peak visits := by
  obtain ⟨⟨nonneg, bounds⟩, -⟩ := peak_spec visits
  unfold carried
  split
  · exact nonneg
  · rename_i last there
    split
    · exact nonneg
    · exact (bounds last (List.mem_of_getLast? there)).2

/-- Visits of what is one instruction, in two places. -/
structure Repeats (visit visit' : DepthVisit) : Prop extends visit.InStep visit' where
  id : visit.id = visit'.id
  code : visit.item.code = visit'.item.code
  operand : visit.item.operand = visit'.item.operand

end DepthVisit

namespace MethodBody

variable {body other : MethodBody} {resolver : Resolver} {visits visits' : List DepthVisit}

/-- A walk comes to the instruction that the order has next. -/
theorem Walked.next {rest : List InstrId} (walked : body.Walked resolver visits)
    (ordered : body.code.Ordered) (visit : DepthVisit)
    (left : body.code.order.drop visits.length = visit.id :: rest)
    (found : body.code.get? visit.id = some visit.item)
    (entry : visit.entry = body.entryDepth visits visit.id)
    (after : visit.item.depthAfter resolver visit.entry = .ok visit.after) :
    body.Walked resolver (visits ++ [visit]) ∧
      body.code.order.drop (visits ++ [visit]).length = rest := by
  have placed : body.code.at? visits.length = some visit.id := by
    rw [InstructionList.at?, ← List.head?_drop, left]
    rfl
  refine ⟨walked.concat visit (ordered.items_getElem?.mpr ⟨placed, found⟩) entry after, ?_⟩
  rw [List.length_append, List.length_singleton, ← List.drop_drop, left]
  rfl

/-- Walks over two bodies go on alike: they carry the same depth and have seeded the same. -/
structure StandAlike (body other : MethodBody) (visits visits' : List DepthVisit) : Prop where
  carried : DepthVisit.carried visits = DepthVisit.carried visits'
  seeds : ∀ id, (body.seedValues visits id).max? = (other.seedValues visits' id).max?

namespace StandAlike

theorem start (entries : body.exceptionStarts = other.exceptionStarts) : StandAlike body other [] [] where
  carried := rfl
  seeds id := by rw [seedValues, seedValues, entries]

variable (alike : StandAlike body other visits visits')

include alike

theorem entryDepth_eq (id : InstrId) : body.entryDepth visits id = other.entryDepth visits' id := by
  rw [entryDepth, entryDepth, alike.seeds, alike.carried]

theorem concat {visit visit' : DepthVisit} (repeats : visit.Repeats visit') :
    StandAlike body other (visits ++ [visit]) (visits' ++ [visit']) where
  carried := by
    rw [DepthVisit.carried_concat, DepthVisit.carried_concat, repeats.code, repeats.after]
  seeds id := by
    rw [max?_seedValues_concat, max?_seedValues_concat, alike.seeds, repeats.after,
      Instruction.targets, Instruction.targets, repeats.operand]

/-- What one walk goes on with the other one goes on with, if it comes to the same instructions. -/
theorem replay {segment : List DepthVisit} {rest : List InstrId} (ordered : other.code.Ordered)
    (walked : body.Walked resolver (visits ++ segment)) (walked' : other.Walked resolver visits')
    (left : other.code.order.drop visits'.length = segment.map (·.id) ++ rest)
    (same : ∀ visit ∈ segment, other.code.contents[visit.id.index]? =
      some (visit.item.code, visit.item.operand)) :
    ∃ segment', List.Forall₂ DepthVisit.Repeats segment segment' ∧
      other.Walked resolver (visits' ++ segment') ∧
      StandAlike body other (visits ++ segment) (visits' ++ segment') := by
  induction segment generalizing visits visits' with
  | nil =>
      refine ⟨[], .nil, ?_, ?_⟩
      · rwa [List.append_nil]
      · rwa [List.append_nil, List.append_nil]
  | cons visit segment ih =>
      have there : (visits ++ visit :: segment)[visits.length]? = some visit := by simp
      have entry := walked.entry _ _ there
      rw [List.take_left, alike.entryDepth_eq] at entry
      obtain ⟨item, found, code, operand⟩ :=
        InstructionList.contents_eq_some.mp (same visit List.mem_cons_self)
      let visit' : DepthVisit := { visit with item }
      have repeats : visit.Repeats visit' := ⟨⟨rfl, rfl⟩, rfl, code.symm, operand.symm⟩
      have after := Instruction.depthAfter_of_same code.symm operand.symm (walked.after _ _ there)
      obtain ⟨walked_next, left_next⟩ := walked'.next ordered visit' left found entry after
      have walked_on : body.Walked resolver ((visits ++ [visit]) ++ segment) := by
        rwa [List.append_assoc]
      obtain ⟨segment', others, walked_all, alike_all⟩ := ih (alike.concat repeats) walked_on walked_next
        left_next fun later member => same later (List.mem_cons_of_mem _ member)
      rw [List.append_assoc] at walked_all
      rw [List.append_assoc, List.append_assoc] at alike_all
      exact ⟨visit' :: segment', .cons repeats others, walked_all, alike_all⟩

end StandAlike

/-- A walk goes on through visits that seed nothing. They change the depth that is carried, and come to
    the depths given. -/
structure Traverses (body : MethodBody) (resolver : Resolver) (visits segment : List DepthVisit)
    (net : Int) (depths : List Depth) : Prop where
  walked : body.Walked resolver (visits ++ segment)
  carried : DepthVisit.carried (visits ++ segment) = DepthVisit.carried visits + net
  seeds : ∀ id, (body.seedValues (visits ++ segment) id).max? = (body.seedValues visits id).max?
  peak : DepthVisit.peak (visits ++ segment) = highest (DepthVisit.peak visits) depths

namespace Traverses

variable {segment later : List DepthVisit} {net net' : Int} {depths depths' : List Depth}

theorem nil (walked : body.Walked resolver visits) : body.Traverses resolver visits [] 0 [] where
  walked := by rwa [List.append_nil]
  carried := by rw [List.append_nil, Int.add_zero]
  seeds id := by rw [List.append_nil]
  peak := by rw [List.append_nil]; rfl

theorem append (first : body.Traverses resolver visits segment net depths)
    (second : body.Traverses resolver (visits ++ segment) later net' depths') :
    body.Traverses resolver visits (segment ++ later) (net + net') (depths ++ depths') where
  walked := by
    rw [← List.append_assoc]
    exact second.walked
  carried := by
    rw [← List.append_assoc, second.carried, first.carried]
    exact Int.add_assoc ..
  seeds id := by rw [← List.append_assoc, second.seeds, first.seeds]
  peak := by
    rw [← List.append_assoc, second.peak, first.peak]
    exact List.foldl_append.symm

end Traverses

section Straight

variable {ids rest : List InstrId} {id : InstrId} {content : Opcode × Operand}
  {block : List (Opcode × Operand)} {after : Depth} {depths : List Depth} {net : Int}
  (ordered : body.code.Ordered) (walked : body.Walked resolver visits)

include ordered walked

/-- A walk passes a straight instruction to which nothing is handed. -/
theorem Walked.pass (left : body.code.order.drop visits.length = id :: rest)
    (there : body.code.contents[id.index]? = some content)
    (unhanded : (body.seedValues visits id).max? = none)
    (straight : content.1.Straight ∧ content.2.targets = [])
    (behind : Instruction.depthAfter resolver { code := content.1, operand := content.2 }
      (DepthVisit.carried visits) = .ok after)
    (changed : Instruction.change? resolver { code := content.1, operand := content.2 } = some net) :
    ∃ visit, body.Traverses resolver visits [visit] net [after] ∧
      DepthVisit.carried (visits ++ [visit]) = after ∧
      body.code.order.drop (visits ++ [visit]).length = rest := by
  obtain ⟨item, found, code, operand⟩ := InstructionList.contents_eq_some.mp there
  obtain ⟨flows, untargeting⟩ := straight
  have moved := (Instruction.moves_of_depthAfter behind).change?_eq flows
  rw [changed, Option.some.injEq] at moved
  have entry : DepthVisit.carried visits = body.entryDepth visits id := by
    rw [entryDepth, unhanded, Option.getD_none]
  let visit : DepthVisit := ⟨id, item, DepthVisit.carried visits, after⟩
  obtain ⟨walked_next, left_next⟩ := walked.next ordered visit left found entry
    (Instruction.depthAfter_of_same code.symm operand.symm behind)
  have carried : DepthVisit.carried (visits ++ [visit]) = after := by
    rw [DepthVisit.carried_concat, code, if_neg (by simp [flows.1])]
  refine ⟨visit, ⟨walked_next, ?_, fun other => ?_, ?_⟩, carried, left_next⟩
  · have total : ∀ a b : Int, a = b + (a - b) := by omega
    rw [carried, moved]
    exact total _ _
  · rw [max?_seedValues_concat, if_neg]
    rintro ⟨-, target⟩
    rw [Instruction.targets, operand, untargeting] at target
    cases target
  · rw [DepthVisit.peak_concat, Int.max_eq_left (DepthVisit.carried_le_peak visits)]
    rfl

/-- A walk goes through a block of straight code to which nothing is handed. -/
theorem Walked.traverse (left : body.code.order.drop visits.length = ids ++ rest)
    (contents : List.Forall₂ (fun id content => body.code.contents[id.index]? = some content) ids block)
    (unhanded : ∀ id ∈ ids, (body.seedValues visits id).max? = none)
    (straight : ∀ content ∈ block, content.1.Straight ∧ content.2.targets = [])
    (evaluated : depthsBehind resolver (DepthVisit.carried visits) block = .ok depths)
    (change : netChange? resolver block = some net) :
    ∃ segment, segment.length = ids.length ∧ body.Traverses resolver visits segment net depths := by
  induction contents generalizing visits depths net with
  | nil =>
      cases evaluated
      cases change
      exact ⟨[], rfl, .nil walked⟩
  | @cons id content ids block there others ih =>
      obtain ⟨after, behind, evaluated⟩ := Outcome.bind_eq_ok.mp evaluated
      obtain ⟨later, behind_later, evaluated⟩ := Outcome.bind_eq_ok.mp evaluated
      cases evaluated
      obtain ⟨change_first, changed, change⟩ := Option.bind_eq_some_iff.mp change
      obtain ⟨change_later, changed_later, change⟩ := Option.bind_eq_some_iff.mp change
      cases change
      obtain ⟨visit, passed, carried, left_next⟩ := walked.pass ordered left there
        (unhanded id List.mem_cons_self) (straight content List.mem_cons_self) behind changed
      have unhanded_next : ∀ other ∈ ids, (body.seedValues (visits ++ [visit]) other).max? = none :=
        fun other member => (passed.seeds other).trans (unhanded other (List.mem_cons_of_mem id member))
      obtain ⟨segment, length, traversed⟩ := ih passed.walked left_next unhanded_next
        (fun later member => straight later (List.mem_cons_of_mem content member))
        (carried ▸ behind_later) changed_later
      exact ⟨visit :: segment, congrArg Nat.succ length, passed.append traversed⟩

end Straight

theorem Walked.map_id (walked : body.Walked resolver visits) (ordered : body.code.Ordered)
    (all : visits.length = body.code.length) : visits.map (·.id) = body.code.order := by
  refine List.ext_getElem (by rw [List.length_map, all]; rfl) fun i inside _ => ?_
  rw [List.length_map] at inside
  have linked := ordered.items_getElem?.mp (walked.linked i _ (List.getElem?_eq_getElem inside))
  obtain ⟨_, same⟩ := List.getElem?_eq_some_iff.mp linked.1
  rw [List.getElem_map, same]

/-- A walk over the whole code gives its peak. -/
theorem Walked.outcome_eq (walked : body.Walked resolver visits)
    (all : visits.length = body.code.items.length) :
    (body.analyzeDepth resolver).outcome = .ok (DepthVisit.peak visits).toNat := by
  have solves : body.Solves resolver visits :=
    { linked := walked.linked
      entry := fun _ _ there => walked.enters there
      after := walked.after
      ends := fun id item found => by
        rw [List.getElem?_eq_none (Nat.le_of_eq all.symm)] at found
        cases found }
  have analyzed := body.analyzed resolver
  rw [← solves_iff.mp solves] at analyzed
  exact analyzed.completes all

/-- No instruction of a list leads to one that is created later. -/
theorem Walked.unhanded (walked : body.Walked resolver visits) (reachable : body.code.Reachable)
    {id : InstrId} (created : body.code.arena.size ≤ id.index) (unnamed : id ∉ body.exceptionStarts) :
    (body.seedValues visits id).max? = none := by
  rw [List.max?_eq_none_iff, List.eq_nil_iff_forall_not_mem]
  intro depth handed
  rcases mem_seedValues.mp handed with ⟨starts, -⟩ | ⟨visit, member, -, target, -⟩
  · exact unnamed starts
  · obtain ⟨i, there⟩ := List.getElem?_of_mem member
    have linked := reachable.ordered.items_getElem?.mp (walked.linked i visit there)
    have before := reachable.targets_lt linked.2 id target
    have inside := reachable.consistent.created (List.mem_of_getElem? linked.1)
    omega

section Gains

variable {edited : InstructionList} {index maxStack : Nat} {ids : List InstrId}
  {block : List (Opcode × Operand)} {depths : List Depth} (reachable : body.code.Reachable)
  (consistent : edited.Consistent) (gains : body.code.Gains edited index ids block)
  (inside : index ≤ body.code.length) (unnamed : ∀ id ∈ ids, id ∉ body.exceptionStarts)
  (straight : ∀ content ∈ block, content.1.Straight ∧ content.2.targets = [])
  (neutral : netChange? resolver block = some 0)

include reachable consistent gains inside unnamed straight neutral

/-- A walk over the whole code goes through a block that leaves the stack as deep as it finds it, and on
    behind the block as before. -/
theorem Walked.splice (walked : body.Walked resolver visits)
    (all : visits.length = body.code.items.length)
    (evaluated : depthsBehind resolver (DepthVisit.carried (visits.take index)) block = .ok depths) :
    ∃ spliced, Walked { body with code := edited } resolver spliced ∧
      spliced.length = edited.items.length ∧ DepthVisit.peak spliced =
        max (DepthVisit.peak visits) (highest (DepthVisit.carried (visits.take index)) depths) := by
  rw [reachable.ordered.length_items] at all
  have handles := walked.map_id reachable.ordered all
  have kept : ∀ visit ∈ visits, edited.contents[visit.id.index]? =
      some (visit.item.code, visit.item.operand) := by
    intro visit member
    obtain ⟨i, there⟩ := List.getElem?_of_mem member
    have linked := reachable.ordered.items_getElem?.mp (walked.linked i visit there)
    exact gains.kept _ _ (InstructionList.contents_of_get? linked.2)
  -- In front of the block both walks come to the same instructions.
  have start : StandAlike body { body with code := edited } [] [] := .start rfl
  have at_front : edited.order.drop 0 =
      (visits.take index).map (·.id) ++ (ids ++ body.code.order.drop index) := by
    rw [List.map_take, handles]
    exact gains.order
  obtain ⟨front, same_front, walked_front, alike_front⟩ := start.replay consistent.ordered
    (walked.take index) (Walked.nil _ resolver) at_front
    fun visit member => kept visit (List.mem_of_mem_take member)
  simp only [List.nil_append] at walked_front alike_front
  have length_front : front.length = index := by
    rw [← same_front.length_eq, List.length_take_of_le (all ▸ inside)]
  -- Nothing is handed to the block, and it hands on what it was given.
  have at_block : edited.order.drop front.length = ids ++ body.code.order.drop index := by
    rw [gains.order, length_front, List.drop_left' (List.length_take_of_le inside)]
  rw [alike_front.carried] at evaluated
  have unhanded : ∀ id ∈ ids,
      (seedValues { body with code := edited } front id).max? = none := fun id member =>
    (alike_front.seeds id).symm.trans
      ((walked.take index).unhanded reachable (gains.created id member) (unnamed id member))
  obtain ⟨middle, length_middle, traversed⟩ := walked_front.traverse consistent.ordered at_block
    gains.block unhanded straight evaluated neutral
  have alike_middle :
      StandAlike body { body with code := edited } (visits.take index) (front ++ middle) := by
    refine ⟨?_, fun id => ?_⟩
    · rw [traversed.carried, alike_front.carried]
      exact (Int.add_zero _).symm
    · rw [traversed.seeds, alike_front.seeds]
  -- Behind the block they come to the same instructions again.
  have at_back : edited.order.drop (front ++ middle).length = (visits.drop index).map (·.id) ++ [] := by
    rw [List.length_append, ← List.drop_drop, at_block, length_middle, List.drop_left, List.map_drop,
      handles, List.append_nil]
  have walked_whole : body.Walked resolver (visits.take index ++ visits.drop index) := by
    rwa [List.take_append_drop]
  obtain ⟨back, same_back, walked_back, -⟩ := alike_middle.replay consistent.ordered walked_whole
    traversed.walked at_back fun visit member => kept visit (List.mem_of_mem_drop member)
  refine ⟨front ++ middle ++ back, walked_back, ?_, ?_⟩
  · have length_back : back.length = body.code.order.length - index := by
      rw [← same_back.length_eq, List.length_drop, all]
      rfl
    rw [consistent.ordered.length_items, InstructionList.length, gains.order]
    simp only [List.length_append, length_front, length_middle, length_back, List.length_drop,
      List.length_take_of_le (show index ≤ body.code.order.length from inside)]
    omega
  · have halves := DepthVisit.peak_append (visits.take index) (visits.drop index)
    rw [List.take_append_drop] at halves
    have carried := DepthVisit.carried_le_peak (visits.take index)
    have front_eq := DepthVisit.peak_congr (same_front.imp fun _ _ repeats => repeats.toInStep)
    have back_eq := DepthVisit.peak_congr (same_back.imp fun _ _ repeats => repeats.toInStep)
    rw [DepthVisit.peak_append, traversed.peak, ← front_eq, ← back_eq, halves,
      ← Int.max_eq_left carried, highest_max, Int.max_eq_left carried, Int.max_assoc,
      Int.max_comm (highest _ _), ← Int.max_assoc]

/-- A body has the same maximum with new code that leaves the stack as deep as it finds it, if that code
    does not come higher. -/
theorem outcome_of_gains
    (evaluated : depthsBehind resolver
      (DepthVisit.carried ((body.analyzeDepth resolver).visits.take index)) block = .ok depths)
    (computed : (body.analyzeDepth resolver).outcome = .ok maxStack) :
    (analyzeDepth { body with code := edited } resolver).outcome =
      .ok (max maxStack (highest
        (DepthVisit.carried ((body.analyzeDepth resolver).visits.take index)) depths).toNat) := by
  have analyzed := body.analyzed resolver
  obtain ⟨spliced, walked, all, peak⟩ := analyzed.walked.splice reachable consistent gains inside unnamed
    straight neutral (analyzed.length_of_ok computed) evaluated
  have natural : ∀ (a b : Int) (n : Nat), (n : Int) = a → (max a b).toNat = max n b.toNat := by omega
  rw [walked.outcome_eq all, peak, natural _ _ _ (analyzed.peak_of_ok computed)]

end Gains

end MethodBody

/-- Instructions are created and linked side by side at a position, all of them straight code, which
    leaves the depth as it finds it and is entered by no exception. Then the maximum of the body is what
    it was, or the highest depth of the new code if that is higher. The new code starts at the depth that
    is carried to its position, which is zero in front of the whole body. -/
theorem DepthCalculator.compute_insertAll (calculator : DepthCalculator)
    (reachable : calculator.body.code.Reachable) {maxStack : Nat}
    (computed : calculator.compute.1 = .ok maxStack) {index : Nat}
    (inside : index ≤ calculator.body.code.length) {start : Depth}
    (carries : DepthVisit.carried
      ((calculator.body.analyzeDepth calculator.resolver).visits.take index) = start)
    {block : List (Opcode × Operand)} {ids : List InstrId} {created : InstructionList}
    (made : calculator.body.code.createAll block = .ok (ids, created))
    (straight : ∀ content ∈ block, content.1.Straight)
    (neutral : netChange? calculator.resolver block = some 0) {depths : List Depth}
    (evaluated : depthsBehind calculator.resolver start block = .ok depths)
    (unnamed : ∀ id ∈ ids, id ∉ calculator.body.exceptionStarts) :
    ∃ edited, created.insertAll index ids = .ok edited ∧
      (compute { calculator with body := { calculator.body with code := edited } }).1 =
        .ok (max maxStack (highest start depths).toNat) := by
  subst carries
  obtain ⟨edited, inserted, consistent, gains⟩ := reachable.consistent.gains inside made
  have untargeting : ∀ content ∈ block, content.1.Straight ∧ content.2.targets = [] := by
    intro content member
    have taken := InstructionList.takes_of_createAll made content member
    exact ⟨straight content member, (straight content member).targets_eq_nil taken⟩
  exact ⟨edited, inserted, MethodBody.outcome_of_gains reachable consistent gains inside unnamed
    untargeting neutral evaluated computed⟩

/-- A call of a static method with two parameters, between a load and the branch that uses it. -/
def hookBlock : List (Opcode × Operand) := [
  (.ldcI8, .int64 0x7F000001),
  (.ldcI40, .none),
  (.call, .token ⟨0x06000007⟩)]

def hookCalculator : DepthCalculator where
  body := { code := InstructionList.empty.edits [
    .create .ret .none,
    .push .ldarg0 .none,
    .push .brtrueS (.target ⟨0⟩),
    .push .nop .none,
    .append ⟨0⟩] }
  resolver := {
    method := fun _ => .ok { paramCount := 2 }
    signature := fun token => .error (.unknownToken token) }

theorem hookCalculator_compute_insertAll :
    hookCalculator.compute.1 = .ok 1 ∧
      ∃ created edited, hookCalculator.body.code.createAll hookBlock = .ok ([⟨4⟩, ⟨5⟩, ⟨6⟩], created) ∧
        created.insertAll 1 [⟨4⟩, ⟨5⟩, ⟨6⟩] = .ok edited ∧
        (DepthCalculator.compute { hookCalculator with body := { hookCalculator.body with code := edited } }).1 =
          .ok 3 := by
  have computed : hookCalculator.compute.1 = .ok 1 := by decide +kernel
  have made : hookCalculator.body.code.createAll hookBlock = .ok ([⟨4⟩, ⟨5⟩, ⟨6⟩],
      hookCalculator.body.code.edits (hookBlock.map fun content => .create content.1 content.2)) := by
    decide +kernel
  have inside : 1 ≤ hookCalculator.body.code.length := by decide +kernel
  have carries : DepthVisit.carried
      ((hookCalculator.body.analyzeDepth hookCalculator.resolver).visits.take 1) = 1 := by decide +kernel
  have evaluated : depthsBehind hookCalculator.resolver 1 hookBlock = .ok [2, 3, 1] := by decide +kernel
  obtain ⟨edited, inserted, result⟩ := hookCalculator.compute_insertAll ⟨_, rfl⟩ computed inside carries
    made (by decide) (by decide) evaluated (by decide)
  exact ⟨computed, _, edited, made, inserted, result⟩

/-- A body with a clause for an instruction that is not there yet. -/
def awaitingCalculator : DepthCalculator where
  body := {
    code := InstructionList.empty.edits [.push .ret .none]
    clauses := [{ kind := .catching, tryStart := ⟨0⟩, handlerStart := ⟨1⟩ }] }
  resolver := {
    method := fun token => .error (.unknownToken token)
    signature := fun token => .error (.unknownToken token) }

/-- The clause seeds the new instruction, which needs no stack itself. -/
theorem compute_awaited_block :
    awaitingCalculator.body.code.Reachable ∧ awaitingCalculator.compute.1 = .ok 0 ∧
      ∃ created edited, awaitingCalculator.body.code.createAll [(.nop, .none)] = .ok ([⟨1⟩], created) ∧
        created.insertAll 0 [⟨1⟩] = .ok edited ∧ Opcode.nop.Straight ∧
        netChange? awaitingCalculator.resolver [(.nop, .none)] = some 0 ∧
        depthsBehind awaitingCalculator.resolver 0 [(.nop, .none)] = .ok [0] ∧
        (DepthCalculator.compute
          { awaitingCalculator with body := { awaitingCalculator.body with code := created } }).1 = .ok 0 ∧
        (DepthCalculator.compute
          { awaitingCalculator with body := { awaitingCalculator.body with code := edited } }).1 = .ok 1 ∧
        max 0 (highest 0 [0]).toNat ≠ 1 := by
  refine ⟨⟨_, rfl⟩, by decide +kernel, awaitingCalculator.body.code.edits [.create .nop .none],
    awaitingCalculator.body.code.edits [.create .nop .none, .insert 0 ⟨1⟩], ?_⟩
  decide +kernel

end CilProfiler
