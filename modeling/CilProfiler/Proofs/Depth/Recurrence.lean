import CilProfiler.Depth.Walk

/-! # The depth recurrence

The walk keeps a map of seeds and a carried depth and changes both as it goes. What it computes
has a description without state: an instruction is entered at the greatest depth that the
instructions before it, or an exception, hand to it, and where nothing is handed to it at the
depth that the instruction before leaves.

`MethodBody.analyzed` ties the two together. Everything else about the depths of a body follows
from the recurrence by induction on positions, without opening the walk again.
-/

namespace CilProfiler

namespace Seeds

variable (seeds : Seeds) (id other : InstrId) (depth : Depth) (targets : List InstrId)

theorem depth?_insert :
    depth? (seeds.insert id.index depth) other = if id = other then some depth else seeds.depth? other := by
  cases id
  cases other
  simp [depth?, Std.TreeMap.getElem?_insert]

/-- A seed becomes at least the depth it is raised to. -/
theorem depth?_raise :
    (raise depth seeds id).depth? other =
      if id = other then some ((seeds.depth? other).elim depth (max · depth))
      else seeds.depth? other := by
  unfold raise
  split <;> rename_i seeded <;> rw [depth?_insert] <;> split <;> simp_all

theorem depth?_foldl_raise :
    (targets.foldl (raise depth) seeds).depth? other =
      if other ∈ targets then some ((seeds.depth? other).elim depth (max · depth))
      else seeds.depth? other := by
  induction targets generalizing seeds with
  | nil => rfl
  | cons target rest ih =>
      rw [List.foldl_cons, ih, depth?_raise]
      by_cases first : target = other
      · -- A target that is named twice is raised to the same depth twice.
        cases seeds.depth? other <;> simp [first]
      · simp [first, Ne.symm first]

/-- Branches with an empty stack seed nothing. -/
theorem depth?_propagate :
    (seeds.propagate targets depth).depth? other =
      if depth ≠ 0 ∧ other ∈ targets then some ((seeds.depth? other).elim depth (max · depth))
      else seeds.depth? other := by
  unfold propagate
  split
  · rename_i empty
    simp [empty]
  · rename_i nonempty
    simp [depth?_foldl_raise, nonempty]

theorem depth?_ofEntries (entries : List InstrId) :
    (ofEntries entries).depth? id = if id ∈ entries then some objectSlots else none := by
  suffices grown : ∀ start : Seeds,
      (entries.foldl (fun seeds id => seeds.insert id.index objectSlots) start).depth? id =
        if id ∈ entries then some objectSlots else start.depth? id by
    rw [ofEntries, grown]
    simp [depth?]
  induction entries with
  | nil => exact fun start => rfl
  | cons entry rest ih =>
      intro start
      rw [List.foldl_cons, ih, depth?_insert]
      by_cases first : entry = id
      · simp [first]
      · simp [first, Ne.symm first]

end Seeds

namespace DepthVisit

/-- Depth that visits leave to the instruction behind the last one. -/
def carried (visits : List DepthVisit) : Depth :=
  match visits.getLast? with
  | none => 0
  | some last => if last.item.code.flow.stopsFlow then 0 else last.after

/-- Greatest depth in front of or behind a visited instruction. -/
def peak (visits : List DepthVisit) : Depth :=
  visits.foldl (fun peak visit => max (max peak visit.entry) visit.after) 0

end DepthVisit

namespace MethodBody

/-- Depths that are handed to an instruction: the exception object's, and the depth behind each
    visited branch to it unless that is zero. -/
def seedValues (body : MethodBody) (visits : List DepthVisit) (id : InstrId) : List Depth :=
  (if id ∈ body.exceptionStarts then [Seeds.objectSlots] else []) ++
    (visits.filter fun visit => visit.after ≠ 0 ∧ id ∈ visit.item.targets).map (·.after)

/-- Depth with which an instruction is entered after the visits before it. -/
def entryDepth (body : MethodBody) (visits : List DepthVisit) (id : InstrId) : Depth :=
  (body.seedValues visits id).max?.getD (DepthVisit.carried visits)

/-- The visits follow the code from its start, and each obeys the recurrence. -/
structure Walked (body : MethodBody) (resolver : Resolver) (visits : List DepthVisit) : Prop where
  linked : ∀ (i : Nat) (visit : DepthVisit), visits[i]? = some visit →
    body.code.items[i]? = some (visit.id, visit.item)
  entry : ∀ (i : Nat) (visit : DepthVisit), visits[i]? = some visit →
    visit.entry = body.entryDepth (visits.take i) visit.id
  after : ∀ (i : Nat) (visit : DepthVisit), visits[i]? = some visit →
    visit.item.depthAfter resolver visit.entry = .ok visit.after

end MethodBody

/-- The state of a walk is what the recurrence says about the visits behind it. -/
structure DepthWalk.Behind (body : MethodBody) (walk : DepthWalk) (visits : List DepthVisit) :
    Prop where
  seeds : ∀ id, walk.seeds.depth? id = (body.seedValues visits id).max?
  carried : walk.carried = DepthVisit.carried visits
  peak : walk.peak = DepthVisit.peak visits

/-- What a walk finds, told by the recurrence. -/
structure DepthAnalysis.Describes (analysis : DepthAnalysis) (body : MethodBody)
    (resolver : Resolver) (visits : List DepthVisit) : Prop where
  walked : body.Walked resolver visits
  seeds : ∀ id, analysis.seeds.depth? id = (body.seedValues visits id).max?
  /-- A walk that has visited every instruction gives the peak. -/
  completes : visits.length = body.code.items.length →
    analysis.outcome = .ok (DepthVisit.peak visits).toNat
  /-- Any other walk stops at the instruction behind the last visit. -/
  stops : ∀ id item, body.code.items[visits.length]? = some (id, item) →
    ∃ reason, item.depthAfter resolver (body.entryDepth visits id) = .error reason ∧
      analysis.outcome = .error reason

namespace MethodBody

variable {body : MethodBody} {resolver : Resolver} {visits : List DepthVisit}

private theorem max?_concat (depths : List Depth) (depth : Depth) :
    (depths ++ [depth]).max? = some (depths.max?.elim depth (max · depth)) := by
  cases depths with
  | nil => rfl
  | cons first rest => simp only [List.cons_append, List.max?_cons', List.foldl_append]; rfl

theorem max?_seedValues_concat (body : MethodBody) (visits : List DepthVisit) (visit : DepthVisit)
    (id : InstrId) :
    (body.seedValues (visits ++ [visit]) id).max? =
      if visit.after ≠ 0 ∧ id ∈ visit.item.targets then
        some ((body.seedValues visits id).max?.elim visit.after (max · visit.after))
      else (body.seedValues visits id).max? := by
  unfold seedValues
  rw [List.filter_append, List.map_append, ← List.append_assoc]
  by_cases hands : visit.after ≠ 0 ∧ id ∈ visit.item.targets
  · rw [if_pos hands, ← max?_concat, List.filter_cons_of_pos (by simpa using hands)]
    rfl
  · rw [if_neg hands, List.filter_cons_of_neg (by simpa using hands)]
    simp

theorem Walked.nil (body : MethodBody) (resolver : Resolver) : body.Walked resolver [] where
  linked i visit found := by simp at found
  entry i visit found := by simp at found
  after i visit found := by simp at found

theorem Walked.concat (walked : body.Walked resolver visits) (visit : DepthVisit)
    (linked : body.code.items[visits.length]? = some (visit.id, visit.item))
    (entry : visit.entry = body.entryDepth visits visit.id)
    (after : visit.item.depthAfter resolver visit.entry = .ok visit.after) :
    body.Walked resolver (visits ++ [visit]) := by
  have cases : ∀ (i : Nat) found, (visits ++ [visit])[i]? = some found →
      visits[i]? = some found ∧ (visits ++ [visit]).take i = visits.take i ∨
        i = visits.length ∧ found = visit := by
    intro i found there
    by_cases inside : i < visits.length
    · rw [List.getElem?_append_left inside] at there
      exact .inl ⟨there, List.take_append_of_le_length (Nat.le_of_lt inside)⟩
    · rw [List.getElem?_append_right (Nat.le_of_not_lt inside)] at there
      obtain ⟨last, same⟩ := List.getElem?_eq_some_iff.mp there
      simp only [List.length_singleton, Nat.lt_one_iff] at last
      exact .inr ⟨by omega, by simpa [last] using same.symm⟩
  constructor
  · intro i found there
    rcases cases i found there with ⟨before, _⟩ | ⟨rfl, rfl⟩
    · exact walked.linked i found before
    · exact linked
  · intro i found there
    rcases cases i found there with ⟨before, same⟩ | ⟨rfl, rfl⟩
    · rw [same]
      exact walked.entry i found before
    · rw [List.take_left]
      exact entry
  · intro i found there
    rcases cases i found there with ⟨before, _⟩ | ⟨rfl, rfl⟩
    · exact walked.after i found before
    · exact after

end MethodBody

namespace DepthWalk

variable {body : MethodBody} {resolver : Resolver} {visits : List DepthVisit} {walk : DepthWalk}

theorem Behind.entry (behind : walk.Behind body visits) (id : InstrId) :
    walk.entry id = body.entryDepth visits id := by
  rw [DepthWalk.entry, behind.seeds, behind.carried, MethodBody.entryDepth]

theorem Behind.advance (behind : walk.Behind body visits) (visit : DepthVisit) :
    (walk.advance visit).Behind body (visits ++ [visit]) where
  seeds id := by
    rw [MethodBody.max?_seedValues_concat, ← behind.seeds]
    exact Seeds.depth?_propagate _ _ _ _
  carried := by simp [DepthWalk.advance, DepthVisit.carried]
  peak := by simp [DepthWalk.advance, DepthVisit.peak, behind.peak]

theorem Behind.start (body : MethodBody) :
    DepthWalk.Behind body { seeds := Seeds.ofEntries body.exceptionStarts } [] where
  seeds id := by
    rw [Seeds.depth?_ofEntries, MethodBody.seedValues]
    split <;> rfl
  carried := rfl
  peak := rfl

/-- A walk over what is left of the code adds its visits to those it starts from. -/
theorem describes_run (behind : walk.Behind body visits) (walked : body.Walked resolver visits)
    (rest : List (InstrId × Instruction)) (left : body.code.items.drop visits.length = rest)
    (within : visits.length ≤ body.code.items.length) :
    (walk.run resolver rest).Describes body resolver (visits ++ (walk.run resolver rest).visits) := by
  induction rest generalizing walk visits with
  | nil =>
      have full : body.code.items.length ≤ visits.length := List.drop_eq_nil_iff.mp left
      simp only [run, List.append_nil]
      refine ⟨walked, behind.seeds, fun _ => by rw [behind.peak], fun id item found => ?_⟩
      obtain ⟨inside, _⟩ := List.getElem?_eq_some_iff.mp found
      omega
  | cons head rest ih =>
      obtain ⟨id, item⟩ := head
      have found : body.code.items[visits.length]? = some (id, item) := by
        rw [← List.head?_drop, left, List.head?_cons]
      obtain ⟨inside, _⟩ := List.getElem?_eq_some_iff.mp found
      simp only [run]
      cases evaluated : item.depthAfter resolver (walk.entry id) with
      | error reason =>
          simp only [List.append_nil]
          refine ⟨walked, behind.seeds, fun full => by omega, fun id' item' found' => ?_⟩
          rw [found] at found'
          cases found'
          exact ⟨reason, by rw [← behind.entry]; exact evaluated, rfl⟩
      | ok after =>
          let visit : DepthVisit := ⟨id, item, walk.entry id, after⟩
          have extended := walked.concat visit found (behind.entry id) evaluated
          have tail : body.code.items.drop (visits ++ [visit]).length = rest := by
            rw [List.length_append, List.length_singleton, ← List.drop_drop, left]
            rfl
          have within' : (visits ++ [visit]).length ≤ body.code.items.length := by
            rw [List.length_append, List.length_singleton]
            exact inside
          have described := ih (behind.advance visit) extended tail within'
          rw [List.append_assoc] at described
          exact ⟨described.walked, described.seeds, described.completes, described.stops⟩

end DepthWalk

namespace MethodBody

/-- The analysis of a body obeys the recurrence. -/
theorem analyzed (body : MethodBody) (resolver : Resolver) :
    (body.analyzeDepth resolver).Describes body resolver (body.analyzeDepth resolver).visits :=
  DepthWalk.describes_run (DepthWalk.Behind.start body) (Walked.nil body resolver)
    body.code.items rfl (Nat.zero_le _)

variable {body : MethodBody} {resolver : Resolver} {visits : List DepthVisit}

theorem mem_seedValues {id : InstrId} {depth : Depth} :
    depth ∈ body.seedValues visits id ↔
      id ∈ body.exceptionStarts ∧ depth = Seeds.objectSlots ∨
        ∃ visit ∈ visits, visit.after ≠ 0 ∧ id ∈ visit.item.targets ∧ visit.after = depth := by
  simp only [seedValues, List.mem_append, List.mem_map, List.mem_filter, decide_eq_true_eq]
  constructor
  · rintro (seeded | ⟨visit, ⟨member, nonzero, target⟩, same⟩)
    · split at seeded
      · rename_i starts
        exact .inl ⟨starts, List.mem_singleton.mp seeded⟩
      · cases seeded
    · exact .inr ⟨visit, member, nonzero, target, same⟩
  · rintro (⟨starts, rfl⟩ | ⟨visit, member, nonzero, target, same⟩)
    · exact .inl (by simp [starts])
    · exact .inr ⟨visit, ⟨member, nonzero, target⟩, same⟩

/-- An instruction to which nothing is handed is entered at the carried depth. -/
theorem entryDepth_of_nil {id : InstrId} (unseeded : body.seedValues visits id = []) :
    body.entryDepth visits id = DepthVisit.carried visits := by
  simp [entryDepth, unseeded]

/-- Any other instruction is entered at the greatest depth that is handed to it. -/
theorem entryDepth_greatest {id : InstrId} (seeded : body.seedValues visits id ≠ []) :
    body.entryDepth visits id ∈ body.seedValues visits id ∧
      ∀ depth ∈ body.seedValues visits id, depth ≤ body.entryDepth visits id := by
  unfold entryDepth
  cases greatest : (body.seedValues visits id).max? with
  | none => exact absurd (List.max?_eq_none_iff.mp greatest) seeded
  | some depth => exact List.max?_eq_some_iff.mp greatest

/-- A walk cannot visit more than the code. -/
theorem Walked.length_le (walked : body.Walked resolver visits) :
    visits.length ≤ body.code.items.length := by
  refine Nat.le_of_not_lt fun inside => ?_
  have found := walked.linked _ _ (List.getElem?_eq_getElem inside)
  simp at found

end MethodBody

theorem DepthVisit.carried_eq {visits : List DepthVisit} {i : Nat} {visit : DepthVisit}
    (last : visits.length = i + 1) (there : visits[i]? = some visit) :
    carried visits = if visit.item.code.flow.stopsFlow then 0 else visit.after := by
  rw [carried, List.getLast?_eq_getElem?, last, Nat.add_sub_cancel, there]

theorem MethodBody.Walked.take {body : MethodBody} {resolver : Resolver} {visits : List DepthVisit}
    (walked : body.Walked resolver visits) (count : Nat) : body.Walked resolver (visits.take count) := by
  have inside : ∀ (i : Nat) visit, (visits.take count)[i]? = some visit →
      visits[i]? = some visit ∧ (visits.take count).take i = visits.take i := by
    intro i visit there
    obtain ⟨before, _⟩ := List.getElem?_eq_some_iff.mp there
    rw [List.length_take] at before
    rw [List.getElem?_take_of_lt (by omega)] at there
    exact ⟨there, by rw [List.take_take, Nat.min_eq_left (by omega)]⟩
  constructor <;> intro i visit there <;> obtain ⟨whole, same⟩ := inside i visit there
  · exact walked.linked i visit whole
  · rw [same]
    exact walked.entry i visit whole
  · exact walked.after i visit whole

/-- The peak bounds every visited depth and is one of them, or zero. -/
theorem DepthVisit.peak_spec (visits : List DepthVisit) :
    (0 ≤ peak visits ∧ ∀ visit ∈ visits, visit.entry ≤ peak visits ∧ visit.after ≤ peak visits) ∧
      (peak visits = 0 ∨ ∃ visit ∈ visits, visit.entry = peak visits ∨ visit.after = peak visits) := by
  suffices grown : ∀ start last : Depth,
      visits.foldl (fun peak visit => max (max peak visit.entry) visit.after) start = last →
        (start ≤ last ∧ ∀ visit ∈ visits, visit.entry ≤ last ∧ visit.after ≤ last) ∧
          (last = start ∨ ∃ visit ∈ visits, visit.entry = last ∨ visit.after = last) from
    grown 0 _ rfl
  induction visits with
  | nil =>
      rintro start last rfl
      exact ⟨⟨Int.le_refl _, by simp⟩, .inl rfl⟩
  | cons first rest ih =>
      intro start last folded
      obtain ⟨⟨above, bounds⟩, reached⟩ := ih _ last folded
      obtain ⟨before, after⟩ := Int.max_le.mp above
      obtain ⟨start_le, entry_le⟩ := Int.max_le.mp before
      simp only [List.mem_cons, forall_eq_or_imp, exists_eq_or_imp]
      refine ⟨⟨start_le, ⟨entry_le, after⟩, bounds⟩, ?_⟩
      rcases reached with same | later
      · grind
      · exact .inr (.inr later)

namespace DepthAnalysis.Describes

variable {analysis : DepthAnalysis} {body : MethodBody} {resolver : Resolver}
  {visits : List DepthVisit} {maxStack : Nat}

/-- A computation that succeeds has visited the whole code. -/
theorem length_of_ok (describes : analysis.Describes body resolver visits)
    (computed : analysis.outcome = .ok maxStack) : visits.length = body.code.items.length := by
  refine Nat.le_antisymm describes.walked.length_le (Nat.le_of_not_lt fun short => ?_)
  obtain ⟨reason, _, failed⟩ := describes.stops _ _ (List.getElem?_eq_getElem short)
  cases failed.symm.trans computed

theorem peak_of_ok (describes : analysis.Describes body resolver visits)
    (computed : analysis.outcome = .ok maxStack) : (maxStack : Int) = DepthVisit.peak visits := by
  have total := (describes.completes (describes.length_of_ok computed)).symm.trans computed
  rw [← Except.ok.inj total]
  exact Int.toNat_of_nonneg (DepthVisit.peak_spec visits).1.1

/-- The computed maximum is enough for every visit. -/
theorem le_of_ok (describes : analysis.Describes body resolver visits)
    (computed : analysis.outcome = .ok maxStack) {visit : DepthVisit} (member : visit ∈ visits) :
    visit.entry ≤ maxStack ∧ visit.after ≤ maxStack := by
  rw [describes.peak_of_ok computed]
  exact (DepthVisit.peak_spec visits).1.2 visit member

end DepthAnalysis.Describes

end CilProfiler
