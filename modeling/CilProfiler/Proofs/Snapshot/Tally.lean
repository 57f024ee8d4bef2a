import CilProfiler.Proofs.Counter
import CilProfiler.Snapshot.Tally
import Mathlib.Algebra.BigOperators.Group.Finset.Piecewise
import Mathlib.Algebra.Order.BigOperators.Group.List
import Mathlib.Algebra.Order.Group.Nat
import Mathlib.Data.List.Nodup

/-! # What tallies add up to

A tally that values are recorded in holds each of their keys once, and for it the sum of the values
that were recorded under the key. The order of the values plays no part in that; it decides only
which sums are formed on the way and could overflow.
-/

namespace CilProfiler
namespace Tally

variable {κ ν : Type} [DecidableEq κ] {combine : ν → ν → Except Overflow ν}
  {tally next : Tally κ ν} {key : κ} {value : ν} {values : List (κ × ν)}

/-- Record values, one after another. -/
def recordAll (combine : ν → ν → Except Overflow ν) (tally : Tally κ ν) (values : List (κ × ν)) :
    Except Overflow (Tally κ ν) :=
  values.foldlM (fun tally entry => tally.record combine entry.1 entry.2) tally

theorem recordAll_append (values later : List (κ × ν)) :
    tally.recordAll combine (values ++ later) =
      tally.recordAll combine values >>= fun next => next.recordAll combine later :=
  List.foldlM_append

theorem recordAll_flatMap {α : Type} (list : List α) (values : α → List (κ × ν)) :
    tally.recordAll combine (list.flatMap values) =
      list.foldlM (fun tally item => tally.recordAll combine (values item)) tally := by
  induction list generalizing tally with
  | nil => rfl
  | cons item rest ih =>
      rw [List.flatMap_cons, recordAll_append, List.foldlM_cons]
      exact bind_congr fun next => ih

theorem map_fst_record (recorded : tally.record combine key value = .ok next) :
    next.map Prod.fst =
      if key ∈ tally.map Prod.fst then tally.map Prod.fst else tally.map Prod.fst ++ [key] := by
  induction tally generalizing next with
  | nil =>
      cases recorded
      simp
  | cons entry rest ih =>
      obtain ⟨stored, total⟩ := entry
      simp only [record] at recorded
      by_cases same : stored = key
      · rw [if_pos same] at recorded
        obtain ⟨sum, -, rfl⟩ := Outcome.map_eq_ok.mp recorded
        simp [same]
      · rw [if_neg same] at recorded
        obtain ⟨later, there, rfl⟩ := Outcome.map_eq_ok.mp recorded
        rw [List.map_cons, ih there]
        by_cases held : key ∈ rest.map Prod.fst <;> simp [held, Ne.symm same]

theorem nodup_recordAll (distinct : (tally.map Prod.fst).Nodup)
    (recorded : tally.recordAll combine values = .ok next) : (next.map Prod.fst).Nodup := by
  induction values generalizing tally with
  | nil =>
      cases recorded
      exact distinct
  | cons entry rest ih =>
      obtain ⟨middle, first, later⟩ := Outcome.bind_eq_ok.mp recorded
      refine ih ?_ later
      rw [map_fst_record first]
      split
      · exact distinct
      · rename_i new
        rw [← List.concat_eq_append]
        exact distinct.concat new

theorem mem_keys_recordAll (recorded : tally.recordAll combine values = .ok next) :
    key ∈ next.map Prod.fst ↔ key ∈ tally.map Prod.fst ∨ key ∈ values.map Prod.fst := by
  induction values generalizing tally with
  | nil =>
      cases recorded
      simp
  | cons entry rest ih =>
      obtain ⟨middle, first, later⟩ := Outcome.bind_eq_ok.mp recorded
      rw [ih later, map_fst_record first]
      split <;> grind

variable {M : Type} [AddCommMonoid M] {size : ν → M} {chosen : κ → Bool}

/-- What the values under the chosen keys add up to, by some measure of the values. -/
def total (size : ν → M) (chosen : κ → Bool) (entries : List (κ × ν)) : M :=
  ((entries.filter fun entry => chosen entry.1).map fun entry => size entry.2).sum

omit [DecidableEq κ] in
theorem total_nil : total size chosen ([] : List (κ × ν)) = 0 :=
  rfl

omit [DecidableEq κ] in
theorem total_cons (entry : κ × ν) (rest : List (κ × ν)) :
    total size chosen (entry :: rest) =
      (if chosen entry.1 then size entry.2 else 0) + total size chosen rest := by
  by_cases there : chosen entry.1 <;> simp [total, there]

omit [DecidableEq κ] in
theorem total_append (entries later : List (κ × ν)) :
    total size chosen (entries ++ later) = total size chosen entries + total size chosen later := by
  simp [total]

omit [DecidableEq κ] in
theorem total_eq_of_perm {entries other : List (κ × ν)} (same : entries.Perm other) :
    total size chosen entries = total size chosen other :=
  ((same.filter _).map _).sum_eq

/-- The measure of a combination is the sum of the measures. -/
def Additive (combine : ν → ν → Except Overflow ν) (size : ν → M) : Prop :=
  ∀ first second sum, combine first second = .ok sum → size sum = size first + size second

theorem total_record (additive : Additive combine size)
    (recorded : tally.record combine key value = .ok next) :
    total size chosen next = total size chosen tally + if chosen key then size value else 0 := by
  induction tally generalizing next with
  | nil =>
      cases recorded
      rw [total_cons, add_comm]
  | cons entry rest ih =>
      obtain ⟨stored, held⟩ := entry
      simp only [record] at recorded
      by_cases same : stored = key
      · rw [if_pos same] at recorded
        obtain ⟨sum, combined, rfl⟩ := Outcome.map_eq_ok.mp recorded
        rw [total_cons, total_cons, same, additive _ _ _ combined]
        split
        · exact add_right_comm ..
        · rw [add_zero]
      · rw [if_neg same] at recorded
        obtain ⟨later, there, rfl⟩ := Outcome.map_eq_ok.mp recorded
        rw [total_cons, total_cons, ih there, add_assoc]

theorem total_recordAll (additive : Additive combine size)
    (recorded : tally.recordAll combine values = .ok next) :
    total size chosen next = total size chosen tally + total size chosen values := by
  induction values generalizing tally with
  | nil =>
      cases recorded
      exact (add_zero _).symm
  | cons entry rest ih =>
      obtain ⟨middle, first, later⟩ := Outcome.bind_eq_ok.mp recorded
      rw [ih later, total_record additive first, total_cons, add_assoc]

theorem total_of_notMem {entries : List (κ × ν)} (absent : key ∉ entries.map Prod.fst) :
    total size (· = key) entries = 0 := by
  have none : entries.filter (fun entry => decide (entry.1 = key)) = [] := by
    rw [List.filter_eq_nil_iff]
    intro entry there same
    exact absent (List.mem_map.mpr ⟨entry, there, of_decide_eq_true same⟩)
  rw [total, none]
  rfl

/-- Under a key that occurs once the total is the value that is held for it. -/
theorem total_of_mem (distinct : (tally.map Prod.fst).Nodup) (member : (key, value) ∈ tally) :
    total size (· = key) tally = size value := by
  induction tally with
  | nil => cases member
  | cons entry rest ih =>
      rw [List.map_cons, List.nodup_cons] at distinct
      rw [total_cons]
      rcases List.mem_cons.mp member with rfl | later
      · rw [total_of_notMem distinct.1, add_zero, if_pos (decide_eq_true rfl)]
      · have other : entry.1 ≠ key := by
          rintro rfl
          exact distinct.1 (List.mem_map.mpr ⟨_, later, rfl⟩)
        rw [ih distinct.2 later, if_neg (by simpa using other), zero_add]

omit [DecidableEq κ] in
/-- Tallies with the same keys, and the same value for each of them, hold the same entries. -/
theorem perm_of_values {other : Tally κ ν} (distinct : (tally.map Prod.fst).Nodup)
    (distinct' : (other.map Prod.fst).Nodup)
    (keys : ∀ key, key ∈ other.map Prod.fst ↔ key ∈ tally.map Prod.fst)
    (values : ∀ key value value', (key, value) ∈ tally → (key, value') ∈ other → value' = value) :
    other.Perm tally := by
  rw [List.perm_ext_iff_of_nodup distinct'.of_map distinct.of_map]
  rintro ⟨key, value⟩
  constructor
  · intro there
    obtain ⟨⟨_, held⟩, here, rfl⟩ := List.mem_map.mp ((keys key).mp (List.mem_map_of_mem there))
    rwa [values _ held value here there]
  · intro here
    obtain ⟨⟨_, held⟩, there, rfl⟩ := List.mem_map.mp ((keys key).mpr (List.mem_map_of_mem here))
    rwa [← values _ value held here there]

omit [DecidableEq κ] in
/-- The more keys are chosen, the more is found under them, unless a value is negative. -/
theorem total_mono {N : Type} [AddCommMonoid N] [PartialOrder N] [IsOrderedAddMonoid N]
    {entries : List (κ × ν)} {size : ν → N} {chosen more : κ → Bool}
    (nonneg : ∀ entry ∈ entries, 0 ≤ size entry.2) (wider : ∀ key, chosen key → more key) :
    total size chosen entries ≤ total size more entries := by
  induction entries with
  | nil => exact le_rfl
  | cons entry rest ih =>
      rw [List.forall_mem_cons] at nonneg
      rw [total_cons, total_cons]
      refine add_le_add ?_ (ih nonneg.2)
      by_cases first : chosen entry.1
      · rw [if_pos first, if_pos (wider _ first)]
      · rw [if_neg first]
        split
        · exact nonneg.1
        · exact le_rfl

/-- Totals under different keys make up the total under all of them. -/
theorem sum_total (size : ν → M) {keys : List κ} (distinct : keys.Nodup)
    (entries : List (κ × ν)) :
    (keys.map fun key => total size (· = key) entries).sum = total size (· ∈ keys) entries := by
  induction entries with
  | nil => simp [total_nil]
  | cons entry rest ih =>
      simp only [total_cons, List.sum_map_add, ih]
      rw [← List.sum_toFinset _ distinct]
      simp

/-- Under the keys of some of its entries a tally holds these entries and no others. -/
theorem total_of_sublist {front : Tally κ ν} (distinct : (tally.map Prod.fst).Nodup)
    (part : front.Sublist tally) :
    total size (· ∈ front.map Prod.fst) tally = (front.map fun entry => size entry.2).sum := by
  have same : (tally.filter fun entry => entry.1 ∈ front.map Prod.fst).Perm front := by
    rw [List.perm_ext_iff_of_nodup (distinct.of_map.filter _) (distinct.of_map.sublist part)]
    intro entry
    rw [List.mem_filter, decide_eq_true_iff]
    constructor
    · rintro ⟨there, named⟩
      obtain ⟨other, chosen, key⟩ := List.mem_map.mp named
      rwa [List.inj_on_of_nodup_map distinct there (part.subset chosen) key.symm]
    · intro chosen
      exact ⟨part.subset chosen, List.mem_map_of_mem chosen⟩
  exact (same.map fun entry => size entry.2).sum_eq

/-- Two values are combined exactly if what they measure together fits. -/
def Checked (combine : ν → ν → Except Overflow ν) (size : ν → M) (fits : M → Prop) : Prop :=
  ∀ first second, (∃ sum, combine first second = .ok sum) ↔ fits (size first + size second)

section Room

variable {fits : M → Prop}

theorem exists_record (checked : Checked combine size fits) (distinct : (tally.map Prod.fst).Nodup)
    (room : fits (total size (· = key) tally + size value)) :
    ∃ next, tally.record combine key value = .ok next := by
  induction tally with
  | nil => exact ⟨_, rfl⟩
  | cons entry rest ih =>
      obtain ⟨stored, held⟩ := entry
      simp only [record]
      by_cases same : stored = key
      · subst same
        rw [total_of_mem distinct (List.mem_cons_self ..)] at room
        obtain ⟨sum, combined⟩ := (checked held value).mpr room
        rw [if_pos rfl, combined]
        exact ⟨_, rfl⟩
      · rw [total_cons, if_neg (by simpa using same), zero_add] at room
        obtain ⟨later, there⟩ := ih (List.nodup_cons.mp distinct).2 room
        rw [if_neg same, there]
        exact ⟨_, rfl⟩

/-- Values are recorded if under each key there is room for every part of them that arrives
    first. -/
theorem exists_recordAll (checked : Checked combine size fits) (additive : Additive combine size)
    (distinct : (tally.map Prod.fst).Nodup)
    (room : ∀ early, early <+: values → ∀ key,
      fits (total size (· = key) tally + total size (· = key) early)) :
    ∃ next, tally.recordAll combine values = .ok next := by
  induction values generalizing tally with
  | nil => exact ⟨_, rfl⟩
  | cons entry rest ih =>
      have first := room [entry] (List.prefix_append [entry] rest) entry.1
      rw [total_cons, if_pos (decide_eq_true rfl), total_nil, add_zero] at first
      obtain ⟨next, recorded⟩ := exists_record checked distinct first
      have alone : tally.recordAll combine [entry] = .ok next :=
        Outcome.bind_eq_ok.mpr ⟨next, recorded, rfl⟩
      obtain ⟨last, later⟩ := ih (nodup_recordAll distinct alone) fun early before key => by
        have whole := room (entry :: early) (List.cons_prefix_cons.mpr ⟨rfl, before⟩) key
        rw [total_cons, ← add_assoc] at whole
        rwa [total_record additive recorded]
      exact ⟨last, Outcome.bind_eq_ok.mpr ⟨next, recorded, later⟩⟩

theorem fits_record (checked : Checked combine size fits) (additive : Additive combine size)
    (held : ∀ entry ∈ tally, fits (size entry.2)) (small : fits (size value))
    (recorded : tally.record combine key value = .ok next) :
    ∀ entry ∈ next, fits (size entry.2) := by
  induction tally generalizing next with
  | nil =>
      cases recorded
      simpa using small
  | cons entry rest ih =>
      obtain ⟨stored, total⟩ := entry
      rw [List.forall_mem_cons] at held
      simp only [record] at recorded
      split at recorded
      · obtain ⟨sum, combined, rfl⟩ := Outcome.map_eq_ok.mp recorded
        have together := (checked total value).mp ⟨sum, combined⟩
        rw [← additive _ _ _ combined] at together
        exact List.forall_mem_cons.mpr ⟨together, held.2⟩
      · obtain ⟨later, there, rfl⟩ := Outcome.map_eq_ok.mp recorded
        exact List.forall_mem_cons.mpr ⟨held.1, ih held.2 there⟩

/-- What a tally holds fits, if every single value does. -/
theorem fits_recordAll (checked : Checked combine size fits) (additive : Additive combine size)
    (held : ∀ entry ∈ tally, fits (size entry.2)) (small : ∀ entry ∈ values, fits (size entry.2))
    (recorded : tally.recordAll combine values = .ok next) :
    ∀ entry ∈ next, fits (size entry.2) := by
  induction values generalizing tally with
  | nil =>
      cases recorded
      exact held
  | cons entry rest ih =>
      obtain ⟨middle, first, later⟩ := Outcome.bind_eq_ok.mp recorded
      rw [List.forall_mem_cons] at small
      exact ih (fits_record checked additive held small.1 first) small.2 later

end Room

section Counts

variable {counts result : Tally κ Nat} {arrivals : List (κ × Nat)}

theorem additive_count : Additive Count.add id := by
  intro first second sum added
  exact (Count.add_eq_ok.mp added).1

theorem checked_count : Checked Count.add id (· < Count.bound) := by
  intro first second
  simp [Count.add_eq_ok]

theorem sum_recordAll (recorded : counts.recordAll Count.add arrivals = .ok result) :
    (result.map Prod.snd).sum = (counts.map Prod.snd).sum + (arrivals.map Prod.snd).sum := by
  have all : ∀ entries : List (κ × Nat),
      total id (fun _ => true) entries = (entries.map Prod.snd).sum := by
    intro entries
    simp [total]
  rw [← all, ← all, ← all]
  exact total_recordAll additive_count recorded

omit [DecidableEq κ] in
theorem total_le_of_sublist {chosen : κ → Bool} {early : List (κ × Nat)}
    (part : early.Sublist arrivals) : total id chosen early ≤ total id chosen arrivals :=
  ((part.filter _).map _).sum_le_sum fun _ _ => Nat.zero_le _

omit [DecidableEq κ] in
theorem total_le_sum (chosen : κ → Bool) : total id chosen arrivals ≤ (arrivals.map Prod.snd).sum :=
  (List.filter_sublist.map _).sum_le_sum fun _ _ => Nat.zero_le _

/-- Counts are recorded if under each key all of them fit together. -/
theorem exists_recordAll_count (room : ∀ key, total id (· = key) arrivals < Count.bound) :
    ∃ result, Tally.recordAll Count.add [] arrivals = .ok result := by
  refine exists_recordAll checked_count additive_count List.nodup_nil fun early before key => ?_
  rw [total_nil, zero_add]
  exact (total_le_of_sublist before.sublist).trans_lt (room key)

/-- Under each key all counts that have been recorded fit together. -/
theorem total_lt_of_recordAll (small : ∀ entry ∈ arrivals, entry.2 < Count.bound)
    (recorded : Tally.recordAll Count.add [] arrivals = .ok result) (key : κ) :
    total id (· = key) arrivals < Count.bound := by
  have held : total id (· = key) result = total id (· = key) arrivals := by
    rw [total_recordAll additive_count recorded, total_nil, zero_add]
  rw [← held]
  by_cases there : key ∈ result.map Prod.fst
  · obtain ⟨⟨_, count⟩, member, rfl⟩ := List.mem_map.mp there
    rw [total_of_mem (nodup_recordAll (by simp) recorded) member]
    exact fits_recordAll checked_count additive_count (by simp) small recorded _ member
  · rw [total_of_notMem there]
    decide

/-- The same counts in another order give the same entries. -/
theorem perm_recordAll {others : List (κ × Nat)} {result' : Tally κ Nat}
    (same : others.Perm arrivals) (recorded : Tally.recordAll Count.add [] arrivals = .ok result)
    (recorded' : Tally.recordAll Count.add [] others = .ok result') : result'.Perm result := by
  have distinct := nodup_recordAll (by simp) recorded
  have distinct' := nodup_recordAll (by simp) recorded'
  refine perm_of_values distinct distinct' (fun key => ?_) fun key value value' here there => ?_
  · rw [mem_keys_recordAll recorded, mem_keys_recordAll recorded', (same.map Prod.fst).mem_iff]
  · have totals : total id (· = key) result' = total id (· = key) result := by
      rw [total_recordAll additive_count recorded, total_recordAll additive_count recorded',
        total_eq_of_perm same]
    rwa [total_of_mem distinct here, total_of_mem distinct' there] at totals

/-- The same counts in another order are recorded as well. -/
theorem exists_recordAll_of_perm {others : List (κ × Nat)} (same : others.Perm arrivals)
    (small : ∀ entry ∈ arrivals, entry.2 < Count.bound)
    (recorded : Tally.recordAll Count.add [] arrivals = .ok result) :
    ∃ result', Tally.recordAll Count.add [] others = .ok result' := by
  refine exists_recordAll_count fun key => ?_
  rw [total_eq_of_perm same]
  exact total_lt_of_recordAll small recorded key

end Counts

end Tally
end CilProfiler
