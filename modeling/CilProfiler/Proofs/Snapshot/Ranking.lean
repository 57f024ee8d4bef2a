import CilProfiler.Trace.MethodName
import Mathlib.Data.List.Nodup

/-! # Rankings

Flat snapshots and folded stacks are listed in the same way, by a number downwards and where the
numbers are equal by a key upwards. Where no key occurs twice this order is strict, so that the
list does not depend on the order in which its entries were found.
-/

namespace CilProfiler

namespace MethodName

instance : Std.TransOrd MethodName :=
  inferInstanceAs <| Std.TransCmp <|
    compareLex (compareOn declaringType) <|
    compareLex (compareOn name) <|
    compareLex (compareOn genericParameters) (compareOn genericArguments)

instance : Std.LawfulEqOrd MethodName where
  eq_of_compare {a b} same := by
    have fields : MethodName.compare a b = .eq := same
    simp only [MethodName.compare, Ordering.then_eq_eq, Std.compare_eq_iff_eq] at fields
    obtain ⟨type, name, parameters, arguments⟩ := fields
    cases a
    cases b
    cases type
    cases name
    cases parameters
    cases arguments
    rfl

end MethodName

variable {α β γ : Type} [Ord β] [Ord γ] {number : α → β} {key : α → γ} {list : List α}

/-- By a number downwards, and where the numbers are equal by a key upwards. -/
def ranked (number : α → β) (key : α → γ) (a b : α) : Ordering :=
  (compare (number b) (number a)).then (compare (key a) (key b))

namespace Ranked

instance [Std.TransOrd β] [Std.TransOrd γ] : Std.TransCmp (ranked number key) :=
  inferInstanceAs <| Std.TransCmp <|
    compareLex (fun a b => compareOn number b a) (compareOn key)

/-- Only entries of the same key are ranked alike. -/
theorem key_eq [Std.LawfulEqOrd γ] {a b : α} (tie : ranked number key a b = .eq) : key a = key b := by
  rw [ranked, Ordering.then_eq_eq] at tie
  exact Std.compare_eq_iff_eq.mp tie.2

def sort (number : α → β) (key : α → γ) (list : List α) : List α :=
  list.mergeSort fun a b => (ranked number key a b).isLE

theorem sort_perm (number : α → β) (key : α → γ) (list : List α) : (sort number key list).Perm list :=
  List.mergeSort_perm ..

variable [Std.TransOrd β] [Std.TransOrd γ]

theorem eq_swap (number : α → β) (key : α → γ) (a b : α) :
    ranked number key b a = (ranked number key a b).swap :=
  Std.OrientedCmp.eq_swap

variable [Std.LawfulEqOrd γ]

/-- A ranking is strict if no two entries have the same key. -/
theorem pairwise_sort (number : α → β) (distinct : (list.map key).Nodup) :
    (sort number key list).Pairwise fun a b => ranked number key a b = .lt := by
  have total : ∀ a b, ((ranked number key a b).isLE || (ranked number key b a).isLE) = true := by
    intro a b
    rw [eq_swap number key a b]
    cases ranked number key a b <;> rfl
  have sorted := List.pairwise_mergeSort (fun a b c => Std.TransCmp.isLE_trans) total list
  have apart := ((sort_perm number key list).map key).nodup_iff.mpr distinct
  rw [List.Nodup, List.pairwise_map] at apart
  refine (sorted.and apart).imp fun {a b} both => ?_
  cases order : ranked number key a b with
  | lt => rfl
  | eq => exact absurd (key_eq order) both.2
  | gt =>
      rw [order] at both
      cases both.1

/-- The ranking does not depend on the order in which the entries were found. -/
theorem sort_eq_of_perm (number : α → β) {other : List α} (perm : other.Perm list)
    (distinct : (list.map key).Nodup) : sort number key other = sort number key list := by
  have sorted := pairwise_sort number distinct
  have sorted' := pairwise_sort number ((perm.map key).nodup_iff.mpr distinct)
  have same : (sort number key other).Perm (sort number key list) :=
    ((sort_perm ..).trans perm).trans (sort_perm ..).symm
  refine same.eq_of_pairwise (fun a b _ _ before after => ?_) sorted' sorted
  rw [eq_swap number key a b, before] at after
  cases after

end Ranked
end CilProfiler
