import CilProfiler.Counter
import CilProfiler.Proofs.Outcome
import Mathlib.Algebra.BigOperators.Group.List.Basic
import Mathlib.Algebra.Order.Ring.Int

/-! # Sums that fit

Checked counters give the number that unbounded ones would give, and they give it exactly if it
fits. Of a chain of additions or subtractions every single result has to fit; what the chain gives
in the end is the sum or the difference all the same.
-/

namespace CilProfiler

namespace Ticks

variable {a b result : Ticks} {list : List Ticks}

theorem add_eq_ok : add a b = .ok result ↔ result = a + b ∧ InRange result := by
  rw [add, Outcome.ite_eq_ok]
  exact and_congr_right fun same => by rw [same]

theorem sub_eq_ok : sub a b = .ok result ↔ result = a - b ∧ InRange result := by
  rw [sub, Outcome.ite_eq_ok]
  exact and_congr_right fun same => by rw [same]

/-- A sum that is computed is the sum, and it fits. -/
theorem sum_eq_ok (summed : sum list = .ok result) : result = list.sum ∧ InRange result := by
  have chain : ∀ (list : List Ticks) (start : Ticks), InRange start →
      list.foldlM add start = .ok result → result = start + list.sum ∧ InRange result := by
    intro list
    induction list with
    | nil =>
        intro start fits done
        cases done
        exact ⟨by simp, fits⟩
    | cons first rest ih =>
        intro start _ done
        obtain ⟨next, added, later⟩ := Outcome.bind_eq_ok.mp done
        obtain ⟨rfl, fits⟩ := add_eq_ok.mp added
        obtain ⟨total, fits⟩ := ih _ fits later
        exact ⟨by rw [total, List.sum_cons, add_assoc], fits⟩
  have found := chain list 0 (by decide) summed
  rwa [zero_add] at found

theorem foldlM_sub_eq_ok (taken : list.foldlM sub a = .ok result) : result = a - list.sum := by
  induction list generalizing a with
  | nil =>
      cases taken
      simp
  | cons first rest ih =>
      obtain ⟨next, off, later⟩ := Outcome.bind_eq_ok.mp taken
      obtain ⟨rfl, -⟩ := sub_eq_ok.mp off
      rw [ih later, List.sum_cons, sub_sub]

/-- A sum is computed if all sums on the way to it fit. -/
theorem sum_of_room (room : ∀ early, early <+: list → InRange early.sum) :
    sum list = .ok list.sum := by
  simp only [List.sum_eq_foldl] at room ⊢
  exact Outcome.foldlM_of_room (fun a b fits => if_pos fits) room

/-- A sum is computed exactly if all sums on the way to it fit. -/
theorem sum_eq_ok_iff :
    sum list = .ok result ↔ result = list.sum ∧ ∀ early, early <+: list → InRange early.sum := by
  constructor
  · intro summed
    refine ⟨(sum_eq_ok summed).1, ?_⟩
    rintro early ⟨rest, rfl⟩
    rw [sum, List.foldlM_append] at summed
    obtain ⟨middle, before, -⟩ := Outcome.bind_eq_ok.mp summed
    obtain ⟨rfl, fits⟩ := sum_eq_ok before
    exact fits
  · rintro ⟨rfl, room⟩
    exact sum_of_room room

theorem foldl_sub (list : List Ticks) (a : Ticks) : list.foldl (· - ·) a = a - list.sum := by
  induction list generalizing a with
  | nil => simp
  | cons first rest ih => rw [List.foldl_cons, ih, List.sum_cons, sub_sub]

theorem foldlM_sub_of_room (room : ∀ early, early <+: list → InRange (a - early.sum)) :
    list.foldlM sub a = .ok (a - list.sum) := by
  simp only [← foldl_sub] at room ⊢
  exact Outcome.foldlM_of_room (fun a b fits => if_pos fits) room

/-- Ticks that count as none where they are negative add up to those that are not. -/
theorem sum_toNat {α : Type} (ticks : α → Ticks) (list : List α) :
    (((list.map fun item => (ticks item).toNat).sum : Nat) : Int) =
      ((list.filter fun item => 0 ≤ ticks item).map ticks).sum := by
  induction list with
  | nil => rfl
  | cons item rest ih =>
      by_cases positive : 0 ≤ ticks item
      · simp [positive, ih]
      · simp [positive, ih, Int.toNat_of_nonpos (Int.le_of_lt (Int.not_le.mp positive))]

end Ticks

theorem Count.add_eq_ok {a b result : Count} :
    Count.add a b = .ok result ↔ result = a + b ∧ result < Count.bound := by
  rw [Count.add, Outcome.ite_eq_ok]
  exact and_congr_right fun same => by rw [same]

end CilProfiler
