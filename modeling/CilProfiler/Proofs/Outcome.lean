/-! # Outcomes of checked operations

An operation that can be refused is a chain of steps in `Except`; the chain gives a result only
if every step of it does.
-/

namespace CilProfiler
namespace Outcome

variable {ε α β : Type}

/-- A chain of two steps succeeds through a result between them. -/
theorem bind_eq_ok {first : Except ε α} {next : α → Except ε β} {value : β} :
    (first >>= next) = .ok value ↔ ∃ middle, first = .ok middle ∧ next middle = .ok value := by
  cases first <;> simp [bind, Except.bind]

/-- A chain of two steps is refused by one of them. -/
theorem bind_eq_error {first : Except ε α} {next : α → Except ε β} {reason : ε} :
    (first >>= next) = .error reason ↔
      first = .error reason ∨ ∃ middle, first = .ok middle ∧ next middle = .error reason := by
  cases first <;> simp [bind, Except.bind]

theorem map_eq_ok {outcome : Except ε α} {convert : α → β} {value : β} :
    convert <$> outcome = .ok value ↔ ∃ source, outcome = .ok source ∧ convert source = value := by
  cases outcome <;> simp [Functor.map, Except.map]

theorem mapError_eq_ok {δ : Type} {outcome : Except ε α} {convert : ε → δ} {value : α} :
    outcome.mapError convert = .ok value ↔ outcome = .ok value := by
  cases outcome with
  | error reason => constructor <;> intro done <;> cases done
  | ok result => constructor <;> intro done <;> cases done <;> rfl

theorem mapError_eq_error {δ : Type} {outcome : Except ε α} {convert : ε → δ} {reason : δ} :
    outcome.mapError convert = .error reason ↔
      ∃ source, outcome = .error source ∧ convert source = reason := by
  constructor
  · intro failed
    cases outcome with
    | error source =>
        cases failed
        exact ⟨source, rfl, rfl⟩
    | ok value => cases failed
  · rintro ⟨source, rfl, rfl⟩
    rfl

theorem exists_of_isOk {outcome : Except ε α} (succeeds : outcome.isOk = true) :
    ∃ value, outcome = .ok value := by
  cases outcome with
  | error reason => cases succeeds
  | ok value => exact ⟨value, rfl⟩

/-- A checked result is given exactly if the check is passed. -/
theorem ite_eq_ok {passed : Prop} [Decidable passed] {value result : α} {reason : ε} :
    (if passed then .ok value else .error reason) = Except.ok result ↔ result = value ∧ passed := by
  by_cases passed : passed <;> simp [passed, eq_comm]

theorem foldlM_congr {σ : Type} {first second : σ → α → Except ε σ} {list : List α}
    (link : ∀ item ∈ list, ∀ state, first state item = second state item) (state : σ) :
    list.foldlM first state = list.foldlM second state := by
  induction list generalizing state with
  | nil => rfl
  | cons item rest ih =>
      rw [List.foldlM_cons, List.foldlM_cons, link item (List.mem_cons_self ..)]
      congr 1
      funext next
      exact ih (fun other member => link other (List.mem_cons_of_mem _ member)) next

/-- A chain over a list succeeds as another one does if each link of it succeeds as the other's. -/
theorem foldlM_eq_ok_imp {σ : Type} {first second : σ → α → Except ε σ} {list : List α}
    (link : ∀ item ∈ list, ∀ state next, first state item = .ok next → second state item = .ok next)
    {state last : σ} (done : list.foldlM first state = .ok last) :
    list.foldlM second state = .ok last := by
  induction list generalizing state with
  | nil => exact done
  | cons item rest ih =>
      obtain ⟨next, step, later⟩ := bind_eq_ok.mp done
      refine bind_eq_ok.mpr ⟨next, link item (List.mem_cons_self ..) state next step, ?_⟩
      exact ih (fun other member => link other (List.mem_cons_of_mem _ member)) later

/-- A chain that carries two states along succeeds only if the two chains succeed by themselves. -/
theorem foldlM_pair_eq_ok {σ τ : Type} (left : σ → α → Except ε σ) (right : τ → α → Except ε τ)
    {list : List α} {state last : σ × τ}
    (done : list.foldlM (fun state item => do
      let next ← left state.1 item
      let next' ← right state.2 item
      return (next, next')) state = .ok last) :
    list.foldlM left state.1 = .ok last.1 ∧ list.foldlM right state.2 = .ok last.2 := by
  induction list generalizing state with
  | nil =>
      cases done
      exact ⟨rfl, rfl⟩
  | cons item rest ih =>
      obtain ⟨both, step, later⟩ := bind_eq_ok.mp done
      obtain ⟨next, forward, step⟩ := bind_eq_ok.mp step
      obtain ⟨next', forward', step⟩ := bind_eq_ok.mp step
      cases step
      obtain ⟨done, done'⟩ := ih later
      exact ⟨bind_eq_ok.mpr ⟨next, forward, done⟩, bind_eq_ok.mpr ⟨next', forward', done'⟩⟩

/-- If the second of two chains succeeds, carrying both along does what the first one does. -/
theorem foldlM_pair_of_ok {σ τ : Type} (left : σ → α → Except ε σ) (right : τ → α → Except ε τ)
    {list : List α} (first : σ) {second last : τ} (done : list.foldlM right second = .ok last) :
    list.foldlM (fun state item => do
        let next ← left state.1 item
        let next' ← right state.2 item
        return (next, next')) (first, second) =
      list.foldlM left first >>= fun next => .ok (next, last) := by
  induction list generalizing first second with
  | nil =>
      cases done
      rfl
  | cons item rest ih =>
      obtain ⟨middle, there, later⟩ := bind_eq_ok.mp done
      rw [List.foldlM_cons, List.foldlM_cons, there]
      cases left first item with
      | error reason => rfl
      | ok next => exact ih next later

/-- A chain of checked steps gives what the steps give unchecked, if that fits all along. -/
theorem foldlM_of_room {σ : Type} {checked : σ → α → Except ε σ} {plain : σ → α → σ}
    {fits : σ → Prop} {list : List α} {state : σ}
    (link : ∀ state item, fits (plain state item) → checked state item = .ok (plain state item))
    (room : ∀ early, early <+: list → fits (early.foldl plain state)) :
    list.foldlM checked state = .ok (list.foldl plain state) := by
  induction list generalizing state with
  | nil => rfl
  | cons item rest ih =>
      rw [List.foldlM_cons, link state item (room [item] (List.prefix_append [item] rest))]
      exact ih fun early before => room (item :: early) (List.cons_prefix_cons.mpr ⟨rfl, before⟩)

end Outcome
end CilProfiler
