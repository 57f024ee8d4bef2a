import CilProfiler.Depth.Walk
import CilProfiler.Proofs.Outcome

/-! # Moves of the stack depth

What an instruction does to a depth, without bounds on either side. The checked computation gives
the same depth as the move wherever that depth is one a stack can have, and a move keeps the order
of depths: whoever enters an instruction with more does not leave it with less.
-/

namespace CilProfiler

theorem Depth.eq_of_ofInt? {depth : Int} {value : Depth} (given : ofInt? depth = some value) :
    depth = value := by
  unfold ofInt? at given
  split at given
  · exact Option.some.inj given
  · cases given

/-- No opcode pushes more than two values. -/
theorem PushBehaviour.count_le_two (pushes : PushBehaviour) : pushes.count ≤ 2 := by
  cases pushes <;> decide

/-- An opcode that empties the stack pushes nothing. -/
theorem Opcode.pushes_of_all {op : Opcode} (pops : op.info.pops.effect = .all) :
    op.info.pushes.count = 0 := by
  revert pops
  cases op <;> decide

/-- The one plain opcode whose pops vary is the return, and it pushes nothing. -/
theorem Opcode.pushes_of_variable {op : Opcode} (plain : op.flow ≠ .call)
    (pops : op.info.pops.effect = .variable) : op.info.pushes.count = 0 := by
  revert plain pops
  cases op <;> decide

theorem Opcode.depthAfter?_count {op : Opcode} {count : Nat}
    (pops : op.info.pops.effect = .count count) (depth : Depth) :
    op.depthAfter? depth =
      (Depth.ofInt? (depth - count)).bind fun popped => Depth.ofInt? (popped + op.info.pushes.count) := by
  rw [depthAfter?, pops]
  rfl

theorem Opcode.depthAfter?_all {op : Opcode} (pops : op.info.pops.effect = .all) (depth : Depth) :
    op.depthAfter? depth = Depth.ofInt? 0 := by
  rw [depthAfter?, pops, pushes_of_all pops]
  rfl

theorem Opcode.depthAfter?_variable {op : Opcode} (plain : op.flow ≠ .call)
    (pops : op.info.pops.effect = .variable) (depth : Depth) :
    op.depthAfter? depth = Depth.ofInt? depth := by
  rw [depthAfter?, pops, pushes_of_variable plain pops]
  exact congrArg Depth.ofInt? (Int.add_zero depth)

namespace Instruction

/-- An instruction takes one unbounded depth to another. A call changes it by the effect of the
    callee it resolves to, a return leaves it alone. -/
inductive Moves (resolver : Resolver) (item : Instruction) (before : Int) : Int → Prop where
  | call {callee : CallShape} (family : item.code.flow = .call)
      (resolved : item.calleeShape resolver = .ok callee) :
      Moves resolver item before (before + item.code.callEffect callee)
  | fixed {count : Nat} (plain : item.code.flow ≠ .call)
      (pops : item.code.info.pops.effect = .count count) :
      Moves resolver item before (before - count + item.code.info.pushes.count)
  | clears (plain : item.code.flow ≠ .call) (pops : item.code.info.pops.effect = .all) :
      Moves resolver item before 0
  | keeps (plain : item.code.flow ≠ .call) (pops : item.code.info.pops.effect = .variable) :
      Moves resolver item before before

/-- Where an instruction takes a depth, if it is no call that fails to resolve. -/
def destination? (resolver : Resolver) (item : Instruction) (before : Int) : Option Int :=
  if item.code.flow = .call then
    match item.calleeShape resolver with
    | .ok callee => some (before + item.code.callEffect callee)
    | .error _ => none
  else
    match item.code.info.pops.effect with
    | .count count => some (before - count + item.code.info.pushes.count)
    | .all => some 0
    | .variable => some before

variable {resolver : Resolver} {item : Instruction} {before after before' after' : Int}

theorem moves_iff : item.Moves resolver before after ↔ item.destination? resolver before = some after := by
  unfold destination?
  constructor
  · intro moves
    cases moves with
    | call family resolved => simp [family, resolved]
    | fixed plain pops | clears plain pops | keeps plain pops => simp [plain, pops]
  · intro computed
    split at computed
    · rename_i family
      split at computed
      · rename_i callee resolved
        cases computed
        exact .call family resolved
      · cases computed
    · rename_i plain
      split at computed <;> rename_i pops <;> cases computed
      · exact .fixed plain pops
      · exact .clears plain pops
      · exact .keeps plain pops

instance : Decidable (item.Moves resolver before after) :=
  decidable_of_iff _ moves_iff.symm

theorem depthAfter_call {callee : CallShape} (family : item.code.flow = .call)
    (resolved : item.calleeShape resolver = .ok callee) {depth computed : Depth} :
    item.depthAfter resolver depth = .ok computed ↔
      Depth.ofInt? (depth + item.code.callEffect callee) = some computed := by
  simp only [depthAfter, family, if_true, resolved, bind, Except.bind, pure, Except.pure]
  cases Depth.ofInt? (depth + item.code.callEffect callee) <;> simp

theorem depthAfter_plain (plain : item.code.flow ≠ .call) {depth computed : Depth} :
    item.depthAfter resolver depth = .ok computed ↔ item.code.depthAfter? depth = some computed := by
  simp only [depthAfter, plain, if_false, bind, Except.bind, pure, Except.pure]
  cases item.code.depthAfter? depth <;> simp

/-- A move to a depth that a stack can have is computed without a failure. -/
theorem Moves.depthAfter (moves : item.Moves resolver before after) (low : 0 ≤ after)
    (high : after < 0x80000000) : item.depthAfter resolver before = .ok after := by
  have inRange : Depth.ofInt? after = some after := if_pos ⟨by omega, high⟩
  cases moves with
  | call family resolved => exact (depthAfter_call family resolved).mpr inRange
  | @fixed count plain pops =>
      have pushed := item.code.info.pushes.count_le_two
      have popped : Depth.ofInt? (before - count) = some (before - count) :=
        if_pos ⟨by omega, by omega⟩
      rw [depthAfter_plain plain, Opcode.depthAfter?_count pops, popped]
      exact inRange
  | clears plain pops =>
      rw [depthAfter_plain plain, Opcode.depthAfter?_all pops]
      exact inRange
  | keeps plain pops =>
      rw [depthAfter_plain plain, Opcode.depthAfter?_variable plain pops]
      exact inRange

/-- What is computed is a move. -/
theorem moves_of_depthAfter {depth computed : Depth}
    (evaluated : item.depthAfter resolver depth = .ok computed) :
    item.Moves resolver depth computed := by
  by_cases family : item.code.flow = .call
  · cases resolved : item.calleeShape resolver with
    | error reason =>
        simp [Instruction.depthAfter, family, resolved, bind, Except.bind] at evaluated
    | ok callee =>
        rw [depthAfter_call family resolved] at evaluated
        rw [← Depth.eq_of_ofInt? evaluated]
        exact .call family resolved
  · rw [depthAfter_plain family] at evaluated
    match pops : item.code.info.pops.effect with
    | .count count =>
        rw [Opcode.depthAfter?_count pops] at evaluated
        obtain ⟨popped, first, second⟩ := Option.bind_eq_some_iff.mp evaluated
        rw [← Depth.eq_of_ofInt? second, ← Depth.eq_of_ofInt? first]
        exact .fixed family pops
    | .all =>
        rw [Opcode.depthAfter?_all pops] at evaluated
        rw [← Depth.eq_of_ofInt? evaluated]
        exact .clears family pops
    | .variable =>
        rw [Opcode.depthAfter?_variable family pops] at evaluated
        rw [← Depth.eq_of_ofInt? evaluated]
        exact .keeps family pops

/-- Moves of one instruction keep the order of depths. -/
theorem Moves.mono (low : item.Moves resolver before after)
    (high : item.Moves resolver before' after') (le : before ≤ before') : after ≤ after' := by
  cases low with
  | call family resolved =>
      cases high with
      | call _ resolved' =>
          cases resolved.symm.trans resolved'
          omega
      | fixed plain | clears plain | keeps plain => exact absurd family plain
  | fixed plain pops =>
      cases high with
      | call family => exact absurd family plain
      | fixed _ pops' =>
          cases pops.symm.trans pops'
          omega
      | clears _ pops' | keeps _ pops' => cases pops.symm.trans pops'
  | clears plain pops =>
      cases high with
      | call family => exact absurd family plain
      | clears => exact Int.le_refl 0
      | fixed _ pops' | keeps _ pops' => cases pops.symm.trans pops'
  | keeps plain pops =>
      cases high with
      | call family => exact absurd family plain
      | keeps => exact le
      | fixed _ pops' | clears _ pops' => cases pops.symm.trans pops'

end Instruction
end CilProfiler
