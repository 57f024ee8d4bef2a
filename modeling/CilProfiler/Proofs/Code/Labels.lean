import CilProfiler.Code.Listing
import CilProfiler.Proofs.Code.Offsets
import CilProfiler.Proofs.Text.HexNumerals

/-! # Labels

Labels are made of offsets, and offsets move with every edit. Still a label names one instruction of
the linked code: offsets increase along it, and numerals tell them apart, also those that have outgrown
four digits. So a branch shows where it leads, whatever was edited since it was created: the line that
starts with the label it shows is that of its target, and no other line does.
-/

namespace CilProfiler

/-- What stands in front of the first colon of a line. -/
def lineLabel (line : String) : String :=
  String.ofList (line.toList.takeWhile (· ≠ ':'))

theorem offsetLabel_injective : Function.Injective offsetLabel := by
  intro offset offset' same
  have numerals := congrArg String.toList same
  rw [offsetLabel, offsetLabel, String.toList_append, String.toList_append] at numerals
  exact Hex.padded_injective 4 (String.toList_inj.mp (List.append_cancel_left numerals))

theorem colon_notMem_offsetLabel (offset : Nat) : ':' ∉ (offsetLabel offset).toList := by
  rw [offsetLabel, String.toList_append, List.mem_append]
  rintro (front | digit)
  · exact absurd front (by decide)
  · obtain ⟨d, small, same⟩ := Hex.exists_of_mem_padded digit
    exact absurd same ((by decide : ∀ d < 16, ':' ≠ d.digitChar) d small)

/-- A label is never mistaken for a handle. -/
theorem offsetLabel_ne_text (offset : Nat) (id : InstrId) : offsetLabel offset ≠ id.text := by
  intro same
  have first := congrArg (·.toList.head?) same
  simp [offsetLabel, InstrId.text, String.toList_append] at first

theorem lineLabel_append {label : String} (plain : ':' ∉ label.toList) (rest : String) :
    lineLabel (label ++ ": " ++ rest) = label := by
  have every : ∀ c ∈ label.toList, decide (c ≠ ':') = true := fun c member =>
    decide_eq_true fun colon => plain (colon ▸ member)
  rw [lineLabel, String.toList_append, String.toList_append, List.append_assoc,
    List.takeWhile_append_of_pos every]
  simp

/-- The operand names branch targets, if only an empty table of them. -/
def Operand.isBranch : Operand → Bool
  | .target _ | .switch _ => true
  | _ => false

namespace InstructionList

variable {list : InstructionList} {id other target : InstrId} {item : Instruction} {position : Nat}

/-- The lines of the linked code, in order. -/
def listing (list : InstructionList) : List String :=
  list.order.map list.line

theorem label_of_get? (found : list.get? id = some item) : list.label id = offsetLabel item.offset := by
  rw [label, found]

/-- A line starts with the label of its instruction. -/
theorem lineLabel_line (found : list.get? id = some item) : lineLabel (list.line id) = list.label id := by
  obtain ⟨rest, shown⟩ : ∃ rest, list.line id = offsetLabel item.offset ++ ": " ++ rest := by
    simp only [line, found]
    split
    · exact ⟨_, rfl⟩
    · exact ⟨_, by rw [String.append_assoc, String.append_assoc, String.append_assoc]⟩
  rw [shown, lineLabel_append (colon_notMem_offsetLabel _), label_of_get? found]

theorem operandText_of_isBranch {operand : Operand} (branch : operand.isBranch) :
    list.operandText operand = some (",".intercalate (operand.targets.map list.label)) := by
  cases operand with
  | target id => rw [operandText, Operand.targets, List.map_singleton, String.intercalate_singleton]
  | switch targets => rfl
  | _ => cases branch

theorem line_of_isBranch (found : list.get? id = some item) (branch : item.operand.isBranch) :
    list.line id = offsetLabel item.offset ++ ": " ++ item.code.mnemonic ++ " "
      ++ ",".intercalate (item.targets.map list.label) := by
  simp only [line, found, operandText_of_isBranch branch]
  rfl

namespace Reachable

theorem get?_target (reachable : list.Reachable) (found : list.get? id = some item)
    (member : target ∈ item.targets) : ∃ item', list.get? target = some item' := by
  have created : id.index < list.arena.size := (Array.getElem?_eq_some_iff.mp found).1
  have before := reachable.targets_lt found target member
  exact ⟨_, Array.getElem?_eq_getElem (Nat.lt_trans before created)⟩

theorem label_eq_iff (reachable : list.Reachable) {i j : Nat} (there : list.at? i = some id)
    (there' : list.at? j = some other) : list.label id = list.label other ↔ i = j := by
  obtain ⟨item, found⟩ := reachable.ordered.get?_of_mem (List.mem_of_getElem? there)
  obtain ⟨item', found'⟩ := reachable.ordered.get?_of_mem (List.mem_of_getElem? there')
  rw [label_of_get? found, label_of_get? found', offsetLabel_injective.eq_iff]
  constructor
  · -- Offsets increase along the code, so that equal ones are those of one position.
    intro same
    rcases Nat.lt_trichotomy i j with before | equal | behind
    · exact absurd same (Nat.ne_of_lt (reachable.offset_lt ⟨there, found⟩ ⟨there', found'⟩ before))
    · exact equal
    · exact absurd same.symm
        (Nat.ne_of_lt (reachable.offset_lt ⟨there', found'⟩ ⟨there, found⟩ behind))
  · rintro rfl
    obtain rfl : id = other := Option.some.inj (there.symm.trans there')
    rw [found] at found'
    rw [Option.some.inj found']

/-- One line of the listing starts with the label of a linked instruction: its own. -/
theorem lineLabel_listing_iff (reachable : list.Reachable) (there : list.at? position = some target)
    (i : Nat) : list.listing[i]?.map lineLabel = some (list.label target) ↔ i = position := by
  rw [listing, List.getElem?_map]
  cases stands : list.order[i]? with
  | none =>
      have apart : i ≠ position := by
        rintro rfl
        cases stands.symm.trans there
      simpa using apart
  | some id =>
      obtain ⟨item, found⟩ := reachable.ordered.get?_of_mem (List.mem_of_getElem? stands)
      rw [Option.map_some, Option.map_some, lineLabel_line found, Option.some.injEq]
      exact reachable.label_eq_iff stands there

/-- After any edits, linked instructions have labels of their own. A branch, linked or not, shows for
    each of its targets, in their order, the label of an instruction and never a handle; if the target
    is linked, the label is what stands in front of the first colon of its line, and of no other line
    of the listing. -/
theorem labels (reachable : list.Reachable) :
    (∀ id ∈ list.order, ∀ other ∈ list.order, id ≠ other → list.label id ≠ list.label other) ∧
      ∀ id item, list.get? id = some item → item.operand.isBranch →
        list.line id = offsetLabel item.offset ++ ": " ++ item.code.mnemonic ++ " "
            ++ ",".intercalate (item.targets.map list.label) ∧
          ∀ target ∈ item.targets,
            (∃ item', list.get? target = some item' ∧ list.label target = offsetLabel item'.offset) ∧
              (∀ other : InstrId, list.label target ≠ other.text) ∧
              (target ∈ list.order → ∃ position, list.at? position = some target ∧
                ∀ i, list.listing[i]?.map lineLabel = some (list.label target) ↔ i = position) := by
  refine ⟨fun id linked other linked' apart same => ?_, fun id item found branch =>
    ⟨line_of_isBranch found branch, fun target member => ?_⟩⟩
  · obtain ⟨i, there⟩ := List.getElem?_of_mem linked
    obtain ⟨j, there'⟩ := List.getElem?_of_mem linked'
    obtain rfl := (reachable.label_eq_iff there there').mp same
    exact apart (Option.some.inj (there.symm.trans there'))
  · obtain ⟨item', found'⟩ := reachable.get?_target found member
    have shown := label_of_get? found'
    refine ⟨⟨item', found', shown⟩, fun other => shown ▸ offsetLabel_ne_text _ other, fun linked => ?_⟩
    obtain ⟨position, there⟩ := List.getElem?_of_mem linked
    exact ⟨position, there, reachable.lineLabel_listing_iff there⟩

end Reachable

/-- A switch and a branch are put in front of what they lead to, and one of their targets is moved
    behind the other. -/
def dispatchingHistory : List Edit := [
  .push .nop .none,
  .push .ret .none,
  .create .switch (.switch [⟨0⟩, ⟨1⟩, ⟨0⟩]),
  .create .brS (.target ⟨1⟩),
  .insert 0 ⟨2⟩,
  .insert 1 ⟨3⟩,
  .remove 2,
  .append ⟨0⟩]

theorem dispatchingHistory_labels :
    let list := empty.edits dispatchingHistory
    list.order = [⟨2⟩, ⟨3⟩, ⟨1⟩, ⟨0⟩] ∧
      list.label ⟨0⟩ = "IL_0014" ∧ list.label ⟨1⟩ ≠ list.label ⟨0⟩ ∧
      (∃ item, list.get? ⟨2⟩ = some item ∧ item.operand.isBranch ∧
        list.line ⟨2⟩ = offsetLabel item.offset ++ ": " ++ item.code.mnemonic ++ " "
          ++ ",".intercalate (item.targets.map list.label)) ∧
      list.line ⟨2⟩ = "IL_0000: switch IL_0014,IL_0013,IL_0014" ∧
      ∀ i, list.listing[i]?.map lineLabel = some "IL_0014" ↔ i = 3 := by
  intro list
  have reachable : list.Reachable := ⟨dispatchingHistory, rfl⟩
  have order : list.order = [⟨2⟩, ⟨3⟩, ⟨1⟩, ⟨0⟩] := by decide +kernel
  have label : list.label ⟨0⟩ = "IL_0014" := by decide +kernel
  obtain ⟨item, found⟩ : ∃ item, list.get? ⟨2⟩ = some item :=
    reachable.ordered.get?_of_mem (by rw [order]; decide)
  have operand : (list.get? ⟨2⟩).map (·.operand) = some (.switch [⟨0⟩, ⟨1⟩, ⟨0⟩]) := by decide +kernel
  rw [found] at operand
  have branch : item.operand = .switch [⟨0⟩, ⟨1⟩, ⟨0⟩] := Option.some.inj operand
  obtain ⟨apart, shown⟩ := reachable.labels
  obtain ⟨line, every⟩ := shown ⟨2⟩ item found (by rw [branch]; rfl)
  obtain ⟨-, -, own⟩ := every ⟨0⟩ (by rw [Instruction.targets, branch]; decide)
  obtain ⟨position, there, only⟩ := own (by rw [order]; decide)
  obtain rfl : 3 = position := (only 3).mp (by decide +kernel)
  rw [label] at only
  exact ⟨order, label, apart ⟨1⟩ (by rw [order]; decide) ⟨0⟩ (by rw [order]; decide) (by decide),
    ⟨item, found, by rw [branch]; rfl, line⟩, by decide +kernel, only⟩

end InstructionList
end CilProfiler
