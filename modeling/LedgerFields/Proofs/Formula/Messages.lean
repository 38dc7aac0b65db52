import LedgerFields.Proofs.Formula.Evaluation.Flexible
import LedgerFields.Proofs.Text.Pieces

/-! The texts of faults. None of them is empty. The text of a term fault quotes the term and what
was found for it, and is one line unless it quotes a line feed; so the texts of several faults are
the lines of the message that lists them unless one of them quotes a line feed. -/

namespace LedgerFields

/-- The texts that the text of what is missing quotes. -/
def Missing.quoted : Missing → List String
  | .column name => [name]
  | .keyColumn name => [name]
  | .key text place => [text, place]

namespace Formula

/-- The texts that the text of a term fault quotes; an empty cell shows as the empty text. -/
def TermFault.quoted : TermFault → List String
  | .malformed term separator => [term, toString separator]
  | .unresolved term missing => term :: missing.quoted
  | .nonNumeric term content => [term, content.display]

theorem TermFault.message_ne_empty (fault : TermFault) : fault.message ≠ "" := by
  unfold message
  split <;> simp +decide

theorem FormulaFault.report_ne_empty (fault : FormulaFault) : fault.report ≠ "" := by
  unfold report
  split
  · simp +decide
  · unfold message
    split <;> simp +decide

theorem faultLines_ne_empty {faults : List TermFault} (h : faults ≠ []) :
    faultLines faults ≠ "" := by
  unfold faultLines
  cases faults with
  | nil => exact absurd rfl h
  | cons fault faults =>
    cases faults with
    | nil => exact fault.message_ne_empty
    | cons next faults =>
      rw [List.map_cons, List.map_cons, String.intercalate_cons_cons]
      simp [fault.message_ne_empty]

/-! ### Lines -/

theorem mem_toString_iff {c : Char} {s : String} : c ∈ (toString s).toList ↔ c ∈ s.toList := Iff.rfl

theorem mem_toList_eq_false {c : Char} {s : String} (h : c ∉ s.toList) :
    (c ∈ s.toList) = False := eq_false h

/-- The line feeds in the text of a term fault are those of the texts that it quotes. -/
theorem TermFault.lineFeed_mem_message {fault : TermFault} :
    '\n' ∈ fault.message.toList ↔ ∃ text ∈ fault.quoted, '\n' ∈ text.toList := by
  rcases fault with _ | ⟨_, _ | _ | _⟩ | ⟨_, _ | _ | _⟩ <;> unfold message <;>
  simp (disch := decide +kernel) only [quoted, Missing.message, Missing.quoted, Cell.display,
    String.toList_append, List.mem_append, mem_toString_iff, mem_toList_eq_false, false_or,
    or_false, List.mem_cons, List.not_mem_nil, exists_eq_or_imp, exists_eq_left]

/-- The texts of faults are the lines of the text that lists them unless one of them quotes a line
feed. -/
theorem pieces_faultLines_iff {faults : List TermFault} (h : faults ≠ []) :
    Text.pieces '\n' (faultLines faults) = faults.map TermFault.message ↔
      ∀ fault ∈ faults, ∀ text ∈ fault.quoted, '\n' ∉ text.toList := by
  have hlines : faultLines faults =
      ('\n').toString.intercalate (faults.map TermFault.message) := rfl
  rw [hlines, Text.pieces_intercalate_iff (by simpa using h), List.forall_mem_map]
  refine forall₂_congr fun fault _ => ?_
  rw [TermFault.lineFeed_mem_message]
  push Not
  rfl

end Formula

end LedgerFields
