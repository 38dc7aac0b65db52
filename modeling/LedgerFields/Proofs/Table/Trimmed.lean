import LedgerFields.Proofs.Fallible
import LedgerFields.Proofs.Table.Sound
import Mathlib.Data.List.GetD

/-! Tables of which one is the other with the blanks around its texts dropped. Rows have the same
keys in both, since a key is trimmed, and so a search finds the same row. -/

namespace LedgerFields

/-- The cell with the blanks around its text dropped. -/
def Cell.trimmed : Cell → Cell
  | .text s => .text (Text.trim s)
  | cell => cell

/-- The cells are the same but for the blanks around a text. -/
inductive Cell.Alike : Cell → Cell → Prop
  | empty : Alike .empty .empty
  | number {x : Float} : Alike (.number x) (.number x)
  | text {s s' : String} : Text.trim s = Text.trim s' → Alike (.text s) (.text s')

theorem Cell.alike_trimmed (cell : Cell) : cell.trimmed.Alike cell := by
  cases cell with
  | empty => exact .empty
  | number x => exact .number
  | text s => exact .text (Text.trim_trim s)

theorem Cell.keyText_trimmed (cell : Cell) : cell.trimmed.keyText = cell.keyText := by
  cases cell with
  | text s => exact Text.trim_trim s
  | empty | number => rfl

/-- The answer with the blanks around a text dropped. -/
def Lookup.trimmed : Lookup → Lookup
  | .found cell => .found cell.trimmed
  | .missing what => .missing what

/-- What does not see the blanks around the text of a cell does not see them in an answer. -/
theorem Lookup.apply_trimmed {α : Type} (f : Lookup → α)
    (h : ∀ s, f (.found (.text (Text.trim s))) = f (.found (.text s))) (answer : Lookup) :
    f answer.trimmed = f answer := by
  rcases answer with (_ | _ | s) | _
  case found.text => exact h s
  all_goals rfl

/-- The table with the blanks around the texts of its cells dropped. -/
def Table.trimmed (t : Table) : Table :=
  { t with rows := t.rows.map (·.map Cell.trimmed) }

namespace Table

theorem toOption_push_trimmed (t : Table) (row : List Cell) :
    (t.trimmed.push (row.map Cell.trimmed)).toOption = (t.push row).toOption.map trimmed := by
  have hcolumns : t.trimmed.columns = t.columns := rfl
  unfold push
  rw [hcolumns, List.length_map]
  split
  · rfl
  · simp [Except.toOption, trimmed, Cell.trimmed]

theorem trimmed_of_ofColumns {names : List String} {made : Table} (h : ofColumns names = .ok made) :
    made.trimmed = made := by
  obtain ⟨-, -, rfl⟩ := ofColumns_eq_ok.mp h
  unfold trimmed
  rw [Array.map_empty]

theorem isEmpty_rows_trimmed (t : Table) : t.trimmed.rows.isEmpty = t.rows.isEmpty := by
  simp [trimmed, Array.isEmpty]

theorem toList_rows_trimmed (t : Table) :
    t.trimmed.rows.toList = t.rows.toList.map (·.map Cell.trimmed) :=
  Array.toList_map

theorem forall₂_alike_trimmed (t : Table) :
    List.Forall₂ (List.Forall₂ Cell.Alike) t.trimmed.rows.toList t.rows.toList := by
  rw [toList_rows_trimmed, List.forall₂_map_left_iff, List.forall₂_same]
  intro row _
  rw [List.forall₂_map_left_iff, List.forall₂_same]
  exact fun cell _ => cell.alike_trimmed

/-! ### Looking up -/

theorem keys_trimmed (t : Table) (column : Nat) : t.trimmed.keys column = t.keys column := by
  unfold keys
  rw [toList_rows_trimmed, List.map_map]
  refine List.map_congr_left fun row _ => ?_
  have hcell : (row.map Cell.trimmed).getD column .empty = (row.getD column .empty).trimmed :=
    List.getD_map row .empty Cell.trimmed
  rw [Function.comp_apply, hcell, Cell.keyText_trimmed]

theorem search?_trimmed (t : Table) (keyColumn key : String) :
    t.trimmed.search? keyColumn key = t.search? keyColumn key := by
  unfold search?
  simp only [keys_trimmed]
  rfl

theorem cell?_trimmed (t : Table) (row column : Nat) :
    t.trimmed.cell? row column = (t.cell? row column).map Cell.trimmed := by
  unfold cell? trimmed
  rw [Array.getElem?_map]
  cases t.rows[row]? with
  | none => rfl
  | some cells => exact List.getElem?_map

/-- A search finds the same row, and its cell with the blanks around a text dropped. -/
theorem searched_trimmed (t : Table) (column keyColumn key : String) :
    t.trimmed.searched column keyColumn key = (t.searched column keyColumn key).trimmed := by
  have hindex (name : String) : t.trimmed.columnIndex? name = t.columnIndex? name := rfl
  unfold searched
  rw [search?_trimmed, hindex, hindex]
  cases t.columnIndex? keyColumn with
  | none => rfl
  | some _ =>
    cases t.columnIndex? column with
    | none => rfl
    | some position =>
      cases t.search? keyColumn key with
      | none => rfl
      | some row =>
        dsimp only [Lookup.trimmed]
        rw [cell?_trimmed]
        cases t.cell? row position <;> rfl

end Table

end LedgerFields
