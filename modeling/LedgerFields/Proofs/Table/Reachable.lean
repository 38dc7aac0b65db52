import LedgerFields.Proofs.Delimited.Load
import LedgerFields.Proofs.Table.History

/-! The tables that there can be: those made from column names and changed by calls only. A table
that is loaded is one of them. -/

namespace LedgerFields

namespace Table

variable {t t' : Table}

/-- The table is made from column names, and changed by calls only. -/
def Reachable (t : Table) : Prop :=
  ∃ names made calls, ofColumns names = .ok made ∧ t = made.after calls

theorem Reachable.sound (h : t.Reachable) : t.Sound := by
  obtain ⟨names, made, calls, hmade, rfl⟩ := h
  exact (history_answers (sound_ofColumns hmade) calls).2.1

theorem reachable_ofColumns {names : List String} (h : ofColumns names = .ok t) : t.Reachable :=
  ⟨names, t, [], h, rfl⟩

/-- Columns with different names make a table, and calls change it. -/
theorem reachable_after {names : List String} (hnames : names ≠ [])
    (hdistinct : (names.map Text.trim).Nodup) (calls : List Call) :
    (after ⟨names.map Text.trim, #[], (names.map Text.trim).map fun _ => none⟩ calls).Reachable :=
  ⟨names, _, calls, ofColumns_eq_ok.mpr ⟨hnames, hdistinct, rfl⟩, rfl⟩

theorem Reachable.push {row : List Cell} (ht : t.Reachable) (h : t.push row = .ok t') :
    t'.Reachable := by
  obtain ⟨names, made, calls, hmade, rfl⟩ := ht
  refine ⟨names, made, calls ++ [.push row], hmade, ?_⟩
  have hpushed : (made.after calls).pushed row = (.pushed none, t') := by
    unfold pushed
    rw [h]
  have hrun := run_push (made.after calls) row
  rw [hpushed] at hrun
  rw [after_append, (run_cons hrun []).2]
  rfl

/-- The table with its columns and rows, and without key indexes. -/
def fresh (t : Table) : Table :=
  { t with indexes := t.columns.map fun _ => none }

theorem sameData_fresh (t : Table) : SameData t t.fresh := ⟨rfl, rfl⟩

theorem Sound.fresh (ht : t.Sound) : t.fresh.Sound :=
  ⟨ht.trimmed, ht.distinct, ht.width, fun _ _ h => absurd h (getElem?_no_indexes _ _ _)⟩

end Table

namespace Delimited

variable {options : Options} {t t' : Table}

theorem reachable_addRecords {entries : List (RawRecord × Nat)} (ht : t.Reachable)
    (h : entries.foldlM (addRecord options) t = .ok t') : t'.Reachable := by
  induction entries generalizing t with
  | nil =>
    cases h
    exact ht
  | cons entry entries ih =>
    rw [List.foldlM_cons] at h
    obtain ⟨next, hadd, h⟩ := bind_eq_ok.mp h
    obtain ⟨fields, -, hpush⟩ := addRecord_eq_ok hadd
    exact ih (ht.push hpush) h

theorem reachable_of_load {content : FileContent}
    (h : (load options content).run.value = .ok t) : t.Reachable := by
  obtain ⟨text, -, h⟩ := load_eq_ok h
  obtain ⟨names, made, hmade, hloaded⟩ := made_of_loadText h
  exact reachable_addRecords (Table.reachable_ofColumns hmade) hloaded

end Delimited

end LedgerFields
