import LedgerFields.Proofs.Delimited.Promise
import LedgerFields.Proofs.Formula.Evaluation.Equations
import LedgerFields.Proofs.Number.Finite
import LedgerFields.Report.Batch

/-! What the rest of the program may rely on when a data file has been loaded. Neither the check for
a table without cells nor the care for numbers that are no numbers ever comes to bear on it. -/

namespace LedgerFields.Report

open Delimited

variable {options : Delimited.Options} {content : FileContent} {path : String} {t : Table}

theorem promised_of_load (h : (load options content).run.value = .ok t) :
    ∃ text, fileText? content = some text ∧ Promised (rawRecords options text) t := by
  obtain ⟨text, htext, h⟩ := load_eq_ok h
  exact ⟨text, htext, promised_of_loadText h⟩

theorem fault_of_load {fault : TableFault}
    (h : (load options content).run.value = .error (.table fault)) :
    ∃ row expected actual, fault = .rowTooWide row expected actual := by
  unfold load at h
  split at h
  · cases h
  · split at h
    · cases h
    · exact fault_of_loadText h

theorem load_of_loadFile (h : (loadFile options path content).run.value = .ok t) :
    (load options content).run.value = .ok t := by
  unfold loadFile at h
  dsimp only at h
  split at h
  · exact h
  · split at h <;> cases h

theorem not_size_lt_one {records : List RawRecord} (h : Promised records t) : ¬t.size < 1 := by
  have hrows : 0 < t.rows.size := Array.size_pos_iff.mpr h.rows
  have hcolumns : 0 < t.columns.length := List.length_pos_iff.mpr h.columns
  have hsize : 0 < t.size := Nat.mul_pos hrows hcolumns
  omega

/-- Every table that is loaded passes the check for a cell. -/
theorem openTable_eq (options : Delimited.Options) (path : String) (content : FileContent) :
    openTable options path content =
      (loadFile options path content).adapt BatchFault.ofLoad := by
  refine bind_eq_self fun t ht => ?_
  have hadapt : (loadFile options path content).run.value.mapError BatchFault.ofLoad = .ok t := ht
  obtain ⟨text, -, hpromised⟩ := promised_of_load (load_of_loadFile (mapError_eq_ok.mp hadapt))
  rw [if_neg (not_size_lt_one hpromised)]

/-- Loading never fails for want of columns or for two of one name. A table that is loaded has a
column for each cell of its header and a row at least, proper and distinct names, rows as wide as
its header, finite numbers, and no text that says that a value is not available or that spells a
finite number. So opening a file is loading it, and the numbers of its table are the values of the
terms that refer to them. -/
theorem loaded_as_promised (options : Delimited.Options) (content : FileContent) :
    (∀ fault, (load options content).run.value = .error (.table fault) →
      ∃ row expected actual, fault = .rowTooWide row expected actual) ∧
    (∀ t, (load options content).run.value = .ok t →
      (∃ text, fileText? content = some text ∧ Promised (rawRecords options text) t) ∧
      ∀ row ∈ t.rows.toList, ∀ x, .number x ∈ row →
        ∀ settings : Formula.Settings, ∀ term, settings.cellValue term (.number x) = .ok x) ∧
    ∀ path, openTable options path content =
      (loadFile options path content).adapt BatchFault.ofLoad := by
  refine ⟨fun fault h => fault_of_load h, fun t h => ?_, fun path => openTable_eq _ path _⟩
  obtain ⟨text, htext, hpromised⟩ := promised_of_load h
  refine ⟨⟨text, htext, hpromised⟩, fun row hrow x hx settings term => ?_⟩
  exact settings.cellValue_number term (Number.isNaN_of_isFinite (hpromised.cells row hrow _ hx))

/-- A header with a repeated name, a blank one and one that looks like a name that was changed,
and fields that are nearly numbers. -/
theorem loaded_as_promised_sample :
    let content : FileContent := .ok (Text.toBytes "k,k.1, ,k\n1e999,NA\n-0.5,<NA>, nan ,inf\n")
    ∃ t, (load {} content).run.value = .ok t ∧
      t.columns = ["k", "k.1", "Unnamed: 2", "k.2"] ∧ ¬t.size < 1 ∧
      ∀ row ∈ t.rows.toList, ∀ cell ∈ row, Classified cell := by
  intro content
  obtain ⟨t, hload, hcolumns⟩ := map_eq_ok.mp
    (by decide +kernel : (load {} content).run.value.map Table.columns =
      .ok ["k", "k.1", "Unnamed: 2", "k.2"])
  obtain ⟨⟨_, -, hpromised⟩, -⟩ := (loaded_as_promised {} content).2.1 t hload
  exact ⟨t, hload, hcolumns, not_size_lt_one hpromised, hpromised.cells⟩

end LedgerFields.Report
