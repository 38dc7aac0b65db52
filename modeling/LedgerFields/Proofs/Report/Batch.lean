import LedgerFields.Proofs.Report.Document
import LedgerFields.Proofs.Stateful

/-! A batch is all or nothing: of a document that is not in order it leaves one entry, which says
what is first wrong, and no field; of one that is in order it leaves fields only. -/

namespace LedgerFields.Report

variable {options : Options} {t : Table} {d : Document} {fields data : FileContent} {path : String}

theorem value_computeDocument (options : Options) (t : Table) (d : Document) :
    (computeDocument options t d).run.value =
      (d.groups options.sideSeparator).run.value.map fun groups =>
        ((groups.mapM (computeGroup options)).run t).value.1.flatten := by
  unfold computeDocument
  rw [ExceptT.run_bind, Logged.value_bind]
  cases (d.groups options.sideSeparator).run.value <;> rfl

/-- The entries of a computed document are fields. -/
theorem isField_of_computeDocument {entries : List Entry}
    (h : (computeDocument options t d).run.value = .ok entries) {entry : Entry}
    (hentry : entry ∈ entries) : ∃ id outcome, entry = .field id outcome := by
  rw [value_computeDocument] at h
  obtain ⟨groups, -, rfl⟩ := map_eq_ok.mp h
  obtain ⟨ofGroup, hofGroup, hmem⟩ := List.mem_flatten.mp hentry
  refine forall_mem_mapM (P := fun es => ∀ e ∈ es, ∃ id outcome, e = Entry.field id outcome)
    (fun group t => ?_) groups t ofGroup hofGroup entry hmem
  exact forall_mem_mapM (fun field t => ⟨field.id, _, rfl⟩) group.fields t

theorem value_computeFields (options : Options) (fields : FileContent) (path : String)
    (data : FileContent) :
    (computeFields options fields path data).value =
      match (tryComputeFields options fields path data).run.value with
      | .ok entries => entries
      | .error fault => [.aborted fault.message] := by
  unfold computeFields
  rw [Logged.value_bind]
  cases (tryComputeFields options fields path data).run.value <;> rfl

/-- With a document and a table read, the batch is that of the document on the table. -/
theorem value_tryComputeFields (hd : Document.ofFile fields = .ok d)
    (ht : (openTable options.data path data).run.value = .ok t) :
    (tryComputeFields options fields path data).run.value =
      (computeDocument options t d).run.value := by
  unfold tryComputeFields
  rw [ExceptT.run_bind, Logged.value_bind, hd]
  show (openTable options.data path data >>= fun t => computeDocument options t d).run.value = _
  rw [ExceptT.run_bind, Logged.value_bind, ht]

/-- A document that fails leaves one entry and no field, whatever the data. -/
theorem computeFields_of_groups_error (hd : Document.ofFile fields = .ok d) {fault : BatchFault}
    (hgroups : (d.groups options.sideSeparator).run.value = .error fault) :
    (∃ message, (computeFields options fields path data).value = [.aborted message]) ∧
      ∀ t, (openTable options.data path data).run.value = .ok t →
        (computeFields options fields path data).value = [.aborted fault.message] := by
  have hfault (t : Table) : (computeDocument options t d).run.value = .error fault := by
    rw [value_computeDocument, hgroups]
    rfl
  rw [value_computeFields]
  constructor
  · cases htry : (tryComputeFields options fields path data).run.value with
    | error fault' => exact ⟨_, rfl⟩
    | ok entries =>
      obtain ⟨d', hd', htable⟩ := value_bind_eq_ok.mp htry
      obtain ⟨t, -, hentries⟩ := value_bind_eq_ok.mp htable
      have heq : d = d' := Except.ok.inj (hd.symm.trans hd')
      rw [← heq, hfault t] at hentries
      cases hentries
  · intro t ht
    rw [value_tryComputeFields hd ht, hfault t]

theorem computeFields_of_groups_ok (hd : Document.ofFile fields = .ok d) {groups : List Group}
    (hgroups : (d.groups options.sideSeparator).run.value = .ok groups)
    (ht : (openTable options.data path data).run.value = .ok t) :
    ∀ entry ∈ (computeFields options fields path data).value,
      ∃ id outcome, entry = .field id outcome := by
  obtain ⟨entries, hentries⟩ :
      ∃ entries, (computeDocument options t d).run.value = .ok entries := by
    rw [value_computeDocument, hgroups]
    exact ⟨_, rfl⟩
  rw [value_computeFields, value_tryComputeFields hd ht, hentries]
  exact fun entry hentry => isField_of_computeDocument hentries hentry

/-- Reading a document fails exactly when one of its entries that are named after a procedure does
not list fields of it. Its fault is the first fault of the first such entry, and its notices are
those of the entries before. A batch then consists of one entry that tells the fault of the batch,
and otherwise of fields. -/
theorem groups_blame_first_fault (options : Options) (d : Document) :
    ((∃ fault, (d.groups options.sideSeparator).run.value = .error fault) ↔
      ∃ entry ∈ d.entries, ∃ procedure, Procedure.ofName? entry.1 = some procedure ∧
        ¬IsFieldList procedure entry.2) ∧
      (∀ fault notices, (d.groups options.sideSeparator).run = ⟨.error fault, notices⟩ ↔
        ∃ before entry after, d.entries = before ++ entry :: after ∧ (∀ e ∈ before, InOrder e) ∧
          entryFault? entry = some fault ∧ notices = before.filterMap entryNotice?) ∧
      (∀ notices, (∃ groups, (d.groups options.sideSeparator).run = ⟨.ok groups, notices⟩) ↔
        (∀ entry ∈ d.entries, InOrder entry) ∧ notices = d.entries.filterMap entryNotice?) ∧
      (∀ t, errorOf? (computeDocument options t d).run.value =
        errorOf? (d.groups options.sideSeparator).run.value) ∧
      ∀ fields path data, Document.ofFile fields = .ok d →
        (∀ fault, (d.groups options.sideSeparator).run.value = .error fault →
          (∃ message, (computeFields options fields path data).value = [.aborted message]) ∧
          ∀ t, (openTable options.data path data).run.value = .ok t →
            (computeFields options fields path data).value = [.aborted fault.message]) ∧
        ∀ groups t, (d.groups options.sideSeparator).run.value = .ok groups →
          (openTable options.data path data).run.value = .ok t →
          ∀ entry ∈ (computeFields options fields path data).value,
            ∃ id outcome, entry = .field id outcome := by
  refine ⟨Document.groups_fails_iff, fun fault notices => Document.run_groups_eq_error,
    fun notices => Document.run_groups_eq_ok, fun t => ?_, fun fields path data hd => ⟨?_, ?_⟩⟩
  · rw [value_computeDocument]
    exact errorOf?_map _ _
  · exact fun fault hgroups => computeFields_of_groups_error hd hgroups
  · exact fun groups t hgroups ht => computeFields_of_groups_ok hd hgroups ht

theorem groups_blame_first_fault_sample :
    let good : String := "\x7b\"notes\": 0, \"micro_calc\": [\x7b\"id\": 1, " ++
      "\"account_col_name\": \"k\", \"micro_formula\": \"2\"\x7d]"
    let bad : String := good ++ ", \"single_cell\": [\x7b\"id\": 2\x7d]"
    let content (text : String) : FileContent := .ok (Text.toBytes text)
    let entries (text : String) : List Entry :=
      (computeFields {} (content text) "data.csv" (content "k,v\na,1\n")).value
    entries (bad ++ "\x7d") = [.aborted (BatchFault.missingKey .singleCell .keyColumn).message] ∧
      ∀ entry ∈ entries (good ++ "\x7d"), ∃ id outcome, entry = .field id outcome := by
  intro good bad content entries
  have hread (text : String) (fault : Option BatchFault)
      (h : (Document.ofFile (content text)).toOption.map
        (fun d => errorOf? (d.groups ':').run.value) = some fault) :
      ∃ d, Document.ofFile (content text) = .ok d ∧
        errorOf? (d.groups ':').run.value = fault := by
    cases hd : Document.ofFile (content text) with
    | error e =>
      rw [hd] at h
      cases h
    | ok d =>
      rw [hd] at h
      exact ⟨d, rfl, Option.some.inj h⟩
  obtain ⟨t, ht⟩ := errorOf?_eq_none.mp
    (by decide +kernel : errorOf? (openTable {} "data.csv" (content "k,v\na,1\n")).run.value = none)
  constructor
  · obtain ⟨d, hd, hfault⟩ := hread (bad ++ "\x7d")
      (some (BatchFault.missingKey .singleCell .keyColumn)) (by decide +kernel)
    have hbatch := (groups_blame_first_fault {} d).2.2.2.2 _ "data.csv" (content "k,v\na,1\n") hd
    exact (hbatch.1 _ (errorOf?_eq_some.mp hfault)).2 t ht
  · obtain ⟨d, hd, hfault⟩ := hread (good ++ "\x7d") none (by decide +kernel)
    have hbatch := (groups_blame_first_fault {} d).2.2.2.2 _ "data.csv" (content "k,v\na,1\n") hd
    obtain ⟨groups, hgroups⟩ := errorOf?_eq_none.mp hfault
    exact hbatch.2 groups t hgroups ht

end LedgerFields.Report
