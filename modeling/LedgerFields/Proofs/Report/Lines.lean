import LedgerFields.Proofs.Formula.Messages
import LedgerFields.Proofs.Formula.Spelling
import LedgerFields.Proofs.Report.Division

/-! The lines of a formula's message. The faults of a formula are those that its references have on
the table, and the message lists them, one on a line. A fault takes more than one line just when it
shows a line feed: the separator, the name of the key column, or the content of a cell may be one or
hold one, but the references of a formula do not, since all blanks of a formula are dropped. -/

namespace LedgerFields

namespace Formula

variable {settings : Settings} {formula term : String} {e : Expr}

theorem fault?_eq_some {result : Except TermFault Float} {fault : TermFault} :
    fault? result = some fault ↔ result = .error fault := by
  cases result <;> simp [fault?]

/-- The references of a formula are no numerals, and no blank stands in them. -/
theorem plain_of_mem_references (h : parse settings formula = .ok e) (hterm : term ∈ e.references) :
    Number.readNumeral? term = none ∧ ∀ c ∈ term.toList, Text.isBlank c = false := by
  obtain ⟨tokens, hmunches, hreferences⟩ := references_of_parse h
  rw [hreferences] at hterm
  obtain ⟨token, htoken, hreference⟩ := List.mem_filterMap.mp hterm
  obtain ⟨rfl, hnumeral⟩ := Token.reference?_eq_some.mp hreference
  refine ⟨hnumeral, fun c hc => ?_⟩
  have hmem : c ∈ (Text.dropBlanks formula).toList := by
    rw [← hmunches.chars_eq]
    exact List.mem_flatMap.mpr ⟨_, htoken, hc⟩
  rw [Text.toList_dropBlanks, List.mem_filter, Bool.not_eq_true'] at hmem
  exact hmem.2

end Formula

namespace Report

open Formula

/-- The fault of a term on a table, if it has one. -/
def faultOn (keyColumn : String) (settings : Settings) (t : Table) (term : String) :
    Option TermFault :=
  fault? (((tableScope keyColumn settings).resolve term).run t).value.1

/-- What the fault of a term shows holds a line feed: the separator, which the term lacks; the name
of the key column, in which there is no row for the term; or the text in its cell. -/
inductive BreaksLine (keyColumn : String) (settings : Settings) (t : Table) (term : String) : Prop
  | separator : settings.separator = '\n' → BreaksLine keyColumn settings t term
  | keyColumn {column key place : String} :
      Text.splitOnce? settings.separator term = some (column, key) →
      ((Table.lookup column keyColumn key).run t).value.1 = .missing (.key key place) →
      '\n' ∈ keyColumn.toList → BreaksLine keyColumn settings t term
  | cell {column key text : String} :
      Text.splitOnce? settings.separator term = some (column, key) →
      ((Table.lookup column keyColumn key).run t).value.1 = .found (.text text) →
      '\n' ∈ text.toList → BreaksLine keyColumn settings t term

section

variable {keyColumn : String} {settings : Settings} {t : Table} {formula term : String} {e : Expr}
  {evaluation : Evaluation} {fault : TermFault}

theorem faultOn_eq (ht : t.Sound) (term : String) : faultOn keyColumn settings t term =
    fault? ((t.view.scope keyColumn settings).resolve term) :=
  congrArg fault? ((views_resolve term).value_run ht)

/-- The faults of an evaluation are those of the references, in their order. -/
theorem faults_of_answerOn (ht : t.Sound) (h : answerOn keyColumn settings t e = .ok evaluation) :
    evaluation.faults = e.references.filterMap (faultOn keyColumn settings t) ∧
      evaluation.Settled := by
  have hrun : ((e.evaluateAt (tableScope keyColumn settings) 1).run.run t) =
      ⟨(.ok evaluation, ((e.evaluate (tableScope keyColumn settings)).run t).value.2),
        ((e.evaluate (tableScope keyColumn settings)).run t).notices⟩ := by
    rw [← h]
    rfl
  obtain ⟨hfaults, hsettled⟩ := e.faults_of_evaluateAt hrun
  have hviews : Views ((tableScope keyColumn settings).faults e.references) fun v =>
      (e.references.map fun term => (v.scope keyColumn settings).resolve term).filterMap fault? :=
    (Views.mapM views_resolve e.references).map (List.filterMap fault?)
  have hvalue := hviews.value_run ht
  rw [hfaults, List.filterMap_map] at hvalue
  refine ⟨hvalue.trans (List.filterMap_congr fun term _ => ?_), hsettled⟩
  exact (faultOn_eq ht term).symm

/-! ### What a fault shows -/

/-- The answer to a look-up on a table. -/
theorem value_lookup (ht : t.Sound) (column keyColumn key : String) :
    ((Table.lookup column keyColumn key).run t).value.1 = t.searched column keyColumn key :=
  (Views.lookup column keyColumn key).value_run ht

/-- A look-up by a key column that is there finds no such column, no such key, or a cell. -/
theorem searched_cases (hkey : keyColumn ∈ t.columns) (column key : String) :
    t.searched column keyColumn key = .missing (.column column) ∨
      t.searched column keyColumn key = .missing (.key key keyColumn) ∨
      ∃ cell, t.searched column keyColumn key = .found cell := by
  unfold Table.searched
  cases hposition : t.columnIndex? keyColumn with
  | none => exact absurd hkey (Table.columnIndex?_eq_none.mp hposition)
  | some _ =>
    cases t.columnIndex? column with
    | none => exact .inl rfl
    | some position =>
      cases t.search? keyColumn key with
      | none => exact .inr (.inl rfl)
      | some row => exact .inr (.inr ⟨_, rfl⟩)

/-- The fault of a cell shows its text; any other cell that has a fault shows as empty. -/
theorem fault_of_cellValue {cell : Cell} (h : settings.cellValue term cell = .error fault) :
    (∃ text, cell = .text text ∧ fault = .nonNumeric term (.text text)) ∨
      (∀ text, cell ≠ .text text) ∧ fault = .nonNumeric term .empty := by
  unfold Settings.cellValue at h
  split at h
  · split at h
    · split at h
      · cases h
        exact .inr ⟨fun _ h => (by cases h), rfl⟩
      · cases h
    · cases h
  · split at h
    · cases h
      exact .inr ⟨fun _ h => (by cases h), rfl⟩
    · cases h
  · cases h
    exact .inl ⟨_, rfl, rfl⟩

theorem faultOn_of_malformed (hnumeral : Number.readNumeral? term = none)
    (hparts : Text.splitOnce? settings.separator term = none) :
    faultOn keyColumn settings t term = some (.malformed term settings.separator) := by
  have hresolve : (tableScope keyColumn settings).resolve term =
      pure (.error (.malformed term settings.separator)) :=
    Scope.resolve_malformed hnumeral hparts
  rw [faultOn, hresolve]
  rfl

theorem faultOn_of_reference (ht : t.Sound) {column key : String}
    (hnumeral : Number.readNumeral? term = none)
    (hparts : Text.splitOnce? settings.separator term = some (column, key)) :
    faultOn keyColumn settings t term =
      fault? (settings.lookupValue term (t.searched column keyColumn key)) := by
  have hresolve : (t.view.scope keyColumn settings).resolve term =
      settings.lookupValue term (t.searched column keyColumn key) :=
    Scope.resolve_reference hnumeral hparts
  rw [faultOn_eq ht, hresolve]

theorem breaksLine_of_malformed_iff (hparts : Text.splitOnce? settings.separator term = none) :
    BreaksLine keyColumn settings t term ↔ settings.separator = '\n' := by
  constructor
  · rintro (hseparator | ⟨hparts', -, -⟩ | ⟨hparts', -, -⟩)
    · exact hseparator
    · rw [hparts] at hparts'
      cases hparts'
    · rw [hparts] at hparts'
      cases hparts'
  · exact .separator

theorem breaksLine_of_reference_iff (ht : t.Sound) {column key : String}
    (hterm : '\n' ∉ term.toList)
    (hparts : Text.splitOnce? settings.separator term = some (column, key)) :
    BreaksLine keyColumn settings t term ↔
      ((∃ place, t.searched column keyColumn key = .missing (.key key place)) ∧
          '\n' ∈ keyColumn.toList) ∨
        ∃ text, t.searched column keyColumn key = .found (.text text) ∧ '\n' ∈ text.toList := by
  constructor
  · rintro (hseparator | ⟨hparts', hanswer, hfeed⟩ | ⟨hparts', hanswer, hfeed⟩)
    · rw [Text.toList_of_splitOnce? hparts, hseparator] at hterm
      exact absurd (List.mem_append_right _ List.mem_cons_self) hterm
    · rw [hparts] at hparts'
      cases hparts'
      rw [value_lookup ht] at hanswer
      exact .inl ⟨⟨_, hanswer⟩, hfeed⟩
    · rw [hparts] at hparts'
      cases hparts'
      rw [value_lookup ht] at hanswer
      exact .inr ⟨_, hanswer, hfeed⟩
  · rw [← value_lookup ht]
    rintro (⟨⟨place, hanswer⟩, hfeed⟩ | ⟨text, hanswer, hfeed⟩)
    · exact .keyColumn hparts hanswer hfeed
    · exact .cell hparts hanswer hfeed

/-- The fault of a reference without line feeds shows a line feed just when the reference breaks the
line. -/
theorem lineFeed_mem_quoted_iff (ht : t.Sound) (hkey : keyColumn ∈ t.columns)
    (hnumeral : Number.readNumeral? term = none) (hterm : '\n' ∉ term.toList)
    (h : faultOn keyColumn settings t term = some fault) :
    (∃ text ∈ fault.quoted, '\n' ∈ text.toList) ↔ BreaksLine keyColumn settings t term := by
  cases hparts : Text.splitOnce? settings.separator term with
  | none =>
    rw [faultOn_of_malformed hnumeral hparts] at h
    cases h
    rw [breaksLine_of_malformed_iff hparts]
    have hseparator : '\n' ∈ (toString settings.separator).toList ↔
        settings.separator = '\n' := by
      show '\n' ∈ (String.singleton settings.separator).toList ↔ _
      rw [String.toList_singleton, List.mem_singleton, eq_comm]
    simp [TermFault.quoted, hterm, hseparator]
  | some parts =>
    obtain ⟨column, key⟩ := parts
    have hchars := Text.toList_of_splitOnce? hparts
    have hcolumn : '\n' ∉ column.toList := fun hmem => hterm (by simp [hchars, hmem])
    have hcode : '\n' ∉ key.toList := fun hmem => hterm (by simp [hchars, hmem])
    rw [faultOn_of_reference ht hnumeral hparts] at h
    rw [breaksLine_of_reference_iff ht hterm hparts]
    rcases searched_cases hkey column key with hanswer | hanswer | ⟨cell, hanswer⟩
    · rw [hanswer] at h ⊢
      cases h
      simp [TermFault.quoted, Missing.quoted, hterm, hcolumn]
    · rw [hanswer] at h ⊢
      cases h
      simp [TermFault.quoted, Missing.quoted, hterm, hcode]
    · rw [hanswer] at h ⊢
      rcases fault_of_cellValue (fault?_eq_some.mp h) with ⟨text, rfl, rfl⟩ | ⟨hcell, rfl⟩
      · simp [TermFault.quoted, Cell.display, hterm]
      · simp [TermFault.quoted, Cell.display, hterm, hcell]

/-- The outcome of a formula that has been read, from what its evaluation comes to. -/
theorem outcome_of_answerOn (keyColumn : String) (t : Table)
    (hparse : parse settings formula = .ok e) :
    ((compute (tableScope keyColumn settings) formula).run t).value.1 =
      outcomeOf (answerOn keyColumn settings t e) := by
  have hattempt : attempt (tableScope keyColumn settings) formula =
      e.evaluate (tableScope keyColumn settings) :=
    attempt_of_parse hparse
  rw [run_compute, hattempt, answerOn]

end

/-- The message of a formula against a table lists the faults of its references in the order in
which they stand in the formula. They are the lines of the message just when none of the references
that have a fault shows a line feed by it. -/
theorem message_lines_iff (keyColumn : String) (settings : Settings) {t : Table} {formula : String}
    {e : Expr} {evaluation : Evaluation} (ht : t.Reachable) (hkey : keyColumn ∈ t.columns)
    (hparse : parse settings formula = .ok e)
    (hanswer : answerOn keyColumn settings t e = .ok evaluation)
    (hfaults : evaluation.faults ≠ []) :
    (∃ tokens, Munches settings 1 (Text.dropBlanks formula).toList tokens ∧
      evaluation.faults = ((tokens.map Placed.token).filterMap Token.reference?).filterMap
        (faultOn keyColumn settings t)) ∧
    ∃ message,
      ((compute (tableScope keyColumn settings) formula).run t).value.1 = .failure message ∧
      (Text.pieces '\n' message = evaluation.faults.map TermFault.message ↔
        ∀ term ∈ e.references, faultOn keyColumn settings t term ≠ none →
          ¬BreaksLine keyColumn settings t term) := by
  obtain ⟨hlisted, hsettled⟩ := faults_of_answerOn ht.sound hanswer
  refine ⟨?_, faultLines evaluation.faults, ?_, ?_⟩
  · obtain ⟨tokens, hmunches, hreferences⟩ := references_of_parse hparse
    exact ⟨tokens, hmunches, by rw [hlisted, hreferences]⟩
  · have hvalue : evaluation.value = none := by
      rw [← Option.not_isSome_iff_eq_none]
      exact fun hsome => hfaults (hsettled.mp hsome)
    rw [outcome_of_answerOn keyColumn t hparse, hanswer]
    exact Evaluation.outcome_of_none hvalue
  · have hshown (term : String) (hterm : term ∈ e.references) (fault : TermFault)
        (hfault : faultOn keyColumn settings t term = some fault) :
        (∃ text ∈ fault.quoted, '\n' ∈ text.toList) ↔ BreaksLine keyColumn settings t term := by
      obtain ⟨hnumeral, hblank⟩ := plain_of_mem_references hparse hterm
      have hplain : '\n' ∉ term.toList := fun hmem => by cases hblank _ hmem
      exact lineFeed_mem_quoted_iff ht.sound hkey hnumeral hplain hfault
    rw [pieces_faultLines_iff hfaults, hlisted]
    constructor
    · intro h term hterm hfault hbreaks
      obtain ⟨fault, hfault⟩ := Option.ne_none_iff_exists'.mp hfault
      obtain ⟨text, htext, hfeed⟩ := (hshown term hterm fault hfault).mpr hbreaks
      exact h fault (List.mem_filterMap.mpr ⟨term, hterm, hfault⟩) text htext hfeed
    · intro h fault hfault text htext hfeed
      obtain ⟨term, hterm, hfault⟩ := List.mem_filterMap.mp hfault
      refine h term hterm (Option.ne_none_iff_exists'.mpr ⟨fault, hfault⟩) ?_
      exact (hshown term hterm fault hfault).mp ⟨text, htext, hfeed⟩

/-- An amount whose cell holds a text of two lines. -/
def twoLineAmount : FileContent := .ok (Text.toBytes "k,v\na,\"x\ny\"\n")

/-- The columns and the row of the amount. -/
def twoLineTable : Table := ⟨["k", "v"], #[[.text "a", .text "x\ny"]], []⟩

theorem load_twoLineAmount : ∃ t, (Delimited.load {} twoLineAmount).run.value = .ok t ∧
    twoLineTable.SameData t := by
  have hload : (Delimited.load {} twoLineAmount).run.value.toOption.map (fun t =>
      (t.columns, t.rows)) = some (twoLineTable.columns, twoLineTable.rows) := by
    decide +kernel
  obtain ⟨t, ht, hdata⟩ := Option.map_eq_some_iff.mp hload
  exact ⟨t, toOption_eq_some.mp ht, congrArg Prod.fst hdata, congrArg Prod.snd hdata⟩

theorem answerOn_twoLineTable {t : Table} (ht : t.Sound) (hsame : twoLineTable.SameData t) :
    answerOn "k" {} t (.reference "v@a") = .ok ⟨none, [.nonNumeric "v@a" (.text "x\ny")]⟩ ∧
      answerOn "k" {} t (.reference "v@b") = .ok ⟨none, [.unresolved "v@b" (.key "b" "k")]⟩ := by
  rw [answerOn_eq ht, hsame.view_eq]
  exact ⟨rfl, rfl⟩

/-- The fault of a cell of two lines is no line, and that of a row that is not there is one. -/
theorem message_lines_sample : ∃ t, (Delimited.load {} twoLineAmount).run.value = .ok t ∧
    (∃ message, ((compute (tableScope "k" {}) "v@a").run t).value.1 = .failure message ∧
      Text.pieces '\n' message ≠ [(TermFault.nonNumeric "v@a" (.text "x\ny")).message]) ∧
    ∃ message, ((compute (tableScope "k" {}) "v@b").run t).value.1 = .failure message ∧
      Text.pieces '\n' message = [(TermFault.unresolved "v@b" (.key "b" "k")).message] := by
  obtain ⟨t, hload, hsame⟩ := load_twoLineAmount
  have ht := Delimited.reachable_of_load hload
  obtain ⟨ha, hb⟩ := answerOn_twoLineTable ht.sound hsame
  have hkey : "k" ∈ t.columns := by
    rw [hsame.columns]
    exact List.mem_cons_self
  have hlookup (key : String) : ((Table.lookup "v" "k" key).run t).value.1 =
      twoLineTable.searched "v" "k" key := by
    rw [value_lookup ht.sound, hsame.searched_eq]
  refine ⟨t, hload, ?_, ?_⟩
  · obtain ⟨-, message, hmessage, hiff⟩ := message_lines_iff "k" {} ht hkey
      (by decide +kernel : parse {} "v@a" = .ok (.reference "v@a")) ha (List.cons_ne_nil _ _)
    refine ⟨message, hmessage, fun hlines => ?_⟩
    have hparts : Text.splitOnce? ({} : Settings).separator "v@a" = some ("v", "a") := by
      decide +kernel
    have hfault : faultOn "k" {} t "v@a" ≠ none := by
      rw [faultOn_of_reference ht.sound (by decide +kernel) hparts, hsame.searched_eq]
      exact Option.some_ne_none _
    exact hiff.mp hlines "v@a" List.mem_cons_self hfault
      (.cell hparts (hlookup "a") (by decide : '\n' ∈ "x\ny".toList))
  · obtain ⟨-, message, hmessage, hiff⟩ := message_lines_iff "k" {} ht hkey
      (by decide +kernel : parse {} "v@b" = .ok (.reference "v@b")) hb (List.cons_ne_nil _ _)
    refine ⟨message, hmessage, hiff.mpr fun term hterm _ hbreaks => ?_⟩
    obtain rfl := List.mem_singleton.mp hterm
    have hparts : Text.splitOnce? ({} : Settings).separator "v@b" = some ("v", "b") := by
      decide +kernel
    rw [breaksLine_of_reference_iff ht.sound (by decide) hparts, hsame.searched_eq] at hbreaks
    rcases hbreaks with ⟨-, hfeed⟩ | ⟨_, hanswer, -⟩
    · exact absurd hfeed (by decide)
    · cases hanswer

/-- A message does not always have one line for each fault, not even on a table that was loaded. -/
theorem not_message_one_line_per_fault : ¬∀ (options : Delimited.Options) (content : FileContent)
    (t : Table) (keyColumn : String) (settings : Settings) (formula : String) (e : Expr)
    (evaluation : Evaluation) (message : String),
    (Delimited.load options content).run.value = .ok t → keyColumn ∈ t.columns →
    parse settings formula = .ok e → answerOn keyColumn settings t e = .ok evaluation →
    evaluation.faults ≠ [] →
    ((compute (tableScope keyColumn settings) formula).run t).value.1 = .failure message →
    Text.pieces '\n' message = evaluation.faults.map TermFault.message := by
  intro h
  obtain ⟨t, hload, hsame⟩ := load_twoLineAmount
  have ha := (answerOn_twoLineTable (Delimited.reachable_of_load hload).sound hsame).1
  have hkey : "k" ∈ t.columns := by
    rw [hsame.columns]
    exact List.mem_cons_self
  have hparse : parse {} "v@a" = .ok (.reference "v@a") := by decide +kernel
  have houtcome := outcome_of_answerOn "k" t hparse
  rw [ha] at houtcome
  have hlines := h {} twoLineAmount t "k" {} "v@a" _ _ _ hload hkey hparse ha
    (List.cons_ne_nil _ _) houtcome
  exact absurd hlines (by decide +kernel)

end Report

end LedgerFields
