import LedgerFields.Proofs.Formula.Reference
import LedgerFields.Proofs.Report.View
import LedgerFields.Proofs.Table.Reachable

/-! Fields that are computed from cells directly, against the formulas that say the same. Both come
down to what is looked up: the number in a cell, if it holds one, and the rounded difference of two
such numbers. -/

namespace LedgerFields

/-- The number in a cell that was found and holds one. -/
def Lookup.number? : Lookup → Option Float
  | .found cell => cell.number?
  | .missing _ => none

/-- The difference of two numbers, rounded to hundredths, if both are there. -/
def differenceOf : Option Float → Option Float → Option Float :=
  Option.map₂ fun x y => Number.roundHundredths (x - y)

namespace Table

variable {t : Table} {column keyColumn key : String}

/-- Every number in a cell is one. -/
def NanFree (t : Table) : Prop :=
  ∀ row ∈ t.rows.toList, ∀ x, Cell.number x ∈ row → x.isNaN = false

theorem NanFree.of_searched (h : t.NanFree) (ht : t.Sound) {x : Float}
    (hfound : t.searched column keyColumn key = .found (.number x)) : x.isNaN = false := by
  have hfinds := finds_searched ht column keyColumn key
  rw [hfound] at hfinds
  cases hfinds with
  | found _ hrow _ hcell =>
    exact h _ (List.mem_of_getElem? hrow) x (List.mem_of_getElem? hcell)

theorem number?_searched_of_missing
    (h : t.hasColumn keyColumn = false ∨ t.hasColumn column = false) :
    (t.searched column keyColumn key).number? = none := by
  unfold hasColumn at h
  simp only [Option.isSome_eq_false_iff, Option.isNone_iff_eq_none] at h
  unfold searched
  rcases h with h | h
  · rw [h]
    rfl
  · rw [h]
    cases t.columnIndex? keyColumn <;> rfl

end Table

namespace Formula

theorem toOption_lookupValue {settings : Settings} (hstrict : settings.strict = true)
    {answer : Lookup} (hnan : ∀ x, answer = .found (.number x) → x.isNaN = false) (term : String) :
    (settings.lookupValue term answer).toOption = answer.number? := by
  cases answer with
  | missing what => rfl
  | found cell =>
    cases cell with
    | text s => rfl
    | empty =>
      show (Settings.cellValue settings term .empty).toOption = none
      unfold Settings.cellValue
      rw [if_pos hstrict]
      rfl
    | number x =>
      show (Settings.cellValue settings term (.number x)).toOption = some x
      rw [settings.cellValue_number term (hnan x rfl)]
      rfl

namespace Evaluation

/-- A subtraction never fails. -/
theorem exists_subtraction (left right : Evaluation) :
    ∃ evaluation, binary .subtract left right = .ok evaluation ∧
      evaluation.value = differenceOf left.value right.value := by
  unfold binary
  cases left.value <;> cases right.value <;> exact ⟨_, rfl, rfl⟩

end Evaluation

variable {scope : Scope Id} {term first second : String}

theorem run_reference {depth : Nat} (h : depth ≤ scope.settings.maxDepth) (term : String) :
    ((Expr.reference term).evaluateAt scope depth).run =
      .ok (Evaluation.ofTerm (scope.resolve term)) := by
  rw [Expr.evaluateAt_reference, checkDepth, if_neg (Nat.not_lt.mpr h)]
  rfl

/-- A formula that is read as a reference has the value of its term. -/
theorem value?_compute_reference (scope : Scope Id) (hdepth : 1 ≤ scope.settings.maxDepth)
    (hparse : parse scope.settings term = .ok (.reference term)) :
    (compute scope term).value? = (scope.resolve term : Except TermFault Float).toOption := by
  have hrun : (Expr.reference term).evaluate scope = _ := run_reference hdepth term
  rw [compute_eq, attempt_of_parse hparse, hrun]
  exact (Evaluation.settled_ofTerm _).value?_outcome.trans (Evaluation.value_ofTerm _)

theorem value?_compute_subtraction (scope : Scope Id) {formula : String}
    (hdepth : 2 ≤ scope.settings.maxDepth)
    (hparse : parse scope.settings formula =
      .ok (.binary .subtract (.reference first) (.reference second))) :
    (compute scope formula).value? =
      differenceOf (scope.resolve first : Except TermFault Float).toOption
        (scope.resolve second : Except TermFault Float).toOption := by
  obtain ⟨evaluation, hbinary, hvalue⟩ := Evaluation.exists_subtraction
    (Evaluation.ofTerm (scope.resolve first)) (Evaluation.ofTerm (scope.resolve second))
  have hrun : (Expr.binary .subtract (.reference first) (.reference second)).evaluate scope =
      .ok evaluation := by
    unfold Expr.evaluate
    rw [Expr.evaluateAt_binary, ExceptT.run_bind, run_reference (Nat.le_of_succ_le hdepth)]
    show (ExceptT.run (_ >>= _)) = _
    rw [ExceptT.run_bind, run_reference hdepth]
    exact hbinary
  rw [compute_eq, attempt_of_parse hparse, hrun]
  have hsettled := Evaluation.settled_of_binary (Evaluation.settled_ofTerm _)
    (Evaluation.settled_ofTerm _) hbinary
  rw [Evaluation.value_ofTerm, Evaluation.value_ofTerm] at hvalue
  exact hsettled.value?_outcome.trans hvalue

end Formula

namespace Report

open Formula

variable {t : Table} {settings : Settings} {keyColumn column code : String}

theorem value?_cellOutcome (keyColumn code column : String) (answer : Lookup) :
    (cellOutcome keyColumn code column answer).value? = answer.number? := by
  cases answer with
  | missing what => rfl
  | found cell => cases cell <;> rfl

theorem value?_differenceOfFound (keyColumn : String) (first second : Term) (x y : Lookup) :
    (differenceOfFound keyColumn first second x y).value? = differenceOf x.number? y.number? := by
  rcases x with (_ | x | _) | _ <;> rcases y with (_ | y | _) | _ <;> rfl

theorem value?_singleCell (ht : t.Sound)
    (hblank : [keyColumn, code, column].any Text.isBlankText = false) :
    ((singleCell keyColumn code column).run t).value.1.value? =
      (t.searched (Text.trim column) (Text.trim keyColumn) (Text.trim code)).number? := by
  rw [(views_singleCell keyColumn code column).value_run ht]
  unfold View.singleCell
  rw [if_neg (ne_true_of_eq_false hblank)]
  split
  · next hmissing =>
    rw [Bool.or_eq_true, Bool.not_eq_true', Bool.not_eq_true'] at hmissing
    exact (Table.number?_searched_of_missing hmissing).symm
  · exact value?_cellOutcome _ _ _ _

theorem listed_pair {separator : Char} {first second : String}
    (hfirst : separator ∉ first.toList) (hsecond : separator ∉ second.toList) :
    listed separator (first ++ separator.toString ++ second) =
      [Text.trim first, Text.trim second] := by
  have hpieces : ∀ cs ∈ [first.toList, second.toList], separator ∉ cs := by simp [hfirst, hsecond]
  have htext : (first ++ separator.toString ++ second).toList =
      [separator].intercalate [first.toList, second.toList] := by
    simp [List.intercalate]
  unfold listed Text.pieces
  rw [htext, List.splitOn_intercalate separator hpieces (List.cons_ne_nil _ _)]
  simp

theorem value?_difference (ht : t.Sound) {separator : Char} {codes columns : String}
    {first second : Term} (hblank : [keyColumn, codes, columns].any Text.isBlankText = false)
    (hcodes : listed separator codes = [first.code, second.code])
    (hcolumns : listed separator columns = [first.column, second.column]) :
    ((difference keyColumn codes columns separator).run t).value.1.value? =
      differenceOf (t.searched first.column (Text.trim keyColumn) first.code).number?
        (t.searched second.column (Text.trim keyColumn) second.code).number? := by
  rw [(views_difference keyColumn codes columns separator).value_run ht]
  unfold View.difference
  simp only [hcodes, hcolumns, List.length_cons, List.length_nil, List.headD_cons,
    List.getD_cons_succ, List.getD_cons_zero]
  rw [if_neg (ne_true_of_eq_false hblank), if_neg (by decide), if_neg (by decide)]
  split
  · -- The failure names all three columns; where any is lacking, one of the searches finds nothing.
    next hmissing =>
    simp only [List.any_cons, List.any_nil, Bool.or_false, Bool.or_eq_true,
      Bool.not_eq_true'] at hmissing
    have hnone : (t.searched first.column (Text.trim keyColumn) first.code).number? = none ∨
        (t.searched second.column (Text.trim keyColumn) second.code).number? = none := by
      rcases hmissing with hkey | hfirst | hsecond
      · exact .inl (Table.number?_searched_of_missing (.inl hkey))
      · exact .inl (Table.number?_searched_of_missing (.inr hfirst))
      · exact .inr (Table.number?_searched_of_missing (.inr hsecond))
    unfold differenceOf
    rcases hnone with hnone | hnone
    · rw [hnone, Option.map₂_none_left]
      rfl
    · rw [hnone, Option.map₂_none_right]
      rfl
  · exact value?_differenceOfFound _ _ _ _ _

/-- A reference stands for the number that a search finds. -/
theorem toOption_resolve_reference (ht : t.Sound) (hnan : t.NanFree)
    (hstrict : settings.strict = true) (hseparator : settings.PlainSeparator)
    (hcolumn : settings.separator ∉ column.toList) (code : String) :
    ((t.view.scope keyColumn settings).resolve (settings.reference column code) :
      Except TermFault Float).toOption = (t.searched column keyColumn code).number? := by
  have hresolve : (t.view.scope keyColumn settings).resolve (settings.reference column code) =
      settings.lookupValue (settings.reference column code) (t.searched column keyColumn code) :=
    Scope.resolve_reference (readNumeral?_reference hseparator column code)
      (splitOnce?_reference hcolumn code)
  rw [hresolve]
  exact toOption_lookupValue hstrict (fun x hx => hnan.of_searched ht hx) _

/-- On a table without numbers that are none, one cell has the value of the formula that refers to
it, and a difference that of the formula that subtracts the references to its cells. Where the one
has no value, so has the other. -/
theorem direct_agrees_with_formula (ht : t.Reachable) (hnan : t.NanFree)
    (hstrict : settings.strict = true) (hdepth : 2 ≤ settings.maxDepth)
    (hseparator : settings.PlainSeparator) (hblank : Text.isBlankText keyColumn = false)
    (htrim : Text.trim keyColumn = keyColumn) :
    (∀ column code, settings.IsName column → settings.IsWord code →
      ((singleCell keyColumn code column).run t).value.1.value? =
        ((compute (tableScope keyColumn settings) (settings.reference column code)).run
          t).value.1.value?) ∧
    ∀ (listSeparator : Char) (first second : Term),
      settings.IsName first.column → settings.IsName second.column →
      settings.IsWord first.code → settings.IsWord second.code →
      (∀ text ∈ [first.column, second.column, first.code, second.code],
        listSeparator ∉ text.toList) →
      ((difference keyColumn (first.code ++ listSeparator.toString ++ second.code)
          (first.column ++ listSeparator.toString ++ second.column) listSeparator).run
        t).value.1.value? =
        ((compute (tableScope keyColumn settings)
          (settings.reference first.column first.code ++ "-" ++
            settings.reference second.column second.code)).run t).value.1.value? := by
  constructor
  · intro column code hcolumn hcode
    have hsettings : [keyColumn, code, column].any Text.isBlankText = false := by
      simp [hblank, hcode.not_isBlankText, hcolumn.not_isBlankText]
    have hparse : parse settings (settings.reference column code) =
        .ok (.reference (settings.reference column code)) :=
      parse_term (legible_reference hseparator hcolumn hcode)
        (readNumeral?_reference hseparator column code)
    rw [value?_singleCell ht.sound hsettings, htrim, hcolumn.trim, hcode.trim,
      (views_compute _).value_run ht.sound,
      value?_compute_reference (t.view.scope keyColumn settings) (Nat.le_of_succ_le hdepth) hparse,
      toOption_resolve_reference ht.sound hnan hstrict hseparator hcolumn.noSeparator]
  · intro listSeparator first second hcolumn hcolumn' hcode hcode' hunlisted
    simp only [List.forall_mem_cons, List.not_mem_nil, false_imp_iff, implies_true,
      and_true] at hunlisted
    obtain ⟨hin, hin', hinCode, hinCode'⟩ := hunlisted
    have hsettings : [keyColumn, first.code ++ listSeparator.toString ++ second.code,
        first.column ++ listSeparator.toString ++ second.column].any Text.isBlankText = false := by
      simp only [List.any_cons, List.any_nil, Text.isBlankText_append, hblank,
        hcode.not_isBlankText, hcolumn.not_isBlankText, Bool.false_and, Bool.or_false]
    have hcodes := listed_pair hinCode hinCode'
    have hcolumns := listed_pair hin hin'
    rw [hcode.trim, hcode'.trim] at hcodes
    rw [hcolumn.trim, hcolumn'.trim] at hcolumns
    have hparse : parse settings (settings.reference first.column first.code ++ "-" ++
        settings.reference second.column second.code) =
          .ok (.binary .subtract (.reference (settings.reference first.column first.code))
            (.reference (settings.reference second.column second.code))) :=
      parse_subtraction (legible_reference hseparator hcolumn hcode)
        (legible_reference hseparator hcolumn' hcode')
        (readNumeral?_reference hseparator _ _) (readNumeral?_reference hseparator _ _) hdepth
    rw [value?_difference ht.sound hsettings hcodes hcolumns, htrim,
      (views_compute _).value_run ht.sound,
      value?_compute_subtraction (t.view.scope keyColumn settings) hdepth hparse,
      toOption_resolve_reference ht.sound hnan hstrict hseparator hcolumn.noSeparator,
      toOption_resolve_reference ht.sound hnan hstrict hseparator hcolumn'.noSeparator]

theorem direct_agrees_with_formula_sample :
    let made : Table := ⟨["k", "v"].map Text.trim, #[], ["k", "v"].map fun _ => none⟩
    let t : Table := made.after [.push [.text "a", .number 2.5], .push [.number 7, .number 1]]
    let value (x : TableM Outcome) : Option Float := (x.run t).value.1.value?
    let formula (text : String) : TableM Outcome := compute (tableScope "k" {}) text
    value (singleCell "k" "7" "v") = value (formula "v@7") ∧ value (formula "v@7") = some 1 ∧
      value (difference "k" "a,7" "v,v" ',') = value (formula "v@a-v@7") ∧
      value (formula "v@a-v@7") = some 1.5 := by
  intro made t value formula
  have hmade : Table.ofColumns ["k", "v"] = .ok made :=
    Table.ofColumns_eq_ok.mpr ⟨by simp, by decide +kernel, rfl⟩
  have hrows : t.rows.toList = [[.text "a", .number 2.5], [.number 7, .number 1]] := by
    decide +kernel
  have hnan : t.NanFree := by
    intro row hrow x hx
    rw [hrows] at hrow
    simp only [List.mem_cons, List.not_mem_nil, or_false] at hrow
    rcases hrow with rfl | rfl
    · obtain rfl : x = 2.5 := by simpa using hx
      decide +kernel
    · obtain rfl | rfl : x = 7 ∨ x = 1 := by simpa using hx
      · decide +kernel
      · decide +kernel
  have hword (text : String) (hne : text ≠ "")
      (hchars : (text.toList.all fun c => !Text.isBlank c && Settings.isTermChar {} c) = true) :
      Settings.IsWord {} text := by
    simp only [List.all_eq_true, Bool.and_eq_true, Bool.not_eq_true'] at hchars
    exact ⟨hne, fun c hc => (hchars c hc).1, fun c hc => (hchars c hc).2⟩
  have ha : Settings.IsWord {} "a" := hword "a" (by decide) (by decide)
  have hseven : Settings.IsWord {} "7" := hword "7" (by decide) (by decide)
  have hv : Settings.IsName {} "v" := by
    refine ⟨hword "v" (by decide) (by decide), fun c hc => ?_, by decide⟩
    obtain rfl : 'v' = c := by simpa using hc
    rfl
  obtain ⟨hcell, hdifference⟩ := direct_agrees_with_formula ⟨_, made, _, hmade, rfl⟩ hnan
    (rfl : ({} : Settings).strict = true) (by decide)
    ⟨by decide +kernel, by decide +kernel, by decide +kernel, by decide +kernel⟩
    (by decide +kernel : Text.isBlankText "k" = false) (by decide +kernel)
  exact ⟨hcell "v" "7" hv hseven, by decide +kernel,
    hdifference ',' ⟨"a", "v"⟩ ⟨"7", "v"⟩ hv hv ha hseven (by decide +kernel), by decide +kernel⟩

end Report

end LedgerFields
