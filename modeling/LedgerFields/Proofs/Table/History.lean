import LedgerFields.Proofs.Table.Sound
import Mathlib.Order.Bounds.Basic

/-! Histories of calls on a table. Whatever rows are added and whatever is looked up between, in any
order, each answer is the one that a search through the rows of that moment gives. -/

namespace LedgerFields

/-- A call on a table. -/
inductive Call where
  | push (row : List Cell)
  | rowOf (keyColumn key : String)
  | lookup (column keyColumn key : String)
  | lookupAll (column keyColumn : String) (keys : List String)

/-- What a call answers. -/
inductive Answer where
  | pushed (fault : Option TableFault)
  | row (row : Option Nat)
  | found (result : Lookup)
  | foundAll (results : List Lookup)

/-- The answer to adding a row, and the table after it: a row that is refused leaves it as it is. -/
def Table.pushed (t : Table) (row : List Cell) : Answer × Table :=
  match t.push row with
  | .ok t' => (.pushed none, t')
  | .error fault => (.pushed (some fault), t)

namespace Call

/-- Carries a call out. -/
def perform : Call → TableM Answer
  | push row => modifyGet fun t => t.pushed row
  | rowOf keyColumn key => return .row (← Table.rowOf keyColumn key)
  | lookup column keyColumn key => return .found (← Table.lookup column keyColumn key)
  | lookupAll column keyColumn keys => return .foundAll (← Table.lookupAll column keyColumn keys)

/-- The rows after a call on a table with `width` columns. -/
def rowsAfter (width : Nat) (rows : List (List Cell)) : Call → List (List Cell)
  | push row =>
    if row.length ≤ width then
      rows ++ [row ++ List.replicate (width - row.length) .empty]
    else
      rows
  | _ => rows

end Call

/-- The row with this number bears this key in the key column. The empty text is no key. -/
def BearsKey (columns : List String) (rows : List (List Cell)) (keyColumn key : String) (n : Nat) :
    Prop :=
  ∃ (position : Nat) (row : List Cell) (cell : Cell), columns[position]? = some keyColumn ∧
    rows[n]? = some row ∧ row[position]? = some cell ∧ key ≠ "" ∧ cell.keyText = key

/-- The row with this number has this key in the key column. -/
def HasKey (columns : List String) (rows : List (List Cell)) (keyColumn key : String) (n : Nat) :
    Prop :=
  ∃ (position : Nat) (row : List Cell) (cell : Cell), columns[position]? = some keyColumn ∧
    rows[n]? = some row ∧ row[position]? = some cell ∧ cell.keyText ≠ "" ∧
    cell.keyText = Text.trim key

/-- The first row with this key, or that there is none. -/
def IsFirstRow (columns : List String) (rows : List (List Cell)) (keyColumn key : String) :
    Option Nat → Prop
  | some n => IsLeast {n | HasKey columns rows keyColumn key n} n
  | none => ∀ n, ¬HasKey columns rows keyColumn key n

/-- What a look-up has to find. Of what is missing the key column comes first, then the column. -/
inductive Finds (columns : List String) (rows : List (List Cell)) (column keyColumn key : String) :
    Lookup → Prop where
  | keyColumn : keyColumn ∉ columns →
      Finds columns rows column keyColumn key (.missing (.keyColumn keyColumn))
  | column : keyColumn ∈ columns → column ∉ columns →
      Finds columns rows column keyColumn key (.missing (.column column))
  | key : keyColumn ∈ columns → column ∈ columns →
      IsFirstRow columns rows keyColumn key none →
      Finds columns rows column keyColumn key (.missing (.key key keyColumn))
  | found {n position : Nat} {row : List Cell} {cell : Cell} :
      IsFirstRow columns rows keyColumn key (some n) → rows[n]? = some row →
      columns[position]? = some column → row[position]? = some cell →
      Finds columns rows column keyColumn key (.found cell)

/-- What a call has to answer when these rows are there. -/
inductive Call.Answered (columns : List String) (rows : List (List Cell)) : Call → Answer → Prop
  where
  | pushed {row : List Cell} : row.length ≤ columns.length →
      Answered columns rows (push row) (.pushed none)
  | refused {row : List Cell} : columns.length < row.length →
      Answered columns rows (push row)
        (.pushed (some (.rowTooWide rows.length columns.length row.length)))
  | rowOf {keyColumn key : String} {result : Option Nat} :
      IsFirstRow columns rows keyColumn key result →
      Answered columns rows (rowOf keyColumn key) (.row result)
  | lookup {column keyColumn key : String} {result : Lookup} :
      Finds columns rows column keyColumn key result →
      Answered columns rows (lookup column keyColumn key) (.found result)
  | lookupAll {column keyColumn : String} {keys : List String} {results : List Lookup} :
      List.Forall₂ (Finds columns rows column keyColumn) keys results →
      Answered columns rows (lookupAll column keyColumn keys) (.foundAll results)

/-- The calls get these answers, each of them by the rows that the calls before it have left. -/
inductive History (columns : List String) :
    List (List Cell) → List Call → List Answer → Prop where
  | nil {rows : List (List Cell)} : History columns rows [] []
  | cons {rows : List (List Cell)} {call : Call} {calls : List Call} {answer : Answer}
      {answers : List Answer} :
      call.Answered columns rows answer →
      History columns (call.rowsAfter columns.length rows) calls answers →
      History columns rows (call :: calls) (answer :: answers)

namespace Table

variable {t : Table}

/-- The key of a row in a column is among the keys of that column. -/
theorem keys_getElem? (ht : t.Sound) {position n : Nat} (hposition : position < t.columns.length)
    {k : String} : (t.keys position)[n]? = some k ↔
      ∃ row cell, t.rows.toList[n]? = some row ∧ row[position]? = some cell ∧ cell.keyText = k := by
  unfold keys
  rw [List.getElem?_map, Option.map_eq_some_iff]
  constructor
  · rintro ⟨row, hrow, rfl⟩
    have hwidth := ht.width row (List.mem_of_getElem? hrow)
    have hcell : row[position]? = some (row.getD position .empty) := by
      rw [List.getD_eq_getElem?_getD, List.getElem?_eq_getElem (by omega), Option.getD_some]
    exact ⟨row, _, hrow, hcell, rfl⟩
  · rintro ⟨row, cell, hrow, hcell, rfl⟩
    refine ⟨row, hrow, ?_⟩
    rw [List.getD_eq_getElem?_getD, hcell, Option.getD_some]

theorem bearsKey_iff (ht : t.Sound) {keyColumn key : String} {position n : Nat}
    (hposition : t.columns[position]? = some keyColumn) :
    BearsKey t.columns t.rows.toList keyColumn key n ↔
      key ≠ "" ∧ (t.keys position)[n]? = some key := by
  have hlength := (List.getElem?_eq_some_iff.mp hposition).1
  rw [keys_getElem? ht hlength]
  constructor
  · rintro ⟨position', row, cell, hposition', hrow, hcell, hne, hkey⟩
    obtain rfl : position = position' :=
      (List.getElem?_inj hlength ht.distinct).mp (hposition.trans hposition'.symm)
    exact ⟨hne, row, cell, hrow, hcell, hkey⟩
  · rintro ⟨hne, row, cell, hrow, hcell, hkey⟩
    exact ⟨position, row, cell, hposition, hrow, hcell, hne, hkey⟩

theorem hasKey_iff (ht : t.Sound) {keyColumn key : String} {position n : Nat}
    (hposition : t.columns[position]? = some keyColumn) :
    HasKey t.columns t.rows.toList keyColumn key n ↔
      Text.trim key ≠ "" ∧ (t.keys position)[n]? = some (Text.trim key) := by
  rw [← bearsKey_iff ht hposition]
  refine exists_congr fun _ => exists_congr fun _ => exists_congr fun cell => ?_
  refine and_congr_right fun _ => and_congr_right fun _ => and_congr_right fun _ => ?_
  exact and_congr_left fun hkey => by rw [hkey]

theorem isFirstRow_search? (ht : t.Sound) (keyColumn key : String) :
    IsFirstRow t.columns t.rows.toList keyColumn key (t.search? keyColumn key) := by
  unfold search?
  cases hcolumn : t.columnIndex? keyColumn with
  | none =>
    rintro n ⟨position, _, _, hposition, -⟩
    exact columnIndex?_eq_none.mp hcolumn (List.mem_of_getElem? hposition)
  | some position =>
    have hposition := ht.columnIndex?_eq_some.mp hcolumn
    rw [Option.bind_some]
    cases hfirst : firstRow? (t.keys position) (Text.trim key) with
    | none =>
      intro n hn
      exact firstRow?_eq_none.mp hfirst n ((hasKey_iff ht hposition).mp hn)
    | some n =>
      have hleast := firstRow?_eq_some.mp hfirst
      have hset : {n | HasKey t.columns t.rows.toList keyColumn key n} =
          {n | Text.trim key ≠ "" ∧ (t.keys position)[n]? = some (Text.trim key)} :=
        Set.ext fun n => hasKey_iff ht hposition
      show IsLeast _ n
      rwa [hset]

/-- The row that a table finds for a key. -/
def rowFound? (t : Table) (keyColumn key : String) : Option Nat :=
  ((rowOf keyColumn key).run t).value.1

theorem isFirstRow_rowFound? (ht : t.Sound) (keyColumn key : String) :
    IsFirstRow t.columns t.rows.toList keyColumn key (t.rowFound? keyColumn key) := by
  obtain ⟨t', notices, hrun, -⟩ := ht.rowOf keyColumn key
  unfold rowFound?
  rw [hrun]
  exact isFirstRow_search? ht keyColumn key

/-- What a search finds is what a look-up has to find. -/
theorem finds_searched (ht : t.Sound) (column keyColumn key : String) :
    Finds t.columns t.rows.toList column keyColumn key (t.searched column keyColumn key) := by
  have hfirst := isFirstRow_search? ht keyColumn key
  unfold searched
  cases hkeyColumn : t.columnIndex? keyColumn with
  | none => exact .keyColumn (columnIndex?_eq_none.mp hkeyColumn)
  | some keyPosition =>
    have hkeyMem : keyColumn ∈ t.columns :=
      List.mem_of_getElem? (ht.columnIndex?_eq_some.mp hkeyColumn)
    cases hcolumn : t.columnIndex? column with
    | none => exact .column hkeyMem (columnIndex?_eq_none.mp hcolumn)
    | some position =>
      have hposition := ht.columnIndex?_eq_some.mp hcolumn
      simp only
      cases hsearch : t.search? keyColumn key with
      | none =>
        rw [hsearch] at hfirst
        exact .key hkeyMem (List.mem_of_getElem? hposition) hfirst
      | some n =>
        rw [hsearch] at hfirst
        have hleast : IsLeast {n | HasKey t.columns t.rows.toList keyColumn key n} n := hfirst
        obtain ⟨_, row, _, _, hrow, -⟩ := hleast.1
        have hwidth := ht.width row (List.mem_of_getElem? hrow)
        have hlength := (List.getElem?_eq_some_iff.mp hposition).1
        have hcell : row[position]? = some ((t.cell? n position).getD .empty) := by
          have hrow' : t.rows[n]? = some row := by rwa [← Array.getElem?_toList]
          rw [cell?, hrow', Option.bind_eq_bind, Option.bind_some,
            List.getElem?_eq_getElem (by omega), Option.getD_some]
        exact .found hfirst hrow hposition hcell

theorem pushed_eq {row : List Cell} (h : row.length ≤ t.columns.length) :
    ∃ t', t.push row = .ok t' ∧ t.pushed row = (.pushed none, t') := by
  have hpush := push_eq_ok.mpr ⟨h, rfl⟩
  unfold pushed
  rw [hpush]
  exact ⟨_, rfl, rfl⟩

theorem pushed_of_lt {row : List Cell} (h : t.columns.length < row.length) :
    t.pushed row =
      (.pushed (some (.rowTooWide t.rows.toList.length t.columns.length row.length)), t) := by
  have hpush : t.push row = .error (.rowTooWide t.rows.size t.columns.length row.length) :=
    if_pos h
  unfold pushed
  rw [hpush]
  rfl

theorem run_push (t : Table) (row : List Cell) :
    (Call.push row).perform.run t = ⟨t.pushed row, []⟩ := rfl

/-- A call on a sound table answers by the rows that are there, and leaves a sound table. -/
theorem perform_answered (ht : t.Sound) (call : Call) :
    ∃ answer t' notices, call.perform.run t = ⟨(answer, t'), notices⟩ ∧ t'.Sound ∧
      t'.columns = t.columns ∧ t'.rows.toList = call.rowsAfter t.columns.length t.rows.toList ∧
      call.Answered t.columns t.rows.toList answer := by
  have hlookup {α : Type} {x : TableM α} {a : α} (answer : α → Answer) (h : t.Yields x a) :
      ∃ t' notices, (x >>= fun a => pure (answer a)).run t = ⟨(answer a, t'), notices⟩ ∧
        t'.Sound ∧ t'.columns = t.columns ∧ t'.rows.toList = t.rows.toList := by
    obtain ⟨t', notices, hrun, hsame, hsound⟩ := h
    refine ⟨t', notices, ?_, hsound, hsame.columns, by rw [hsame.rows]⟩
    exact run_bind_eq.mpr ⟨a, t', notices, [], hrun, rfl, (List.append_nil _).symm⟩
  cases call with
  | push row =>
    by_cases hwidth : row.length ≤ t.columns.length
    · obtain ⟨t', hpush, hpushed⟩ := pushed_eq hwidth
      refine ⟨_, t', [], by rw [run_push, hpushed], ht.push hpush, ?_, ?_, .pushed hwidth⟩
      · rw [(push_eq_ok.mp hpush).2]
      · rw [(push_eq_ok.mp hpush).2, Array.toList_push, Call.rowsAfter, if_pos hwidth]
    · have hwide := Nat.lt_of_not_le hwidth
      refine ⟨_, t, [], by rw [run_push, pushed_of_lt hwide], ht, rfl, ?_, .refused hwide⟩
      rw [Call.rowsAfter, if_neg hwidth]
  | rowOf keyColumn key =>
    obtain ⟨t', notices, hrun, hsound, hcolumns, hrows⟩ := hlookup .row (ht.rowOf keyColumn key)
    exact ⟨_, t', notices, hrun, hsound, hcolumns, hrows, .rowOf (isFirstRow_search? ht _ _)⟩
  | lookup column keyColumn key =>
    obtain ⟨t', notices, hrun, hsound, hcolumns, hrows⟩ :=
      hlookup .found (ht.lookup column keyColumn key)
    exact ⟨_, t', notices, hrun, hsound, hcolumns, hrows, .lookup (finds_searched ht _ _ _)⟩
  | lookupAll column keyColumn keys =>
    obtain ⟨t', notices, hrun, hsound, hcolumns, hrows⟩ :=
      hlookup .foundAll (ht.lookupAll column keyColumn keys)
    refine ⟨_, t', notices, hrun, hsound, hcolumns, hrows, .lookupAll ?_⟩
    apply List.forall₂_map_right_iff.mpr
    exact List.forall₂_same.mpr fun key _ => finds_searched ht column keyColumn key

/-- The answers that calls on a table get, one after the other. -/
def answers (t : Table) (calls : List Call) : List Answer :=
  ((calls.mapM Call.perform).run t).value.1

/-- The table after calls. -/
def after (t : Table) (calls : List Call) : Table :=
  ((calls.mapM Call.perform).run t).value.2

theorem run_cons {call : Call} {answer : Answer} {t' : Table} {notices : List Notice}
    (h : call.perform.run t = ⟨(answer, t'), notices⟩) (calls : List Call) :
    t.answers (call :: calls) = answer :: t'.answers calls ∧
      t.after (call :: calls) = t'.after calls := by
  unfold answers after
  rw [List.mapM_cons, StateT.run_bind, h]
  exact ⟨rfl, rfl⟩

theorem run_append (t : Table) (calls later : List Call) :
    t.answers (calls ++ later) = t.answers calls ++ (t.after calls).answers later := by
  induction calls generalizing t with
  | nil => rfl
  | cons call calls ih =>
    rcases hrun : call.perform.run t with ⟨⟨answer, t'⟩, notices⟩
    obtain ⟨hanswers, hafter⟩ := run_cons hrun calls
    rw [List.cons_append, (run_cons hrun _).1, hanswers, hafter, ih, List.cons_append]

theorem after_append (t : Table) (calls later : List Call) :
    t.after (calls ++ later) = (t.after calls).after later := by
  induction calls generalizing t with
  | nil => rfl
  | cons call calls ih =>
    rcases hrun : call.perform.run t with ⟨⟨answer, t'⟩, notices⟩
    rw [List.cons_append, (run_cons hrun _).2, (run_cons hrun _).2, ih]

/-- All calls on a sound table answer by the rows that are there when they are made. -/
theorem history_answers (ht : t.Sound) (calls : List Call) :
    History t.columns t.rows.toList calls (t.answers calls) ∧ (t.after calls).Sound ∧
      (t.after calls).columns = t.columns ∧ (t.after calls).rows.toList =
        calls.foldl (Call.rowsAfter t.columns.length) t.rows.toList := by
  induction calls generalizing t with
  | nil => exact ⟨.nil, ht, rfl, rfl⟩
  | cons call calls ih =>
    obtain ⟨answer, t', notices, hrun, hsound, hcolumns, hrows, hanswer⟩ :=
      perform_answered ht call
    obtain ⟨hanswers, hafter⟩ := run_cons hrun calls
    obtain ⟨hhistory, hsound', hcolumns', hrows'⟩ := ih hsound
    rw [hcolumns, hrows] at hhistory hrows'
    rw [hcolumns] at hcolumns'
    rw [hanswers, hafter]
    exact ⟨.cons hanswer hhistory, hsound', hcolumns', hrows'⟩

theorem length_answers (t : Table) (calls : List Call) :
    (t.answers calls).length = calls.length := by
  induction calls generalizing t with
  | nil => rfl
  | cons call calls ih =>
    rcases hrun : call.perform.run t with ⟨⟨answer, t'⟩, notices⟩
    rw [(run_cons hrun calls).1, List.length_cons, ih, List.length_cons]

/-- After a row that is refused, calls get the answers that they get without it. -/
theorem answers_refused (ht : t.Sound) {before later : List Call} {row : List Cell}
    (hrow : t.columns.length < row.length) :
    (t.answers (before ++ .push row :: later)).drop (before.length + 1) =
      (t.answers (before ++ later)).drop before.length := by
  obtain ⟨-, -, hcolumns, -⟩ := history_answers ht before
  rw [← hcolumns] at hrow
  have hrun := run_push (t.after before) row
  rw [pushed_of_lt hrow] at hrun
  rw [run_append, run_append, (run_cons hrun later).1, ← length_answers t before]
  simp

/-- Of a table that is made from column names, with any history of calls: each call is answered by
the rows that are there when it is made; the column names stay trimmed and different from each
other, with the positions at which they stand; the rows are those that were not refused, each filled
up to the width of the table; and a row that is refused changes no answer after it. -/
theorem answers_never_stale {names : List String} {t : Table} (h : ofColumns names = .ok t)
    (calls : List Call) :
    History t.columns [] calls (t.answers calls) ∧
      ((t.after calls).columns = names.map Text.trim ∧ (t.after calls).columns.Nodup ∧
        (∀ name ∈ (t.after calls).columns, Text.trim name = name) ∧
        ∀ name position, (t.after calls).columnIndex? name = some position ↔
          (t.after calls).columns[position]? = some name) ∧
      ((t.after calls).rows.toList = calls.foldl (Call.rowsAfter t.columns.length) [] ∧
        ∀ row ∈ (t.after calls).rows.toList, row.length = (t.after calls).columns.length) ∧
      ∀ before row later, calls = before ++ .push row :: later → t.columns.length < row.length →
        (t.answers calls).drop (before.length + 1) =
          (t.answers (before ++ later)).drop before.length := by
  have ht := sound_ofColumns h
  obtain ⟨-, -, hmade⟩ := ofColumns_eq_ok.mp h
  obtain ⟨hhistory, hsound, hcolumns, hrows⟩ := history_answers ht calls
  have hnames : t.columns = names.map Text.trim := by rw [hmade]
  have hempty : t.rows.toList = [] := by rw [hmade]
  rw [hempty] at hhistory hrows
  refine ⟨hhistory, ⟨hcolumns.trans hnames, hsound.distinct, hsound.trimmed, ?_⟩,
    ⟨hrows, hsound.width⟩, ?_⟩
  · intro name position
    exact hsound.columnIndex?_eq_some
  · rintro before row later rfl hrow
    exact answers_refused ht hrow

theorem answers_never_stale_sample :
    let t : Table := ⟨[" k ", "v"].map Text.trim, #[], [" k ", "v"].map fun _ => none⟩
    let before : List Call := [.rowOf "k" "b", .push [.text "a"], .lookup "v" "k" " a ",
      .push [.text "b", .number 2], .rowOf "k" "b"]
    let wide : List Cell := [.text "c", .empty, .empty]
    let later : List Call := [.push [.text "c"], .lookupAll "v" "k" ["b", "c", "d"]]
    History t.columns [] (before ++ .push wide :: later)
        (t.answers (before ++ .push wide :: later)) ∧
      (t.answers (before ++ .push wide :: later)).drop 6 =
        (t.answers (before ++ later)).drop 5 := by
  intro t before wide later
  have hmade : ofColumns [" k ", "v"] = .ok t :=
    ofColumns_eq_ok.mpr ⟨by simp, by decide +kernel, rfl⟩
  obtain ⟨hhistory, -, -, hrefused⟩ :=
    answers_never_stale hmade (before ++ .push wide :: later)
  exact ⟨hhistory, hrefused before wide later rfl (by decide)⟩

end Table

end LedgerFields
