import LedgerFields.Proofs.Table.History
import LedgerFields.Proofs.Table.Repeated

/-! What calls report. The index of a key column is made when a call uses it for the first time
since a row was added, and it is then that repeated keys are reported; no other call reports
anything. -/

namespace LedgerFields

/-! ### Key columns whose indexes are used -/

namespace Call

/-- The key column whose index a call uses on a table with these columns, if there is one. A row is
added without it, and no key is looked up when a column does not exist or when there is no key. -/
def consulted? (columns : List String) : Call → Option String
  | push _ => none
  | rowOf keyColumn _ => if keyColumn ∈ columns then some keyColumn else none
  | lookup column keyColumn _ =>
    if keyColumn ∈ columns ∧ column ∈ columns then some keyColumn else none
  | lookupAll column keyColumn keys =>
    if keyColumn ∈ columns ∧ column ∈ columns ∧ keys ≠ [] then some keyColumn else none

/-- The call adds a row to a table of this width: it is a row that is not refused. -/
def Adds (width : Nat) : Call → Prop
  | push row => row.length ≤ width
  | _ => False

end Call

namespace Table

variable {α β : Type} {t t' : Table} {keyColumn? : Option String} {keyColumn : String}
  {position : Nat} {index : KeyIndex} {notices : List Notice}

theorem getElem?_of_columnIndex? (h : t.columnIndex? keyColumn = some position) :
    t.columns[position]? = some keyColumn := by
  obtain ⟨hlength, hname, -⟩ := List.idxOf?_eq_some_iff.mp h
  exact List.getElem?_eq_some_iff.mpr ⟨hlength, hname⟩

theorem exists_columnIndex?_iff {name : String} :
    (∃ position, t.columnIndex? name = some position) ↔ name ∈ t.columns :=
  Option.isSome_iff_exists.symm.trans hasColumn_iff

/-- What using the index of a key column, if one is used, makes of a table, and what it reports: the
index is made unless it is there. -/
inductive Consulted (t : Table) : Option String → Table → List Notice → Prop where
  | nothing : Consulted t none t []
  | filled {keyColumn : String} {position : Nat} {index : KeyIndex} :
      t.columnIndex? keyColumn = some position → t.indexes[position]? = some (some index) →
      Consulted t (some keyColumn) t []
  | made {keyColumn : String} {position : Nat} {built : Logged KeyIndex} :
      t.columnIndex? keyColumn = some position → t.indexes[position]? = some none →
      KeyIndex.build keyColumn (t.keys position) = built →
      Consulted t (some keyColumn)
        { t with indexes := t.indexes.set position (some built.value) } built.notices

/-- The computation does nothing to the table but use the index of a key column, if it uses one. -/
def Uses (t : Table) (x : TableM α) (keyColumn? : Option String) : Prop :=
  ∃ a t' notices, x.run t = ⟨(a, t'), notices⟩ ∧ t.Consulted keyColumn? t' notices

theorem Uses.pure (a : α) : t.Uses (pure a) none :=
  ⟨a, t, [], rfl, .nothing⟩

theorem Uses.get {f : Table → TableM α} (h : t.Uses (f t) keyColumn?) :
    t.Uses (get >>= f) keyColumn? :=
  h

/-- What uses an index may be followed by what then uses none. -/
theorem Uses.bind {x : TableM α} {f : α → TableM β} (hx : t.Uses x keyColumn?)
    (hf : ∀ a t' notices, t.Consulted keyColumn? t' notices → t'.Uses (f a) none) :
    t.Uses (x >>= f) keyColumn? := by
  obtain ⟨a, t', notices, hrun, hconsulted⟩ := hx
  obtain ⟨b, _, _, hrun', ⟨⟩⟩ := hf a t' notices hconsulted
  exact ⟨b, t', notices, run_bind_eq.mpr ⟨a, t', notices, [], hrun, hrun', by simp⟩, hconsulted⟩

theorem uses_keyIndex_filled (h : t.indexes[position]? = some (some index)) :
    t.Uses (keyIndex position) none := by
  refine .get ?_
  rw [List.getD_eq_getElem?_getD, h]
  exact .pure index

theorem uses_keyIndex (hlength : t.indexes.length = t.columns.length)
    (hposition : t.columnIndex? keyColumn = some position) :
    t.Uses (keyIndex position) (some keyColumn) := by
  have hcolumn := getElem?_of_columnIndex? hposition
  obtain ⟨slot, hslot⟩ : ∃ slot, t.indexes[position]? = some slot := by
    have hlt := (List.getElem?_eq_some_iff.mp hcolumn).1
    exact ⟨_, List.getElem?_eq_getElem (hlength ▸ hlt)⟩
  cases slot with
  | some index =>
    obtain ⟨a, _, _, hrun, ⟨⟩⟩ := uses_keyIndex_filled hslot
    exact ⟨a, t, [], hrun, .filled hposition hslot⟩
  | none =>
    let built := KeyIndex.build keyColumn (t.keys position)
    refine ⟨built.value, _, built.notices, ?_, .made hposition hslot rfl⟩
    refine run_bind_eq.mpr ⟨t, t, [], built.notices, rfl, ?_, rfl⟩
    rw [List.getD_eq_getElem?_getD, hslot, List.getD_eq_getElem?_getD, hcolumn]
    exact run_bind_eq.mpr
      ⟨built.value, t, built.notices, [], run_liftM_eq built, rfl, (List.append_nil _).symm⟩

theorem uses_rowOf (hlength : t.indexes.length = t.columns.length) (key : String) :
    t.Uses (rowOf keyColumn key) ((Call.rowOf keyColumn key).consulted? t.columns) := by
  rw [Call.consulted?]
  refine .get ?_
  cases hposition : t.columnIndex? keyColumn with
  | none =>
    rw [if_neg (columnIndex?_eq_none.mp hposition)]
    exact .pure none
  | some position =>
    rw [if_pos (exists_columnIndex?_iff.mp ⟨position, hposition⟩)]
    exact (uses_keyIndex hlength hposition).bind fun index _ _ _ => .pure _

/-- A look-up of columns that exist uses what its index uses. -/
theorem uses_lookup {column : String} {columnPosition : Nat}
    (hkeyColumn : t.columnIndex? keyColumn = some position)
    (hcolumn : t.columnIndex? column = some columnPosition)
    (h : t.Uses (keyIndex position) keyColumn?) (key : String) :
    t.Uses (lookup column keyColumn key) keyColumn? := by
  refine .get ?_
  rw [hkeyColumn, hcolumn]
  refine h.bind fun index t' _ _ => ?_
  cases index.row? (Text.trim key) with
  | none => exact .pure _
  | some row => exact .pure _

/-- A look-up uses no index if one of its columns does not exist. -/
theorem uses_lookup_missing {column : String} (h : ¬(keyColumn ∈ t.columns ∧ column ∈ t.columns))
    (key : String) : t.Uses (lookup column keyColumn key) none := by
  refine .get ?_
  cases hkeyColumn : t.columnIndex? keyColumn with
  | none => exact .pure _
  | some position =>
    cases hcolumn : t.columnIndex? column with
    | none => exact .pure _
    | some columnPosition =>
      exact absurd ⟨exists_columnIndex?_iff.mp ⟨position, hkeyColumn⟩,
        exists_columnIndex?_iff.mp ⟨columnPosition, hcolumn⟩⟩ h

/-- Look-ups that use no index, one after the other, use none. -/
theorem uses_lookupAll_none {column : String} (h : ∀ key, t.Uses (lookup column keyColumn key) none)
    (keys : List String) : t.Uses (lookupAll column keyColumn keys) none := by
  unfold lookupAll
  induction keys with
  | nil => exact .pure []
  | cons key keys ih =>
    rw [List.mapM_cons]
    refine (h key).bind fun found t' _ hconsulted => ?_
    cases hconsulted
    exact ih.bind fun results _ _ _ => .pure _

/-- The index that a computation uses is there after it. -/
theorem Consulted.filled_after (h : t.Consulted (some keyColumn) t' notices) :
    ∃ position index, t.columnIndex? keyColumn = some position ∧
      t'.indexes[position]? = some (some index) := by
  cases h with
  | filled hposition hslot => exact ⟨_, _, hposition, hslot⟩
  | made hposition hslot =>
    have hlt := (List.getElem?_eq_some_iff.mp hslot).1
    exact ⟨_, _, hposition, List.getElem?_set_self hlt⟩

theorem Consulted.sameData (h : t.Consulted keyColumn? t' notices) : t.SameData t' := by
  cases h <;> exact ⟨rfl, rfl⟩

/-- The first of the look-ups uses the index, which is there for the others. -/
theorem uses_lookupAll (hlength : t.indexes.length = t.columns.length) {column : String}
    (hkeyColumn : keyColumn ∈ t.columns) (hcolumn : column ∈ t.columns) (key : String)
    (keys : List String) :
    t.Uses (lookupAll column keyColumn (key :: keys)) (some keyColumn) := by
  obtain ⟨position, hposition⟩ := exists_columnIndex?_iff.mpr hkeyColumn
  obtain ⟨columnPosition, hcolumnPosition⟩ := exists_columnIndex?_iff.mpr hcolumn
  unfold lookupAll
  rw [List.mapM_cons]
  refine (uses_lookup hposition hcolumnPosition (uses_keyIndex hlength hposition) key).bind
    fun found t' notices hconsulted => ?_
  obtain ⟨position', index, hposition', hfilled⟩ := hconsulted.filled_after
  have hcolumns := hconsulted.sameData.columnIndex?_eq
  have hlookup (key : String) : t'.Uses (lookup column keyColumn key) none :=
    uses_lookup ((hcolumns _).trans hposition') ((hcolumns _).trans hcolumnPosition)
      (uses_keyIndex_filled hfilled) key
  exact (uses_lookupAll_none hlookup keys).bind fun results _ _ _ => .pure _

/-- A call that adds no row does nothing to the table but use the index that it consults. -/
theorem uses_perform (hlength : t.indexes.length = t.columns.length) {call : Call}
    (hcall : ∀ row, call ≠ .push row) : t.Uses call.perform (call.consulted? t.columns) := by
  cases call with
  | push row => exact absurd rfl (hcall row)
  | rowOf keyColumn key => exact (uses_rowOf hlength key).bind fun row _ _ _ => .pure _
  | lookup column keyColumn key =>
    refine Uses.bind ?_ fun found _ _ _ => .pure _
    rw [Call.consulted?]
    by_cases hmem : keyColumn ∈ t.columns ∧ column ∈ t.columns
    · obtain ⟨position, hposition⟩ := exists_columnIndex?_iff.mpr hmem.1
      obtain ⟨columnPosition, hcolumn⟩ := exists_columnIndex?_iff.mpr hmem.2
      rw [if_pos hmem]
      exact uses_lookup hposition hcolumn (uses_keyIndex hlength hposition) key
    · rw [if_neg hmem]
      exact uses_lookup_missing hmem key
  | lookupAll column keyColumn keys =>
    refine Uses.bind ?_ fun results _ _ _ => .pure _
    rw [Call.consulted?]
    by_cases hmem : keyColumn ∈ t.columns ∧ column ∈ t.columns ∧ keys ≠ []
    · obtain ⟨key, keys, rfl⟩ := List.exists_cons_of_ne_nil hmem.2.2
      rw [if_pos hmem]
      exact uses_lookupAll hlength hmem.1 hmem.2.1 key keys
    · rw [if_neg hmem]
      cases keys with
      | nil => exact .pure []
      | cons key keys =>
        refine uses_lookupAll_none (fun key => uses_lookup_missing ?_ key) _
        exact fun hboth => hmem ⟨hboth.1, hboth.2, List.cons_ne_nil _ _⟩

/-! ### Which indexes have been made -/

/-- The calls use the index of this key column after the last of them that adds a row. -/
def ConsultedSince (columns : List String) (calls : List Call) (keyColumn : String) : Prop :=
  Since (fun call => call.consulted? columns = some keyColumn)
    (fun call => ¬call.Adds columns.length) calls

/-- The indexes that are there are those of the key columns of which `made` holds. -/
structure Tracks (t : Table) (made : String → Prop) : Prop where
  length : t.indexes.length = t.columns.length
  filled : ∀ (keyColumn : String) (position : Nat), t.columnIndex? keyColumn = some position →
    ((∃ index, t.indexes[position]? = some (some index)) ↔ made keyColumn)

variable {made : String → Prop}

theorem Tracks.congr {made' : String → Prop} (h : t.Tracks made)
    (hmade : ∀ keyColumn, made' keyColumn ↔ made keyColumn) : t.Tracks made' := by
  rwa [funext fun keyColumn => propext (hmade keyColumn)]

theorem tracks_none (h : t.indexes = t.columns.map fun _ => none) : t.Tracks fun _ => False := by
  refine ⟨by rw [h, List.length_map], fun keyColumn position _ => ?_⟩
  rw [h, iff_false, not_exists]
  exact fun index => getElem?_no_indexes _ position index

/-- The index that is used is there from then on, beside those that were there. -/
theorem Tracks.consulted (h : t.Tracks made) (hconsulted : t.Consulted keyColumn? t' notices) :
    t'.Tracks fun keyColumn => keyColumn? = some keyColumn ∨ made keyColumn := by
  cases hconsulted with
  | nothing => simpa using h
  | @filled keyColumn position index hposition hslot =>
    have hmade := (h.filled keyColumn position hposition).mp ⟨index, hslot⟩
    refine ⟨h.length, fun other position' hposition' => ?_⟩
    rw [h.filled other position' hposition', Option.some.injEq]
    constructor
    · exact .inr
    · rintro (rfl | hother)
      · exact hmade
      · exact hother
  | @made keyColumn position built hposition hslot hbuilt =>
    refine ⟨by rw [List.length_set]; exact h.length, fun other position' hposition' => ?_⟩
    have hlt := (List.getElem?_eq_some_iff.mp hslot).1
    by_cases heq : position = position'
    · subst heq
      have hsame := (getElem?_of_columnIndex? hposition).symm.trans
        (getElem?_of_columnIndex? hposition')
      rw [List.getElem?_set_self hlt]
      exact ⟨fun _ => .inl hsame, fun _ => ⟨_, rfl⟩⟩
    · rw [List.getElem?_set_ne heq, h.filled other position' hposition', Option.some.injEq]
      refine (or_iff_right ?_).symm
      rintro rfl
      exact heq (Option.some.inj (hposition.symm.trans hposition'))

/-- What a call reports, where `made` holds of the key columns whose indexes have been made: it
makes the index of its key column and reports the rows that repeat keys, or it reports nothing. -/
inductive Reports (columns : List String) (rows : List (List Cell)) (made : String → Prop)
    (call : Call) (t' : Table) : List Notice → Prop where
  | built {keyColumn : String} {position : Nat} {index : KeyIndex} {notices : List Notice} :
      call.consulted? columns = some keyColumn → ¬made keyColumn →
      columns[position]? = some keyColumn → t'.indexes[position]? = some (some index) →
      Indexed keyColumn (BearsKey columns rows keyColumn) index notices →
      Reports columns rows made call t' notices
  | nothing : (∀ keyColumn, call.consulted? columns = some keyColumn → made keyColumn) →
      Reports columns rows made call t' []

theorem Tracks.reports {call : Call} (h : t.Tracks made) (ht : t.Sound)
    (hconsulted : t.Consulted (call.consulted? t.columns) t' notices) :
    Reports t.columns t.rows.toList made call t' notices := by
  cases hcall : call.consulted? t.columns with
  | none =>
    rw [hcall] at hconsulted
    cases hconsulted
    exact .nothing fun keyColumn hkeyColumn => by cases hcall.symm.trans hkeyColumn
  | some keyColumn =>
    rw [hcall] at hconsulted
    cases hconsulted with
    | filled hposition hslot =>
      refine .nothing fun other hother => ?_
      cases hcall.symm.trans hother
      exact (h.filled keyColumn _ hposition).mp ⟨_, hslot⟩
    | @made _ position built hposition hslot hbuilt =>
      have hnot : ¬made keyColumn := by
        rw [← h.filled keyColumn position hposition]
        rintro ⟨index, hindex⟩
        cases hslot.symm.trans hindex
      have hlt := (List.getElem?_eq_some_iff.mp hslot).1
      refine .built hcall hnot (getElem?_of_columnIndex? hposition) (List.getElem?_set_self hlt) ?_
      have hbears : BearsKey t.columns t.rows.toList keyColumn = KeyAt (t.keys position) :=
        funext₂ fun key n => propext (bearsKey_iff ht (getElem?_of_columnIndex? hposition))
      rw [hbears, ← hbuilt]
      exact .build keyColumn (t.keys position)

/-- A row that is added leaves no index, and one that is refused leaves them as they are. -/
theorem Tracks.pushed (h : t.Tracks made) (row : List Cell) :
    (t.pushed row).2.Tracks fun keyColumn =>
      ¬(Call.push row).Adds t.columns.length ∧ made keyColumn := by
  rcases Nat.lt_or_ge t.columns.length row.length with hrow | hrow
  · rw [pushed_of_lt hrow]
    exact h.congr fun keyColumn => and_iff_right (Nat.not_le.mpr hrow)
  · obtain ⟨t', hpush, hpushed⟩ := pushed_eq hrow
    obtain ⟨-, rfl⟩ := push_eq_ok.mp hpush
    rw [hpushed]
    exact (tracks_none rfl).congr fun keyColumn => iff_false_intro fun hadds => hadds.1 hrow

/-- A call keeps track of the indexes, and reports the repeated keys of an index that it makes. -/
theorem perform_reports (ht : t.Sound) (h : t.Tracks made) (call : Call) :
    ∃ answer t' notices, call.perform.run t = ⟨(answer, t'), notices⟩ ∧
      Reports t.columns t.rows.toList made call t' notices ∧
      t'.Tracks fun keyColumn => call.consulted? t.columns = some keyColumn ∨
        ¬call.Adds t.columns.length ∧ made keyColumn := by
  by_cases hpush : ∃ row, call = .push row
  · obtain ⟨row, rfl⟩ := hpush
    refine ⟨_, (t.pushed row).2, [], run_push t row, .nothing nofun, ?_⟩
    exact (h.pushed row).congr fun keyColumn => or_iff_right nofun
  · obtain ⟨answer, t', notices, hrun, hconsulted⟩ :=
      uses_perform h.length fun row hrow => hpush ⟨row, hrow⟩
    have hadds : ¬call.Adds t.columns.length := by
      cases call with
      | push row => exact absurd ⟨row, rfl⟩ hpush
      | rowOf | lookup | lookupAll => exact id
    refine ⟨answer, t', notices, hrun, h.reports ht hconsulted, ?_⟩
    exact (h.consulted hconsulted).congr fun keyColumn => or_congr_right (and_iff_right hadds)

/-! ### Histories -/

/-- What calls on a table report, each for itself. -/
def reports (t : Table) : List Call → List (List Notice)
  | [] => []
  | call :: calls =>
    let result := call.perform.run t
    result.notices :: result.value.2.reports calls

theorem length_reports (t : Table) (calls : List Call) :
    (t.reports calls).length = calls.length := by
  induction calls generalizing t with
  | nil => rfl
  | cons call calls ih => rw [reports, List.length_cons, ih, List.length_cons]

/-- What the calls report one after the other is what the run of them all reports. -/
theorem flatten_reports (t : Table) (calls : List Call) :
    (t.reports calls).flatten = ((calls.mapM Call.perform).run t).notices := by
  induction calls generalizing t with
  | nil => rfl
  | cons call calls ih =>
    rw [reports, List.flatten_cons, ih, List.mapM_cons, StateT.run_bind, Logged.notices_bind,
      StateT.run_bind, Logged.notices_bind]
    simp

theorem reports_append (t : Table) (calls later : List Call) :
    t.reports (calls ++ later) = t.reports calls ++ (t.after calls).reports later := by
  induction calls generalizing t with
  | nil => rfl
  | cons call calls ih =>
    rcases hrun : call.perform.run t with ⟨⟨answer, t'⟩, notices⟩
    rw [List.cons_append, reports, reports, (run_cons hrun calls).2, hrun]
    simp only [ih, List.cons_append]

theorem getElem?_reports (t : Table) (before : List Call) (call : Call) (later : List Call) :
    (t.reports (before ++ call :: later))[before.length]? =
      some (call.perform.run (t.after before)).notices := by
  rw [reports_append, List.getElem?_append_right (by rw [length_reports]), length_reports,
    Nat.sub_self, reports]
  rfl

/-- Which indexes have been made is told by the calls. -/
theorem tracks_after (ht : t.Sound) (h : t.Tracks fun _ => False) (calls : List Call) :
    (t.after calls).Tracks (ConsultedSince t.columns calls) := by
  -- The last call is made on the table that the others leave, with the indexes that they make.
  induction calls using List.reverseRecOn with
  | nil => exact h.congr fun keyColumn => iff_false_intro not_since_nil
  | append_singleton calls call ih =>
    obtain ⟨-, hsound, hcolumns, -⟩ := history_answers ht calls
    obtain ⟨answer, t', notices, hrun, -, htracks⟩ := perform_reports hsound ih call
    rw [after_append, (run_cons hrun []).2]
    rw [hcolumns] at htracks
    exact htracks.congr fun keyColumn => since_concat

/-- Of a table that is made from column names, with any history of calls: the run reports what the
calls report, one after the other. A call that uses the index of a key column, which no call has
used since a row was added, makes that index and reports each row whose key an earlier row has. Any
other call reports nothing, and neither does a row that is added or refused. -/
theorem duplicates_reported_once {names : List String} (h : ofColumns names = .ok t)
    (calls : List Call) :
    (t.reports calls).length = calls.length ∧
      (t.reports calls).flatten = ((calls.mapM Call.perform).run t).notices ∧
      ∀ before call later, calls = before ++ call :: later →
        ∃ notices, (t.reports calls)[before.length]? = some notices ∧
          Reports t.columns (before.foldl (Call.rowsAfter t.columns.length) [])
            (ConsultedSince t.columns before) call (t.after (before ++ [call])) notices := by
  have ht := sound_ofColumns h
  obtain ⟨-, -, hmade⟩ := ofColumns_eq_ok.mp h
  refine ⟨length_reports t calls, flatten_reports t calls, ?_⟩
  rintro before call later rfl
  obtain ⟨-, hsound, hcolumns, hrows⟩ := history_answers ht before
  have htracks := tracks_after ht (tracks_none (by rw [hmade])) before
  obtain ⟨answer, t', notices, hrun, hreports, -⟩ := perform_reports hsound htracks call
  have hempty : t.rows.toList = [] := by rw [hmade]
  rw [hcolumns, hrows, hempty] at hreports
  refine ⟨notices, ?_, ?_⟩
  · rw [getElem?_reports, hrun]
  · rw [after_append, (run_cons hrun []).2]
    exact hreports

theorem duplicates_reported_once_sample :
    let t : Table := ⟨["k", "v"].map Text.trim, #[], ["k", "v"].map fun _ => none⟩
    let before : List Call := [.rowOf "k" "a", .push [.text "a"], .push [.text " a ", .text "x"],
      .lookup "v" "k" "a", .rowOf "v" "x", .push [.text "b", .text "x"],
      .push [.empty, .empty, .empty], .lookup "w" "k" "a", .lookupAll "v" "k" []]
    let call : Call := .lookupAll "v" "k" ["a", "b"]
    ofColumns ["k", "v"] = .ok t ∧
      Reports t.columns (before.foldl (Call.rowsAfter t.columns.length) [])
        (ConsultedSince t.columns before) call (t.after (before ++ [call]))
        [.duplicateKey "a" "k" 2] := by
  intro t before call
  have hmade : ofColumns ["k", "v"] = .ok t :=
    ofColumns_eq_ok.mpr ⟨by simp, by decide +kernel, rfl⟩
  obtain ⟨-, -, hreports⟩ := duplicates_reported_once hmade (before ++ [call])
  obtain ⟨notices, hnotices, hreported⟩ := hreports before call [] rfl
  have hrun : (t.reports (before ++ [call]))[before.length]? = some [.duplicateKey "a" "k" 2] := by
    decide +kernel
  cases hnotices.symm.trans hrun
  exact ⟨hmade, hreported⟩

end Table

end LedgerFields
