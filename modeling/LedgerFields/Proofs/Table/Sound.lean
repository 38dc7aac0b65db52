import LedgerFields.Proofs.Stateful
import LedgerFields.Proofs.Table.Index
import LedgerFields.Proofs.Text.Trim
import Mathlib.Data.List.Nodup

/-! The invariant of tables. Column names are trimmed and differ from each other, every row is as
wide as the header, and a key index that has been made is that of the rows which are there now. A
look-up keeps all this and the cells, so that it answers as a search through the rows. -/

namespace LedgerFields

namespace Table

variable {t t' : Table}

/-- What holds of a table at all times. -/
structure Sound (t : Table) : Prop where
  trimmed : ∀ name ∈ t.columns, Text.trim name = name
  distinct : t.columns.Nodup
  width : ∀ row ∈ t.rows.toList, row.length = t.columns.length
  indexes : ∀ (column : Nat) (index : KeyIndex), t.indexes[column]? = some (some index) →
    ∀ key, index.row? key = firstRow? (t.keys column) key

/-- The tables have the same columns and rows; the indexes that have been made may differ. -/
structure SameData (t t' : Table) : Prop where
  columns : t'.columns = t.columns
  rows : t'.rows = t.rows

theorem SameData.refl (t : Table) : SameData t t := ⟨rfl, rfl⟩

theorem SameData.trans {t₁ t₂ t₃ : Table} (h : SameData t₁ t₂) (h' : SameData t₂ t₃) :
    SameData t₁ t₃ :=
  ⟨h'.columns.trans h.columns, h'.rows.trans h.rows⟩

theorem SameData.keys_eq (h : SameData t t') (column : Nat) : t'.keys column = t.keys column := by
  unfold keys
  rw [h.rows]

theorem firstRepeated?_go {seen names : List String} :
    firstRepeated?.go seen names = none ↔ names.Nodup ∧ ∀ name ∈ names, name ∉ seen := by
  induction names generalizing seen with
  | nil => simp [firstRepeated?.go]
  | cons name names ih =>
    unfold firstRepeated?.go
    by_cases hname : name ∈ seen
    · simp [hname]
    · rw [if_neg hname, ih]
      constructor
      · rintro ⟨hdistinct, hseen⟩
        refine ⟨List.nodup_cons.mpr ⟨fun hmem => hseen name hmem (by simp), hdistinct⟩, ?_⟩
        intro other hother
        rcases List.mem_cons.mp hother with rfl | hother
        · exact hname
        · exact fun hmem => hseen other hother (by simp [hmem])
      · rintro ⟨hdistinct, hseen⟩
        obtain ⟨hnot, hdistinct⟩ := List.nodup_cons.mp hdistinct
        refine ⟨hdistinct, fun other hother hmem => ?_⟩
        rcases List.mem_cons.mp hmem with rfl | hmem
        · exact hnot hother
        · exact hseen other (by simp [hother]) hmem

/-- A table is made of columns whose trimmed names differ from each other. -/
theorem ofColumns_eq_ok {names : List String} : ofColumns names = .ok t ↔
    names ≠ [] ∧ (names.map Text.trim).Nodup ∧
      t = ⟨names.map Text.trim, #[], (names.map Text.trim).map fun _ => none⟩ := by
  have hrepeated : firstRepeated? (names.map Text.trim) = none ↔ (names.map Text.trim).Nodup := by
    simp [firstRepeated?, firstRepeated?_go]
  unfold ofColumns
  by_cases hnames : names = []
  · simp [hnames]
  · have hcolumns : names.map Text.trim ≠ [] := by simpa using hnames
    simp only [if_neg hcolumns, ← hrepeated]
    cases firstRepeated? (names.map Text.trim) with
    | some name => simp
    | none => simp [hnames, eq_comm]

theorem getElem?_no_indexes (columns : List String) (column : Nat) (index : KeyIndex) :
    (columns.map fun _ => (none : Option KeyIndex))[column]? ≠ some (some index) := by
  intro h
  have hmem := List.mem_of_getElem? h
  simp at hmem

theorem sound_ofColumns {names : List String} (h : ofColumns names = .ok t) : t.Sound := by
  obtain ⟨-, hdistinct, rfl⟩ := ofColumns_eq_ok.mp h
  refine ⟨?_, hdistinct, by simp, ?_⟩
  · intro name hname
    obtain ⟨given, -, rfl⟩ := List.mem_map.mp hname
    exact Text.trim_trim given
  · intro column index hindex
    exact absurd hindex (getElem?_no_indexes _ column index)

/-- A row that is not too wide is added with empty cells up to the width of the table. -/
theorem push_eq_ok {row : List Cell} : t.push row = .ok t' ↔
    row.length ≤ t.columns.length ∧ t' = { t with
      rows := t.rows.push (row ++ List.replicate (t.columns.length - row.length) .empty)
      indexes := t.columns.map fun _ => none } := by
  unfold push
  by_cases h : t.columns.length < row.length
  · rw [if_pos h]
    exact ⟨fun h' => (by cases h'), fun h' => absurd h'.1 (Nat.not_le.mpr h)⟩
  · rw [if_neg h, Except.ok.injEq]
    exact ⟨fun h' => ⟨Nat.not_lt.mp h, h'.symm⟩, fun h' => h'.2.symm⟩

theorem Sound.push {row : List Cell} (ht : t.Sound) (h : t.push row = .ok t') : t'.Sound := by
  obtain ⟨hlength, rfl⟩ := push_eq_ok.mp h
  refine ⟨ht.trimmed, ht.distinct, ?_, ?_⟩
  · intro added hadded
    rw [Array.toList_push, List.mem_append, List.mem_singleton] at hadded
    rcases hadded with hold | rfl
    · exact ht.width added hold
    · simp
      omega
  · intro column index hindex
    exact absurd hindex (getElem?_no_indexes _ column index)

/-! ### Looking up -/

/-- The computation answers `a`, and leaves a sound table with the same columns and rows. -/
def Yields {α : Type} (t : Table) (x : TableM α) (a : α) : Prop :=
  ∃ t' notices, x.run t = ⟨(a, t'), notices⟩ ∧ t.SameData t' ∧ t'.Sound

theorem Yields.pure {α : Type} (ht : t.Sound) (a : α) : t.Yields (pure a) a :=
  ⟨t, [], rfl, .refl t, ht⟩

theorem Yields.bind {α β : Type} {x : TableM α} {f : α → TableM β} {a : α} {b : β}
    (hx : t.Yields x a) (hf : ∀ t', t.SameData t' → t'.Sound → t'.Yields (f a) b) :
    t.Yields (x >>= f) b := by
  obtain ⟨t', earlier, hrun, hsame, hsound⟩ := hx
  obtain ⟨t'', later, hrun', hsame', hsound'⟩ := hf t' hsame hsound
  exact ⟨t'', earlier ++ later, run_bind_eq.mpr ⟨a, t', earlier, later, hrun, hrun', rfl⟩,
    hsame.trans hsame', hsound'⟩

theorem Yields.get {α : Type} {f : Table → TableM α} {a : α} (h : t.Yields (f t) a) :
    t.Yields (get >>= f) a := h

/-- The index of a column, made now or before, finds the first row of each key. -/
theorem Sound.keyIndex (ht : t.Sound) (column : Nat) :
    ∃ index, t.Yields (keyIndex column) index ∧
      ∀ key, index.row? key = firstRow? (t.keys column) key := by
  unfold Table.keyIndex
  cases hslot : t.indexes.getD column none with
  | some index =>
    have hindex : t.indexes[column]? = some (some index) := by
      rw [List.getD_eq_getElem?_getD] at hslot
      cases hget : t.indexes[column]? with
      | none =>
        rw [hget] at hslot
        cases hslot
      | some slot =>
        rw [hget] at hslot
        rw [← hslot, Option.getD_some]
    refine ⟨index, .get ?_, ht.indexes column index hindex⟩
    simp only [hslot]
    exact .pure ht index
  | none =>
    let built := KeyIndex.build (t.columns.getD column "") (t.keys column)
    have hbuilt (key : String) : built.value.row? key = firstRow? (t.keys column) key :=
      KeyIndex.row?_build _ _ key
    let after : Table := { t with indexes := t.indexes.set column (some built.value) }
    have hafter : after.Sound := by
      refine ⟨ht.trimmed, ht.distinct, ht.width, fun column' index hindex => ?_⟩
      rw [List.getElem?_set] at hindex
      split at hindex
      · next heq =>
        split at hindex
        · cases hindex
          rw [← heq]
          exact hbuilt
        · cases hindex
      · exact ht.indexes column' index hindex
    refine ⟨built.value, .get ?_, hbuilt⟩
    simp only [hslot]
    exact ⟨after, built.notices, run_bind_eq.mpr
      ⟨built.value, t, built.notices, [], run_liftM_eq built, rfl, by simp⟩, ⟨rfl, rfl⟩, hafter⟩

/-- Where a search through the rows finds a key. -/
def search? (t : Table) (keyColumn key : String) : Option Nat :=
  (t.columnIndex? keyColumn).bind fun position => firstRow? (t.keys position) (Text.trim key)

/-- What a look-up finds by a search through the rows. -/
def searched (t : Table) (column keyColumn key : String) : Lookup :=
  match t.columnIndex? keyColumn, t.columnIndex? column with
  | none, _ => .missing (.keyColumn keyColumn)
  | some _, none => .missing (.column column)
  | some _, some position =>
    match t.search? keyColumn key with
    | none => .missing (.key key keyColumn)
    | some row => .found ((t.cell? row position).getD .empty)

theorem SameData.columnIndex?_eq (h : SameData t t') (name : String) :
    t'.columnIndex? name = t.columnIndex? name := by
  unfold columnIndex?
  rw [h.columns]

theorem SameData.searched_eq (h : SameData t t') (column keyColumn key : String) :
    t'.searched column keyColumn key = t.searched column keyColumn key := by
  simp only [searched, search?, cell?, h.columnIndex?_eq, h.keys_eq, h.rows]

theorem Sound.rowOf (ht : t.Sound) (keyColumn key : String) :
    t.Yields (rowOf keyColumn key) (t.search? keyColumn key) := by
  refine .get ?_
  unfold search?
  cases t.columnIndex? keyColumn with
  | none => exact .pure ht none
  | some position =>
    obtain ⟨index, hyields, hindex⟩ := ht.keyIndex position
    refine hyields.bind fun t' _ hsound => ?_
    rw [Option.bind_some, ← hindex]
    exact .pure hsound _

theorem Sound.value_rowOf (ht : t.Sound) (keyColumn key : String) :
    ((Table.rowOf keyColumn key).run t).value.1 = t.search? keyColumn key := by
  obtain ⟨t', notices, hrun, -⟩ := ht.rowOf keyColumn key
  rw [hrun]

theorem Sound.lookup (ht : t.Sound) (column keyColumn key : String) :
    t.Yields (lookup column keyColumn key) (t.searched column keyColumn key) := by
  refine .get ?_
  unfold searched search?
  cases t.columnIndex? keyColumn with
  | none => exact .pure ht _
  | some keyPosition =>
    cases t.columnIndex? column with
    | none => exact .pure ht _
    | some position =>
      obtain ⟨index, hyields, hindex⟩ := ht.keyIndex keyPosition
      refine hyields.bind fun t' _ hsound => ?_
      simp only [Option.bind_some, ← hindex]
      cases index.row? (Text.trim key) with
      | none => exact .pure hsound _
      | some row => exact .pure hsound _

theorem Sound.lookupAll (ht : t.Sound) (column keyColumn : String) (keys : List String) :
    t.Yields (lookupAll column keyColumn keys) (keys.map (t.searched column keyColumn)) := by
  unfold Table.lookupAll
  induction keys generalizing t with
  | nil => exact .pure ht []
  | cons key keys ih =>
    rw [List.mapM_cons]
    refine (ht.lookup column keyColumn key).bind fun t' hsame hsound => ?_
    refine (ih hsound).bind fun t'' _ hsound' => ?_
    have heq : keys.map (t'.searched column keyColumn) = keys.map (t.searched column keyColumn) :=
      List.map_congr_left fun key _ => hsame.searched_eq column keyColumn key
    rw [heq]
    exact .pure hsound' _

theorem Sound.columnIndex?_eq_some (ht : t.Sound) {name : String} {position : Nat} :
    t.columnIndex? name = some position ↔ t.columns[position]? = some name := by
  unfold columnIndex?
  rw [List.idxOf?_eq_some_iff, List.getElem?_eq_some_iff]
  constructor
  · rintro ⟨hlength, hname, -⟩
    exact ⟨hlength, hname⟩
  · rintro ⟨hlength, hname⟩
    refine ⟨hlength, hname, fun earlier hearlier hsame => ?_⟩
    have heq := ht.distinct.getElem_inj_iff.mp (hsame.trans hname.symm)
    omega

theorem columnIndex?_eq_none {name : String} : t.columnIndex? name = none ↔ name ∉ t.columns :=
  List.idxOf?_eq_none_iff

theorem hasColumn_iff {name : String} : t.hasColumn name = true ↔ name ∈ t.columns := by
  unfold hasColumn
  rw [Option.isSome_iff_ne_none, ne_eq, columnIndex?_eq_none, not_not]

end Table

end LedgerFields
