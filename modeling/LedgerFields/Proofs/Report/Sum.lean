import LedgerFields.Proofs.Report.View
import LedgerFields.Proofs.Table.Reachable

/-! Sums over rows. Account codes that are repeated are told apart by their texts, rows by their
numbers; since a key index takes different trimmed codes to different rows, each row is added once,
in the order in which the rows are first mentioned. -/

namespace LedgerFields

section

variable {α β : Type} [DecidableEq α] [DecidableEq β] {xs ys : List α}

/-- The second list has the elements of the first, each once, in the order of their first mention.
-/
structure FirstMentions (xs ys : List α) : Prop where
  mem_iff : ∀ x, x ∈ ys ↔ x ∈ xs
  nodup : ys.Nodup
  ordered : ys.Pairwise fun x y => xs.idxOf x < xs.idxOf y

namespace FirstMentions

theorem nil : FirstMentions ([] : List α) [] := ⟨fun _ => Iff.rfl, .nil, .nil⟩

/-- An element that is mentioned last adds itself, if it is not there. -/
theorem mention (h : FirstMentions xs ys) (x : α) :
    FirstMentions (xs ++ [x]) (if x ∈ ys then ys else ys ++ [x]) := by
  have hordered : ys.Pairwise fun y z => (xs ++ [x]).idxOf y < (xs ++ [x]).idxOf z := by
    refine h.ordered.imp_of_mem fun hy hz hlt => ?_
    rwa [List.idxOf_append_of_mem ((h.mem_iff _).mp hy),
      List.idxOf_append_of_mem ((h.mem_iff _).mp hz)]
  split
  · next hx =>
    refine ⟨fun y => ?_, h.nodup, hordered⟩
    rw [List.mem_append, List.mem_singleton, h.mem_iff]
    refine ⟨.inl, ?_⟩
    rintro (hy | rfl)
    · exact hy
    · exact (h.mem_iff _).mp hx
  · next hx =>
    refine ⟨fun y => ?_, ?_, ?_⟩
    · rw [List.mem_append, List.mem_append, h.mem_iff]
    · exact List.nodup_append.mpr ⟨h.nodup, List.nodup_singleton x, by grind⟩
    · refine List.pairwise_append.mpr ⟨hordered, List.pairwise_singleton _ _, fun y hy z hz => ?_⟩
      obtain rfl := List.mem_singleton.mp hz
      have hmem := (h.mem_iff _).mp hy
      have hlast : z ∉ xs := mt (h.mem_iff z).mpr hx
      have hlt := List.idxOf_lt_length_of_mem hmem
      rw [List.idxOf_append_of_mem hmem, List.idxOf_append_of_notMem hlast]
      omega

end FirstMentions

theorem idxOf_map_of_injective {f : α → β} {x : α}
    (hinjective : ∀ y ∈ xs, f y = f x → y = x) : (xs.map f).idxOf (f x) = xs.idxOf x := by
  induction xs with
  | nil => rfl
  | cons y xs ih =>
    obtain ⟨hy, hxs⟩ := List.forall_mem_cons.mp hinjective
    rw [List.map_cons, List.idxOf_cons, List.idxOf_cons, ih hxs]
    by_cases hyx : y = x
    · simp [hyx]
    · rw [beq_false_of_ne hyx, beq_false_of_ne (mt hy hyx)]

/-- A function that tells the elements apart takes first mentions to first mentions. -/
theorem FirstMentions.map {f : α → β} (h : FirstMentions xs ys)
    (hinjective : ∀ x ∈ xs, ∀ y ∈ xs, f x = f y → x = y) :
    FirstMentions (xs.map f) (ys.map f) := by
  refine ⟨fun z => ?_, ?_, List.pairwise_map.mpr ?_⟩
  · simp only [List.mem_map, h.mem_iff]
  · refine h.nodup.map_on fun x hx y hy => hinjective x ?_ y ?_
    · exact (h.mem_iff x).mp hx
    · exact (h.mem_iff y).mp hy
  · refine h.ordered.imp_of_mem fun hy hz hlt => ?_
    rwa [idxOf_map_of_injective fun x hx => hinjective x hx _ ((h.mem_iff _).mp hy),
      idxOf_map_of_injective fun x hx => hinjective x hx _ ((h.mem_iff _).mp hz)]

end

/-! ### Rows and their numbers -/

/-- The row with this number has this amount in the column. -/
def HasAmount (columns : List String) (rows : List (List Cell)) (column : String) (n : Nat)
    (x : Float) : Prop :=
  ∃ (position : Nat) (row : List Cell), columns[position]? = some column ∧ rows[n]? = some row ∧
    row[position]? = some (.number x)

namespace Table

variable {t : Table} {column keyColumn key : String} {n : Nat} {x : Float}

theorem search?_eq_some_iff (ht : t.Sound) :
    t.search? keyColumn key = some n ↔
      IsFirstRow t.columns t.rows.toList keyColumn key (some n) := by
  have hfirst := isFirstRow_search? ht keyColumn key
  constructor
  · intro h
    rwa [h] at hfirst
  · intro hleast
    cases hsearch : t.search? keyColumn key with
    | none =>
      rw [hsearch] at hfirst
      exact absurd hleast.1 (hfirst n)
    | some m =>
      rw [hsearch] at hfirst
      exact congrArg some (IsLeast.unique hfirst hleast)

/-- The numbers that a search finds, with the rows that they are found in. -/
theorem searched_eq_number_iff (ht : t.Sound) :
    t.searched column keyColumn key = .found (.number x) ↔
      ∃ n, t.search? keyColumn key = some n ∧
        HasAmount t.columns t.rows.toList column n x := by
  constructor
  · intro h
    have hfinds := finds_searched ht column keyColumn key
    rw [h] at hfinds
    cases hfinds with
    | found hfirst hrow hposition hcell =>
      exact ⟨_, (search?_eq_some_iff ht).mpr hfirst, _, _, hposition, hrow, hcell⟩
  · rintro ⟨n, hsearch, position, row, hposition, hrow, hcell⟩
    have hrow' : t.rows[n]? = some row := by rwa [← Array.getElem?_toList]
    have hfound : t.cell? n position = some (.number x) := by
      rw [cell?, hrow']
      exact hcell
    obtain ⟨keyPosition, hkeyColumn, -⟩ := Option.bind_eq_some_iff.mp hsearch
    unfold searched
    rw [hkeyColumn, ht.columnIndex?_eq_some.mpr hposition, hsearch]
    show Lookup.found _ = _
    rw [hfound]
    rfl

/-- Different trimmed keys are found in different rows. -/
theorem trim_eq_of_search? {key' : String} (ht : t.Sound) (h : t.search? keyColumn key = some n)
    (h' : t.search? keyColumn key' = some n) : Text.trim key = Text.trim key' := by
  have hleast : IsLeast {n | HasKey t.columns t.rows.toList keyColumn key n} n :=
    (search?_eq_some_iff ht).mp h
  have hleast' : IsLeast {n | HasKey t.columns t.rows.toList keyColumn key' n} n :=
    (search?_eq_some_iff ht).mp h'
  obtain ⟨keyPosition, -, -, hposition, -⟩ := hleast.1
  have hkey := ((hasKey_iff ht hposition).mp hleast.1).2
  have hkey' := ((hasKey_iff ht hposition).mp hleast'.1).2
  exact Option.some.inj (hkey.symm.trans hkey')

end Table

namespace Report

theorem distinct_concat (texts : List String) (text : String) :
    distinct (texts ++ [text]) =
      if text ∈ distinct texts then distinct texts else distinct texts ++ [text] := by
  unfold distinct
  rw [List.foldl_append, List.foldl_cons, List.foldl_nil]
  simp only [List.contains_iff_mem]

theorem firstMentions_distinct (texts : List String) : FirstMentions texts (distinct texts) := by
  induction texts using List.reverseRecOn with
  | nil => exact .nil
  | append_singleton texts text ih =>
    rw [distinct_concat]
    exact ih.mention text

theorem sumOfFound_eq_value_iff {codes : List String} {keyColumn valueColumn : String}
    {answers : List Lookup} {v : Float} :
    sumOfFound codes keyColumn valueColumn answers = .value v ↔
      ∃ amounts, List.Forall₂ (fun answer x => answer = .found (.number x)) answers amounts ∧
        v = amounts.foldl (· + ·) 0.0 := by
  constructor
  · intro h
    obtain ⟨hmissing, h⟩ := guard_eq_value_iff.mp h
    obtain ⟨hempty, h⟩ := guard_eq_value_iff.mp h
    obtain ⟨htext, h⟩ := guard_eq_value_iff.mp h
    have hnumber (answer : Lookup) (hanswer : answer ∈ answers) :
        answer = .found (.number (amount answer)) := by
      cases answer with
      | missing what => exact absurd (List.any_eq_true.mpr ⟨_, hanswer, rfl⟩) hmissing
      | found cell =>
        cases cell with
        | number x => rfl
        | empty => exact absurd (List.any_eq_true.mpr ⟨_, hanswer, rfl⟩) hempty
        | text s => exact absurd (List.any_eq_true.mpr ⟨_, hanswer, rfl⟩) htext
    refine ⟨answers.map amount, ?_, ?_⟩
    · exact List.forall₂_map_right_iff.mpr (List.forall₂_same.mpr hnumber)
    · rw [List.foldl_map]
      exact (Outcome.value.inj h).symm
  · rintro ⟨amounts, hamounts, rfl⟩
    obtain rfl : answers = amounts.map fun x => .found (.number x) := by
      rw [← List.forall₂_eq_eq_eq]
      exact List.forall₂_map_right_iff.mpr hamounts
    refine guard_eq_value_iff.mpr ⟨by simp, guard_eq_value_iff.mpr ⟨by simp,
      guard_eq_value_iff.mpr ⟨by simp, ?_⟩⟩⟩
    rw [List.foldl_map]
    rfl

section

variable {t : Table} {keyColumn accountCodes valueColumn column place : String} {separator : Char}
  {codes : List String} {v : Float}

/-- A value of the sum, by the searches for its codes. -/
theorem sumOfRows_eq_value_iff (ht : t.Sound) :
    ((sumOfRows keyColumn accountCodes valueColumn separator).run t).value.1 = .value v ↔
      (∀ text ∈ [keyColumn, accountCodes, valueColumn], Text.isBlankText text = false) ∧
      2 ≤ (listed separator accountCodes).length ∧
      (Text.trim keyColumn ∈ t.columns ∧ Text.trim valueColumn ∈ t.columns) ∧
      ∃ amounts, List.Forall₂ (fun code x =>
          t.searched (Text.trim valueColumn) (Text.trim keyColumn) code = .found (.number x))
          (distinct (listed separator accountCodes)) amounts ∧
        v = amounts.foldl (· + ·) 0.0 := by
  rw [(views_sumOfRows keyColumn accountCodes valueColumn separator).value_run ht]
  have hblank : ¬[keyColumn, accountCodes, valueColumn].any Text.isBlankText = true ↔
      ∀ text ∈ [keyColumn, accountCodes, valueColumn], Text.isBlankText text = false := by
    simp
  have hcolumns :
      ¬(!t.view.hasColumn (Text.trim keyColumn) || !t.view.hasColumn (Text.trim valueColumn)) =
        true ↔ Text.trim keyColumn ∈ t.columns ∧ Text.trim valueColumn ∈ t.columns := by
    rw [← Table.hasColumn_iff, ← Table.hasColumn_iff]
    simp [Table.view]
  refine guard_eq_value_iff.trans (and_congr hblank ?_)
  refine guard_eq_value_iff.trans (and_congr Nat.not_lt ?_)
  refine guard_eq_value_iff.trans (and_congr hcolumns ?_)
  rw [sumOfFound_eq_value_iff]
  simp only [List.forall₂_map_left_iff]
  rfl

/-- Every code is found with an amount just when every distinct one is. -/
theorem exists_amounts_iff (ht : t.Sound) :
    (∃ amounts, List.Forall₂ (fun code x => t.searched place column code = .found (.number x))
        (distinct codes) amounts) ↔
      ∀ code ∈ codes, ∃ row x, IsFirstRow t.columns t.rows.toList column code (some row) ∧
        HasAmount t.columns t.rows.toList place row x := by
  have hmem := (firstMentions_distinct codes).mem_iff
  constructor
  · rintro ⟨amounts, hamounts⟩ code hcode
    have hfound := (List.forall₂_and_left _ _).mp (hamounts.imp fun code x h =>
      (⟨⟨x, h⟩, h⟩ : (∃ x, t.searched place column code = .found (.number x)) ∧ _))
    obtain ⟨x, hx⟩ := hfound.1 code ((hmem code).mpr hcode)
    obtain ⟨row, hrow, hamount⟩ := (Table.searched_eq_number_iff ht).mp hx
    exact ⟨row, x, (Table.search?_eq_some_iff ht).mp hrow, hamount⟩
  · intro h
    refine ⟨(distinct codes).map fun code => amount (t.searched place column code), ?_⟩
    rw [List.forall₂_map_right_iff, List.forall₂_same]
    intro code hcode
    obtain ⟨row, x, hrow, hamount⟩ := h code ((hmem code).mp hcode)
    rw [(Table.searched_eq_number_iff ht).mpr
      ⟨row, (Table.search?_eq_some_iff ht).mpr hrow, hamount⟩]
    rfl

/-- The amounts of the distinct codes are those of the rows, in the order of first mention. -/
theorem exists_rows (ht : t.Sound) (htrimmed : ∀ code ∈ codes, Text.trim code = code)
    {amounts : List Float} (hamounts : List.Forall₂ (fun code x =>
      t.searched place column code = .found (.number x)) (distinct codes) amounts) :
    ∃ mentions rows, List.Forall₂ (fun code row =>
        IsFirstRow t.columns t.rows.toList column code (some row)) codes mentions ∧
      FirstMentions mentions rows ∧
      List.Forall₂ (HasAmount t.columns t.rows.toList place) rows amounts := by
  have hdistinct := firstMentions_distinct codes
  let rowOf (code : String) : Nat := (t.search? column code).getD 0
  obtain ⟨hsearch, hrows⟩ : (∀ code ∈ distinct codes, t.search? column code = some (rowOf code)) ∧
      List.Forall₂ (fun code x => HasAmount t.columns t.rows.toList place (rowOf code) x)
        (distinct codes) amounts := by
    refine (List.forall₂_and_left _ _).mp (hamounts.imp fun code x hx => ?_)
    obtain ⟨row, hrow, hamount⟩ := (Table.searched_eq_number_iff ht).mp hx
    have hrowOf : rowOf code = row := by
      show (t.search? column code).getD 0 = row
      rw [hrow, Option.getD_some]
    rw [hrowOf]
    exact ⟨hrow, hamount⟩
  have hfound (code : String) (hcode : code ∈ codes) :
      t.search? column code = some (rowOf code) :=
    hsearch code ((hdistinct.mem_iff code).mpr hcode)
  refine ⟨codes.map rowOf, (distinct codes).map rowOf, ?_, hdistinct.map ?_, ?_⟩
  · rw [List.forall₂_map_right_iff, List.forall₂_same]
    exact fun code hcode => (Table.search?_eq_some_iff ht).mp (hfound code hcode)
  · intro code hcode other hother heq
    have htrim := Table.trim_eq_of_search? ht (hfound code hcode)
      ((hfound other hother).trans (congrArg some heq.symm))
    rwa [htrimmed code hcode, htrimmed other hother] at htrim
  · exact List.forall₂_map_left_iff.mpr hrows

end

/-- A sum has a value when none of the settings is blank, two codes or more are listed, both columns
are there, and each code finds a row with an amount; not otherwise. The value is then the sum, from
zero on, of the amounts of the rows that are found, each row once and in the order in which the rows
are first mentioned. -/
theorem sum_adds_each_row_once {t : Table} (ht : t.Reachable)
    (keyColumn accountCodes valueColumn : String) (separator : Char) :
    let outcome := ((sumOfRows keyColumn accountCodes valueColumn separator).run t).value.1
    let codes := listed separator accountCodes
    let finds (code : String) (row : Nat) :=
      IsFirstRow t.columns t.rows.toList (Text.trim keyColumn) code (some row)
    let holds := HasAmount t.columns t.rows.toList (Text.trim valueColumn)
    ((∃ v, outcome = .value v) ↔
      (∀ text ∈ [keyColumn, accountCodes, valueColumn], Text.isBlankText text = false) ∧
      2 ≤ codes.length ∧
      (Text.trim keyColumn ∈ t.columns ∧ Text.trim valueColumn ∈ t.columns) ∧
      ∀ code ∈ codes, ∃ row x, finds code row ∧ holds row x) ∧
    ∀ v, outcome = .value v → ∃ mentions rows amounts, List.Forall₂ finds codes mentions ∧
      FirstMentions mentions rows ∧ List.Forall₂ holds rows amounts ∧
      v = amounts.foldl (· + ·) 0.0 := by
  intro outcome codes finds holds
  constructor
  · simp only [outcome, sumOfRows_eq_value_iff ht.sound, codes, finds, holds,
      ← exists_amounts_iff ht.sound]
    constructor
    · rintro ⟨v, hblank, hlength, hcolumns, amounts, hamounts, -⟩
      exact ⟨hblank, hlength, hcolumns, amounts, hamounts⟩
    · rintro ⟨hblank, hlength, hcolumns, amounts, hamounts⟩
      exact ⟨_, hblank, hlength, hcolumns, amounts, hamounts, rfl⟩
  · intro v hv
    obtain ⟨-, -, -, amounts, hamounts, hvalue⟩ := (sumOfRows_eq_value_iff ht.sound).mp hv
    have htrimmed : ∀ code ∈ codes, Text.trim code = code := by
      intro code hcode
      obtain ⟨piece, -, rfl⟩ := List.mem_map.mp hcode
      exact Text.trim_trim piece
    obtain ⟨mentions, rows, hmentions, hfirst, hrows⟩ := exists_rows ht.sound htrimmed hamounts
    exact ⟨mentions, rows, amounts, hmentions, hfirst, hrows, hvalue⟩

/-- A code that is repeated with blanks around it adds its row once, and one that is in no row
leaves the sum without a value. -/
theorem sum_adds_each_row_once_sample :
    let made : Table := ⟨["k", "v"].map Text.trim, #[], ["k", "v"].map fun _ => none⟩
    let t : Table := made.after [.push [.number 7, .number 1], .push [.text "b", .number 2.5]]
    let sum (codes : String) : Outcome := ((sumOfRows "k" codes "v" ',').run t).value.1
    (∃ mentions rows amounts, List.Forall₂ (fun code row =>
        IsFirstRow t.columns t.rows.toList (Text.trim "k") code (some row))
        (listed ',' "b,7, b ") mentions ∧
      FirstMentions mentions rows ∧
      List.Forall₂ (HasAmount t.columns t.rows.toList (Text.trim "v")) rows amounts ∧
      3.5 = amounts.foldl (· + ·) 0.0) ∧
    ¬∃ v, sum "b,c" = .value v := by
  intro made t sum
  have ht : t.Reachable := Table.reachable_after (by simp) (by decide +kernel) _
  have hvalue : sum "b,7, b " = .value 3.5 := by decide +kernel
  refine ⟨(sum_adds_each_row_once ht "k" "b,7, b " "v" ',').2 3.5 hvalue, fun h => ?_⟩
  obtain ⟨-, -, -, hfound⟩ := (sum_adds_each_row_once ht "k" "b,c" "v" ',').1.mp h
  obtain ⟨row, x, hrow, -⟩ := hfound "c" (by decide +kernel)
  have hsearch : t.search? (Text.trim "k") "c" = none := by decide +kernel
  rw [(Table.search?_eq_some_iff ht.sound).mpr hrow] at hsearch
  cases hsearch

end Report

end LedgerFields
