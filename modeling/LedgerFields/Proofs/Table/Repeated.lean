import LedgerFields.Proofs.Table.Index
import Mathlib.Data.Set.Card

/-! Keys that repeat. An index that is made of a column has each of its keys once, and each row that
repeats the key of an earlier one is reported, in the order of the rows: so each row that has a key
either adds it to the index or is reported. -/

namespace LedgerFields

/-- The row with this number repeats the key of an earlier row, where `bears` tells which row has
which key. -/
def Repeats (bears : String → Nat → Prop) (key : String) (n : Nat) : Prop :=
  bears key n ∧ ∃ earlier < n, bears key earlier

/-- The index of a column and what is reported when it is made, where `bears` tells which row has
which key. -/
structure Indexed (column : String) (bears : String → Nat → Prop) (index : KeyIndex)
    (notices : List Notice) : Prop where
  /-- There is one notice for each row that repeats a key, in the order of the rows. -/
  reported : ∃ repeated : List (Nat × String),
    repeated.Pairwise (fun first second => first.1 < second.1) ∧
    (∀ n key, (n, key) ∈ repeated ↔ Repeats bears key n) ∧
    notices = repeated.map fun (n, key) => .duplicateKey key column (n + 1)
  distinct : (index.entries.map Prod.fst).Nodup
  keys : ∀ key, key ∈ index.entries.map Prod.fst ↔ ∃ n, bears key n
  count : notices.length + index.entries.length = {n | ∃ key, bears key n}.ncard

/-- The row with this number has this key, the keys being those of the rows. The empty text is no
key. -/
def KeyAt (keys : List String) (key : String) (n : Nat) : Prop :=
  key ≠ "" ∧ keys[n]? = some key

variable {column key last : String} {keys : List String} {n : Nat}

theorem KeyAt.lt_length (h : KeyAt keys key n) : n < keys.length :=
  (List.getElem?_eq_some_iff.mp h.2).1

theorem finite_keyAt (keys : List String) : {n | ∃ key, KeyAt keys key n}.Finite :=
  (Set.finite_lt_nat keys.length).subset fun _ ⟨_, h⟩ => h.lt_length

theorem exists_keyAt : (∃ n, KeyAt keys key n) ↔ key ≠ "" ∧ key ∈ keys := by
  simp only [KeyAt, exists_and_left, List.mem_iff_getElem?]

/-- One more row has its key, unless it is empty; the others keep theirs. -/
theorem keyAt_concat : KeyAt (keys ++ [last]) key n ↔
    KeyAt keys key n ∨ last ≠ "" ∧ key = last ∧ n = keys.length := by
  unfold KeyAt
  rcases Nat.lt_trichotomy n keys.length with hn | rfl | hn
  · rw [List.getElem?_append_left hn]
    simp [hn.ne]
  · rw [List.getElem?_concat_length, Option.some.injEq, List.getElem?_eq_none (Nat.le_refl _)]
    aesop
  · rw [List.getElem?_eq_none (by simp; omega), List.getElem?_eq_none hn.le]
    simp [hn.ne']

/-- One more row repeats a key when an earlier row has it. -/
theorem repeats_keyAt_concat : Repeats (KeyAt (keys ++ [last])) key n ↔
    Repeats (KeyAt keys) key n ∨ last ≠ "" ∧ last ∈ keys ∧ key = last ∧ n = keys.length := by
  unfold Repeats
  simp only [keyAt_concat]
  constructor
  · rintro ⟨hn | ⟨hlast, rfl, rfl⟩, earlier, hlt, hearlier | ⟨-, -, rfl⟩⟩
    · exact .inl ⟨hn, earlier, hlt, hearlier⟩
    · exact absurd hn.lt_length (Nat.lt_asymm hlt)
    · exact .inr ⟨hlast, (exists_keyAt.mp ⟨earlier, hearlier⟩).2, rfl, rfl⟩
    · exact absurd hlt (Nat.lt_irrefl _)
  · rintro (⟨hn, earlier, hlt, hearlier⟩ | ⟨hlast, hmem, rfl, rfl⟩)
    · exact ⟨.inl hn, earlier, hlt, .inl hearlier⟩
    · obtain ⟨earlier, hearlier⟩ := exists_keyAt.mpr ⟨hlast, hmem⟩
      exact ⟨.inr ⟨hlast, rfl, rfl⟩, earlier, hearlier.lt_length, .inl hearlier⟩

/-- One more row with a key is one more among the rows that have one. -/
theorem ncard_keyAt_concat (hlast : last ≠ "") :
    {n | ∃ key, KeyAt (keys ++ [last]) key n}.ncard = {n | ∃ key, KeyAt keys key n}.ncard + 1 := by
  have hset : {n | ∃ key, KeyAt (keys ++ [last]) key n} =
      insert keys.length {n | ∃ key, KeyAt keys key n} := by
    ext n
    simp [keyAt_concat, hlast, exists_or, or_comm]
  rw [hset, Set.ncard_insert_of_notMem _ (finite_keyAt keys)]
  rintro ⟨key, hkey⟩
  exact Nat.lt_irrefl _ hkey.lt_length

namespace Indexed

variable {index : KeyIndex} {notices : List Notice}

theorem nil (column : String) : Indexed column (KeyAt []) .empty [] := by
  have hnone (key : String) (n : Nat) : ¬KeyAt [] key n := fun h => by cases h.2
  refine ⟨⟨[], .nil, fun n key => ?_, rfl⟩, .nil, fun key => ?_, ?_⟩
  · simp [Repeats, hnone]
  · simp [KeyIndex.empty, hnone]
  · simp [KeyIndex.empty, hnone]

/-- A row without a key changes nothing. -/
theorem concat_empty (h : Indexed column (KeyAt keys) index notices) :
    Indexed column (KeyAt (keys ++ [""])) index notices := by
  have hsame : KeyAt (keys ++ [""]) = KeyAt keys := by
    funext key n
    simp [keyAt_concat]
  rwa [hsame]

/-- A row with the key of an earlier one is reported. -/
theorem concat_mem (hlast : last ≠ "") (hmem : last ∈ keys)
    (h : Indexed column (KeyAt keys) index notices) :
    Indexed column (KeyAt (keys ++ [last])) index
      (notices ++ [.duplicateKey last column (keys.length + 1)]) := by
  obtain ⟨repeated, hsorted, hrepeated, hnotices⟩ := h.reported
  refine ⟨⟨repeated ++ [(keys.length, last)], ?_, fun n key => ?_, by simp [hnotices]⟩,
    h.distinct, fun key => ?_, ?_⟩
  · refine List.pairwise_append.mpr ⟨hsorted, List.pairwise_singleton _ _, ?_⟩
    rintro ⟨n, key⟩ hn _ hlast
    rw [List.mem_singleton.mp hlast]
    exact ((hrepeated n key).mp hn).1.lt_length
  · rw [List.mem_append, List.mem_singleton, hrepeated, repeats_keyAt_concat, Prod.mk.injEq]
    simp [hlast, hmem, and_comm]
  · rw [h.keys, exists_keyAt, exists_keyAt, List.mem_append, List.mem_singleton]
    aesop
  · rw [ncard_keyAt_concat hlast, ← h.count, List.length_append, List.length_singleton]
    omega

/-- A row with a new key is added. -/
theorem concat_new (hlast : last ≠ "") (hnew : last ∉ keys)
    (h : Indexed column (KeyAt keys) index notices) :
    Indexed column (KeyAt (keys ++ [last])) ⟨index.entries ++ [(last, keys.length)]⟩ notices := by
  obtain ⟨repeated, hsorted, hrepeated, hnotices⟩ := h.reported
  have hentries : (index.entries ++ [(last, keys.length)]).map Prod.fst =
      index.entries.map Prod.fst ++ [last] := List.map_append
  refine ⟨⟨repeated, hsorted, fun n key => ?_, hnotices⟩, ?_, fun key => ?_, ?_⟩
  · rw [hrepeated, repeats_keyAt_concat]
    simp [hnew]
  · rw [hentries, List.nodup_append]
    refine ⟨h.distinct, List.nodup_singleton _, ?_⟩
    rintro key hkey _ hlast rfl
    rw [h.keys, exists_keyAt, List.mem_singleton.mp hlast] at hkey
    exact hnew hkey.2
  · rw [hentries, List.mem_append, h.keys, exists_keyAt, exists_keyAt, List.mem_append]
    aesop
  · rw [ncard_keyAt_concat hlast, ← h.count, List.length_append, List.length_singleton]
    omega

/-- One more row extends the index, and what is reported of it comes last. -/
theorem extend (h : Indexed column (KeyAt keys) index notices) (last : String) :
    Indexed column (KeyAt (keys ++ [last])) (index.extend column keys.length last).value
      (notices ++ (index.extend column keys.length last).notices) := by
  unfold KeyIndex.extend
  by_cases hempty : last = ""
  · rw [if_pos hempty, hempty, Logged.value_pure, Logged.notices_pure, List.append_nil]
    exact h.concat_empty
  · have hfound : (index.row? last).isSome = true ↔ last ∈ keys := by
      have hmem : (index.row? last).isSome = true ↔ last ∈ index.entries.map Prod.fst := by
        simp [KeyIndex.row?]
      rw [hmem, h.keys, exists_keyAt]
      exact and_iff_right hempty
    by_cases hlast : last ∈ keys
    · rw [if_neg hempty, if_pos (hfound.mpr hlast)]
      exact h.concat_mem hempty hlast
    · rw [if_neg hempty, if_neg (mt hfound.mp hlast), Logged.value_pure, Logged.notices_pure,
        List.append_nil]
      exact h.concat_new hempty hlast

/-- The index that is made of a column has its keys, and reports each row that repeats one. -/
theorem build (column : String) (keys : List String) :
    Indexed column (KeyAt keys) (KeyIndex.build column keys).value
      (KeyIndex.build column keys).notices := by
  -- Rows are indexed from the first on, so that the last one extends what the others have made.
  induction keys using List.reverseRecOn with
  | nil => exact .nil column
  | append_singleton keys last ih =>
    have hconcat : KeyIndex.build column (keys ++ [last]) =
        KeyIndex.build column keys >>= fun index => index.extend column keys.length last := by
      simp [KeyIndex.build, List.zipIdx_append, List.foldlM_append]
    rw [hconcat]
    exact ih.extend last

end Indexed

end LedgerFields
