import LedgerFields.Table
import Mathlib.Data.List.Basic
import Mathlib.Order.Bounds.Basic

/-! The key index of a column answers as a search through the keys from the first row on: it is made
in one pass that keeps the first row of each key and leaves out the empty text. -/

namespace LedgerFields

/-- Folding a step over a list reports notices, and its value is the fold of the steps' values. -/
theorem Logged.value_foldlM {α β : Type} (f : β → α → Logged β) (xs : List α) (b : β) :
    (xs.foldlM f b).value = xs.foldl (fun b x => (f b x).value) b := by
  induction xs generalizing b with
  | nil => rfl
  | cons x xs ih =>
    rw [List.foldlM_cons, Logged.value_bind, ih]
    rfl

/-- The number of the first of the keys, one for each row, that is this key; the empty text is none.
-/
def firstRow? (keys : List String) (key : String) : Option Nat :=
  keys.findIdx? fun k => k ≠ "" ∧ k = key

theorem firstRow?_cons (first : String) (keys : List String) (key : String) :
    firstRow? (first :: keys) key =
      if first ≠ "" ∧ first = key then some 0 else (firstRow? keys key).map (· + 1) := by
  simp [firstRow?, List.findIdx?_cons]

theorem firstRow?_eq_none {keys : List String} {key : String} :
    firstRow? keys key = none ↔ ∀ n : Nat, ¬(key ≠ "" ∧ keys[n]? = some key) := by
  unfold firstRow?
  rw [List.findIdx?_eq_none_iff]
  constructor
  · rintro h n ⟨hne, hn⟩
    have hkey := h key (List.mem_of_getElem? hn)
    simp [hne] at hkey
  · intro h k hk
    obtain ⟨n, hn⟩ := List.getElem?_of_mem hk
    by_contra hfound
    simp only [Bool.not_eq_false, decide_eq_true_eq] at hfound
    obtain ⟨hne, rfl⟩ := hfound
    exact h n ⟨hne, hn⟩

/-- The first row of a key is the least number among those of the rows that have it. -/
theorem firstRow?_eq_some {keys : List String} {key : String} {n : Nat} :
    firstRow? keys key = some n ↔ IsLeast {n : Nat | key ≠ "" ∧ keys[n]? = some key} n := by
  unfold firstRow?
  rw [List.findIdx?_eq_some_iff_getElem]
  simp only [decide_eq_true_eq]
  constructor
  · rintro ⟨hlength, ⟨hne, hkey⟩, hleast⟩
    refine ⟨⟨hkey ▸ hne, List.getElem?_eq_some_iff.mpr ⟨hlength, hkey⟩⟩, ?_⟩
    rintro m ⟨hne', hm⟩
    obtain ⟨_, hm⟩ := List.getElem?_eq_some_iff.mp hm
    by_contra hlt
    exact hleast m (Nat.lt_of_not_le hlt) ⟨hm.symm ▸ hne', hm⟩
  · rintro ⟨⟨hne, hn⟩, hleast⟩
    obtain ⟨hlength, hkey⟩ := List.getElem?_eq_some_iff.mp hn
    refine ⟨hlength, ⟨hkey.symm ▸ hne, hkey⟩, fun m hm hfound => ?_⟩
    have hle := hleast ⟨hne, List.getElem?_eq_some_iff.mpr ⟨_, hfound.2⟩⟩
    omega

namespace KeyIndex

/-- An extended index finds what it found before, and the new row by its key. -/
theorem row?_extend (column : String) (index : KeyIndex) (row : Nat) (key k : String) :
    (index.extend column row key).value.row? k =
      (index.row? k).or (if key ≠ "" ∧ key = k then some row else none) := by
  unfold extend
  by_cases hempty : key = ""
  · simp [hempty]
  · by_cases hfound : (index.row? key).isSome
    · rw [if_neg hempty, if_pos hfound]
      show index.row? k = _
      by_cases hk : key = k
      · obtain ⟨row', hrow'⟩ := Option.isSome_iff_exists.mp hfound
        rw [← hk, hrow', Option.some_or]
      · simp [hk]
    · rw [if_neg hempty, if_neg hfound]
      show (index.entries ++ [(key, row)]).lookup k = _
      rw [List.lookup_append]
      by_cases hk : key = k
      · simp [row?, hempty, ← hk]
      · simp [row?, hk, List.lookup_cons, beq_false_of_ne (Ne.symm hk)]

theorem row?_foldl (column : String) (keys : List String) (index : KeyIndex) (row : Nat)
    (key : String) :
    ((keys.zipIdx row).foldl (fun index entry => (index.extend column entry.2 entry.1).value)
        index).row? key = (index.row? key).or ((firstRow? keys key).map (· + row)) := by
  induction keys generalizing index row with
  | nil => simp [firstRow?]
  | cons first keys ih =>
    rw [List.zipIdx_cons, List.foldl_cons, ih, row?_extend, Option.or_assoc]
    congr 1
    rw [firstRow?_cons]
    split
    · simp
    · rw [Option.none_or, Option.map_map]
      congr 1
      funext n
      simp only [Function.comp_apply]
      omega

/-- Looking a key up in the index of a column is searching for its first row. -/
theorem row?_build (column : String) (keys : List String) (key : String) :
    (build column keys).value.row? key = firstRow? keys key := by
  unfold build
  rw [Logged.value_foldlM, row?_foldl]
  simp [row?, empty]

end KeyIndex

end LedgerFields
