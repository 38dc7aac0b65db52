import LedgerFields.Delimited.Load
import LedgerFields.Proofs.Text.Trim
import Mathlib.Data.List.Nodup
import Mathlib.Data.Nat.Init

/-! The column names of a header. Each cell gets a name that no cell before it has: of its own name
and that with a number after it, one more than there are names before, at least one is free. So the
names of a header always make a table. -/

namespace LedgerFields.Delimited

variable {taken : List String} {base : String}

/-- The name with a number, which stands in for a name that is taken. -/
def numberedName (base : String) (n : Nat) : String := base ++ "." ++ toString (n + 1)

theorem numberedName_injective (base : String) : Function.Injective (numberedName base) := by
  intro m n h
  have hdigits := congrArg String.toList ((String.append_right_inj _).mp h)
  simp only [Nat.toString_eq_repr, Nat.toList_repr] at hdigits
  have hvalue := congrArg (Nat.ofDigitChars 10 · 0) hdigits
  simp only [Nat.ofDigitChars_ten_toDigits] at hvalue
  exact Nat.succ_injective hvalue

theorem numberedName_ne (base : String) (n : Nat) : base ≠ numberedName base n := by
  intro h
  have hlength := congrArg String.length h
  simp only [numberedName, String.length_append] at hlength
  have hdot : ".".length = 1 := by decide
  omega

/-- The names that are tried for a column, when `n` names are taken. -/
def triedNames (base : String) (n : Nat) : List String :=
  base :: (List.range n).map (numberedName base)

theorem freeName_eq (taken : List String) (base : String) :
    freeName taken base =
      ((triedNames base taken.length).find? fun name => !taken.contains name).getD base := rfl

theorem nodup_triedNames (base : String) (n : Nat) : (triedNames base n).Nodup := by
  refine List.nodup_cons.mpr ⟨fun hmem => ?_, List.nodup_range.map (numberedName_injective base)⟩
  obtain ⟨m, -, hm⟩ := List.mem_map.mp hmem
  exact numberedName_ne base m hm.symm

/-- Not all of the names that are tried are taken, since there are more of them. -/
theorem exists_free (taken : List String) (base : String) :
    ∃ name ∈ triedNames base taken.length, name ∉ taken := by
  by_contra h
  push Not at h
  have hle := (nodup_triedNames base taken.length).length_le_of_subset h
  rw [triedNames, List.length_cons, List.length_map, List.length_range] at hle
  omega

/-- The name of a column is one of those that are tried, and is not taken. -/
theorem freeName_spec (taken : List String) (base : String) :
    freeName taken base ∈ triedNames base taken.length ∧ freeName taken base ∉ taken := by
  rw [freeName_eq]
  cases hfind : (triedNames base taken.length).find? fun name => !taken.contains name with
  | some name =>
    have hfree := List.find?_some hfind
    exact ⟨List.mem_of_find?_eq_some hfind, by simpa using hfree⟩
  | none =>
    obtain ⟨name, hname, hfree⟩ := exists_free taken base
    have htaken := List.find?_eq_none.mp hfind name hname
    simp [hfree] at htaken

/-! ### Names that are fit for a table -/

/-- The name of a column is trimmed and says something. -/
structure Proper (name : String) : Prop where
  trimmed : Text.trim name = name
  ne_empty : name ≠ ""

theorem toString_nat_ne_empty (n : Nat) : toString n ≠ "" := by
  intro h
  have hchars := congrArg String.toList h
  rw [Nat.toString_eq_repr, Nat.toList_repr] at hchars
  exact Nat.toDigits_ne_nil hchars

/-- A text that starts with no blank is a proper name when a number follows it. -/
theorem proper_append_number {text : String} (hne : text ≠ "")
    (hstart : ∀ c ∈ text.toList.head?, Text.isBlank c = false) (n : Nat) :
    Proper (text ++ toString n) := by
  refine ⟨Text.trim_eq_self_iff.mpr ?_, fun h => hne (String.append_eq_empty_iff.mp h).1⟩
  have htext : text.toList ≠ [] := by simpa using hne
  have hnumber : (toString n).toList ≠ [] :=
    mt String.toList_eq_nil_iff.mp (toString_nat_ne_empty n)
  rw [String.toList_append, List.head?_append_of_ne_nil _ htext,
    List.getLast?_append_of_ne_nil _ hnumber]
  refine ⟨hstart, fun c hc => ?_⟩
  have hmem := List.mem_of_getLast? hc
  rw [Nat.toString_eq_repr, Nat.toList_repr] at hmem
  exact Text.not_isBlank_of_isDigit (Nat.isDigit_of_mem_toDigits (by decide) (by decide) hmem)

theorem Proper.numbered (h : Proper base) (n : Nat) : Proper (numberedName base n) := by
  refine proper_append_number (fun hempty => ?_) ?_ (n + 1)
  · exact h.ne_empty (String.append_eq_empty_iff.mp hempty).1
  · have hbase : base.toList ≠ [] := by simpa using h.ne_empty
    rw [String.toList_append, List.head?_append_of_ne_nil _ hbase]
    exact (Text.trim_eq_self_iff.mp h.trimmed).1

theorem Proper.freeName (h : Proper base) (taken : List String) :
    Proper (freeName taken base) := by
  rcases List.mem_cons.mp (freeName_spec taken base).1 with hname | hname
  · rwa [hname]
  · obtain ⟨n, -, hn⟩ := List.mem_map.mp hname
    rw [← hn]
    exact h.numbered n

theorem proper_baseName (position : Nat) (cell : String) : Proper (baseName position cell) := by
  unfold baseName
  by_cases hcell : Text.trim cell = ""
  · rw [if_pos hcell]
    have hstart : ∀ c ∈ "Unnamed: ".toList.head?, Text.isBlank c = false := by
      intro c hc
      obtain rfl : 'U' = c := by simpa using hc
      decide
    exact proper_append_number (by decide) hstart position
  · rw [if_neg hcell]
    exact ⟨Text.trim_trim cell, hcell⟩

/-! ### The names of a header, cell by cell -/

theorem value_addName (taken : List String) (entry : String × Nat) :
    (addName taken entry).value = taken ++ [freeName taken (baseName entry.2 entry.1)] := by
  unfold addName
  dsimp only
  split <;> rfl

/-- The last cell of a header gets its name after the others. -/
theorem columnNames_concat (header : List String) (cell : String) :
    columnNames (header ++ [cell]) =
      columnNames header >>= fun taken => addName taken (cell, header.length) := by
  simp [columnNames, List.zipIdx_append, List.foldlM_append]

/-- Every cell of a header gets a proper name, and no two names are equal. -/
theorem columnNames_spec (header : List String) :
    (columnNames header).value.length = header.length ∧ (columnNames header).value.Nodup ∧
      ∀ name ∈ (columnNames header).value, Proper name := by
  induction header using List.reverseRecOn with
  | nil => exact ⟨rfl, .nil, fun _ h => nomatch h⟩
  | append_singleton header cell ih =>
    obtain ⟨hlength, hdistinct, hproper⟩ := ih
    rw [columnNames_concat, Logged.value_bind, value_addName]
    refine ⟨by simp [hlength], ?_, ?_⟩
    · rw [← List.concat_eq_append]
      exact hdistinct.concat (freeName_spec _ _).2
    · intro name hname
      rcases List.mem_append.mp hname with hname | hname
      · exact hproper name hname
      · rw [List.mem_singleton.mp hname]
        exact (proper_baseName _ _).freeName _

end LedgerFields.Delimited
