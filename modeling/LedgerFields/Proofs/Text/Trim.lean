import LedgerFields.Text
import Mathlib.Data.List.DropRight

/-! Trimmed texts: what is trimmed, or has lost its blanks, stays as it is when it is trimmed. -/

namespace LedgerFields.Text

theorem trimChars_eq (cs : List Char) :
    trimChars cs = (cs.dropWhile isBlank).rdropWhile isBlank := rfl

/-- Trimmed characters neither start nor end with a blank. -/
theorem trimChars_trimChars (cs : List Char) : trimChars (trimChars cs) = trimChars cs := by
  have hstart : (trimChars cs).dropWhile isBlank = trimChars cs := by
    obtain ⟨more, hmore⟩ := List.rdropWhile_prefix isBlank (cs.dropWhile isBlank)
    rw [← trimChars_eq] at hmore
    cases hchars : trimChars cs with
    | nil => rfl
    | cons c rest =>
      have hc := List.head?_dropWhile_not isBlank cs
      rw [← hmore, hchars] at hc
      exact List.dropWhile_cons_of_neg (by simpa using hc)
  rw [trimChars_eq (trimChars cs), hstart, trimChars_eq, List.rdropWhile_idempotent]

/-- Blanks around characters do not count when they are trimmed. -/
theorem trimChars_append {before after : List Char} (hbefore : ∀ c ∈ before, isBlank c = true)
    (hafter : ∀ c ∈ after, isBlank c = true) (cs : List Char) :
    trimChars (before ++ (cs ++ after)) = trimChars cs := by
  have hdrop : after.dropWhile isBlank = [] := List.dropWhile_eq_nil_iff.mpr hafter
  have hreverse : ∀ c ∈ after.reverse, isBlank c = true := by simpa using hafter
  unfold trimChars
  rw [List.dropWhile_append_of_pos hbefore, List.dropWhile_append, hdrop]
  split
  · next hempty => rw [List.isEmpty_iff.mp hempty]
  · rw [List.reverse_append, List.dropWhile_append_of_pos hreverse]

@[simp] theorem trim_trim (s : String) : trim (trim s) = trim s := by
  unfold trim
  rw [String.toList_ofList, trimChars_trimChars]

/-- What is trimmed is what neither starts nor ends with a blank. -/
theorem trimChars_eq_self_iff {cs : List Char} : trimChars cs = cs ↔
    (∀ c ∈ cs.head?, isBlank c = false) ∧ ∀ c ∈ cs.getLast?, isBlank c = false := by
  have hstart : cs.dropWhile isBlank = cs ↔ ∀ c ∈ cs.head?, isBlank c = false := by
    cases cs with
    | nil => simp
    | cons c cs =>
      rw [List.dropWhile_eq_self_iff]
      simp
  have hend : cs.rdropWhile isBlank = cs ↔ ∀ c ∈ cs.getLast?, isBlank c = false := by
    rw [List.rdropWhile_eq_self_iff]
    constructor
    · intro h c hc
      obtain ⟨hne, rfl⟩ := List.mem_getLast?_eq_getLast hc
      simpa using h hne
    · intro h hne
      simp [h _ (List.getLast_mem_getLast? hne)]
  rw [← hstart, ← hend, trimChars_eq]
  constructor
  · intro h
    have hlength := (List.rdropWhile_prefix isBlank (cs.dropWhile isBlank)).length_le
    rw [h] at hlength
    have hdrop : cs.dropWhile isBlank = cs :=
      (List.dropWhile_suffix isBlank).sublist.eq_of_length_le hlength
    rw [hdrop] at h
    exact ⟨hdrop, h⟩
  · rintro ⟨hdrop, h⟩
    rw [hdrop, h]

theorem trim_eq_self_iff {s : String} : trim s = s ↔
    (∀ c ∈ s.toList.head?, isBlank c = false) ∧ ∀ c ∈ s.toList.getLast?, isBlank c = false := by
  rw [← trimChars_eq_self_iff, trim, ← String.toList_inj, String.toList_ofList]

theorem trim_of_not_isBlank {s : String} (h : ∀ c ∈ s.toList, isBlank c = false) : trim s = s :=
  trim_eq_self_iff.mpr ⟨fun c hc => h c (List.mem_of_mem_head? hc),
    fun c hc => h c (List.mem_of_getLast? hc)⟩

theorem trimChars_eq_nil_iff {cs : List Char} : trimChars cs = [] ↔ ∀ c ∈ cs, isBlank c = true := by
  constructor
  · intro h
    rw [trimChars_eq, List.rdropWhile_eq_nil_iff] at h
    rw [← List.takeWhile_append_dropWhile (p := isBlank) (l := cs)]
    exact List.forall_mem_append.mpr ⟨fun c hc => List.mem_takeWhile_imp hc, h⟩
  · intro h
    rw [trimChars, List.dropWhile_eq_nil_iff.mpr h]
    rfl

/-- Trimming keeps blank texts blank and others not. -/
@[simp] theorem isBlankText_trim (s : String) : isBlankText (trim s) = isBlankText s := by
  have hiff (s : String) : isBlankText s = true ↔ trimChars s.toList = [] := by
    rw [trimChars_eq_nil_iff, isBlankText, List.all_eq_true]
  rw [Bool.eq_iff_iff, hiff, hiff, trim, String.toList_ofList, trimChars_trimChars]

theorem isBlankText_append (s s' : String) :
    isBlankText (s ++ s') = (isBlankText s && isBlankText s') := by
  simp [isBlankText]

theorem not_isBlankText_of_trim {s : String} (h : trim s ≠ "") : isBlankText s = false := by
  by_contra hblank
  have hdrop : s.toList.dropWhile isBlank = [] := by
    simpa [isBlankText] using hblank
  apply h
  rw [trim, trimChars, hdrop]
  rfl

theorem toList_dropBlanks (s : String) :
    (dropBlanks s).toList = s.toList.filter fun c => !isBlank c :=
  String.toList_ofList

@[simp] theorem trim_dropBlanks (s : String) : trim (dropBlanks s) = dropBlanks s := by
  refine trim_of_not_isBlank fun c hc => ?_
  rw [toList_dropBlanks, List.mem_filter, Bool.not_eq_true'] at hc
  exact hc.2

theorem dropBlanks_eq_self_iff {s : String} :
    dropBlanks s = s ↔ ∀ c ∈ s.toList, isBlank c = false := by
  rw [← String.toList_inj, toList_dropBlanks, List.filter_eq_self]
  simp only [Bool.not_eq_true']

/-- Only a text of blanks loses all its characters with them. -/
theorem isBlankText_dropBlanks (s : String) : isBlankText (dropBlanks s) = isBlankText s := by
  unfold isBlankText
  rw [toList_dropBlanks, List.all_filter, Bool.eq_iff_iff, List.all_eq_true, List.all_eq_true]
  simp

theorem not_isBlank_of_isDigit {c : Char} (h : c.isDigit = true) : isBlank c = false := by
  rw [Char.isDigit_iff_toNat] at h
  have hbounds : '0'.toNat = 48 ∧ '9'.toNat = 57 := by decide
  simp only [isBlank, blankRanges, List.any_cons, List.any_nil, Bool.or_false,
    Bool.or_eq_false_iff, decide_eq_false_iff_not, Bool.and_eq_false_iff]
  omega

end LedgerFields.Text
