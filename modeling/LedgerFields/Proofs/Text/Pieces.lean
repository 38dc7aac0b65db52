import LedgerFields.Text
import Mathlib.Data.List.TakeWhile

/-! The pieces of a text between separators. None of them holds the separator, so that texts which
were joined by it are its pieces just when they hold none. -/

namespace LedgerFields.Text

section

variable {α : Type} [BEq α] [LawfulBEq α] {x : α} {piece xs : List α}

theorem not_mem_of_mem_splitOn (h : piece ∈ xs.splitOn x) : x ∉ piece := by
  induction hlength : xs.length using Nat.strongRecOn generalizing xs with
  | ind n ih =>
    by_cases hx : x ∈ xs
    · obtain ⟨before, after, rfl, hbefore⟩ := List.eq_append_cons_of_mem hx
      rw [List.splitOn_append_cons_self_of_not_mem hbefore, List.mem_cons] at h
      rcases h with rfl | h
      · exact hbefore
      · refine ih after.length ?_ h rfl
        rw [← hlength, List.length_append, List.length_cons]
        omega
    · rw [List.splitOn_eq_singleton hx, List.mem_singleton] at h
      rwa [h]

end

variable {separator : Char} {s piece : String}

theorem pieces_of_not_mem (h : separator ∉ s.toList) : pieces separator s = [s] := by
  rw [pieces, List.splitOn_eq_singleton h, List.map_singleton, String.ofList_toList]

/-- The first piece ends at the first separator. -/
theorem pieces_append {before after : List Char} (h : separator ∉ before) :
    pieces separator (String.ofList (before ++ separator :: after)) =
      String.ofList before :: pieces separator (String.ofList after) := by
  rw [pieces, String.toList_ofList, List.splitOn_append_cons_self_of_not_mem h, List.map_cons,
    pieces, String.toList_ofList]

theorem not_mem_of_mem_pieces (h : piece ∈ pieces separator s) : separator ∉ piece.toList := by
  obtain ⟨cs, hcs, rfl⟩ := List.mem_map.mp h
  rw [String.toList_ofList]
  exact not_mem_of_mem_splitOn hcs

/-- Texts that are joined by a separator are the pieces of what they are joined to, provided that
none of them holds it. -/
theorem pieces_intercalate_iff {texts : List String} (hne : texts ≠ []) :
    pieces separator (separator.toString.intercalate texts) = texts ↔
      ∀ text ∈ texts, separator ∉ text.toList := by
  constructor
  · intro h text htext
    rw [← h] at htext
    exact not_mem_of_mem_pieces htext
  · intro h
    have hchars : (separator.toString.intercalate texts).toList =
        [separator].intercalate (texts.map String.toList) := by
      rw [String.toList_intercalate, Char.toString_eq_singleton, String.toList_singleton]
    have hnot : ∀ cs ∈ texts.map String.toList, separator ∉ cs := by
      simpa only [List.forall_mem_map] using h
    rw [pieces, hchars, List.splitOn_intercalate separator hnot (by simpa using hne), List.map_map]
    exact (List.map_congr_left fun text _ => String.ofList_toList).trans (List.map_id _)

/-! ### The first separator -/

theorem toList_of_splitOnce? {before after : String}
    (h : splitOnce? separator s = some (before, after)) :
    s.toList = before.toList ++ separator :: after.toList := by
  unfold splitOnce? at h
  split at h
  · cases h
  · next c rest hdrop =>
    cases h
    have hc : c = separator := by
      have hhead := List.head?_dropWhile_not (· != separator) s.toList
      rw [hdrop] at hhead
      simpa using hhead
    rw [hc] at hdrop
    rw [String.toList_ofList, String.toList_ofList, ← hdrop]
    exact List.takeWhile_append_dropWhile.symm

end LedgerFields.Text
