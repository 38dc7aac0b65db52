import Mathlib.Data.List.Basic
import Mathlib.Data.List.Infix

/-! How deeply a text or a list of tokens nests: the parentheses that are open after any start of
it are those opened less those closed. -/

namespace LedgerFields.Formula

variable {α : Type} [DecidableEq α]

/-- After every start of `xs`, at most `limit` of the `opening` ones are not closed yet. -/
def OpenAtMost (opening closing : α) (limit : Nat) (xs : List α) : Prop :=
  ∀ start ∈ xs.inits, start.count opening ≤ start.count closing + limit

instance (opening closing : α) (limit : Nat) (xs : List α) :
    Decidable (OpenAtMost opening closing limit xs) :=
  inferInstanceAs (Decidable (∀ start ∈ xs.inits, _))

namespace OpenAtMost

variable {opening closing : α} {limit : Nat} {xs ys : List α}

theorem of_prefix (h : OpenAtMost opening closing limit xs) {start : List α}
    (hstart : start <+: xs) : start.count opening ≤ start.count closing + limit :=
  h start ((List.mem_inits start xs).mpr hstart)

theorem nil : OpenAtMost opening closing limit ([] : List α) := by
  intro start hstart
  obtain rfl : start = [] := by simpa using hstart
  simp

/-- One more at the end opens too many only by itself. -/
theorem concat {x : α} (h : OpenAtMost opening closing limit xs)
    (hx : (xs ++ [x]).count opening ≤ (xs ++ [x]).count closing + limit) :
    OpenAtMost opening closing limit (xs ++ [x]) := by
  intro start hstart
  rcases List.prefix_concat_iff.mp ((List.mem_inits _ _).mp hstart) with rfl | hstart
  · simpa using hx
  · exact h.of_prefix hstart

theorem left (h : OpenAtMost opening closing limit (xs ++ ys)) :
    OpenAtMost opening closing limit xs :=
  fun _ hstart => h.of_prefix (((List.mem_inits _ _).mp hstart).trans (List.prefix_append xs ys))

/-- After a start that closes as much as it opens, the rest nests as if it stood alone. -/
theorem right (h : OpenAtMost opening closing limit (xs ++ ys))
    (hxs : xs.count opening = xs.count closing) : OpenAtMost opening closing limit ys := by
  intro start hstart
  have := h.of_prefix ((List.prefix_append_right_inj xs).mpr ((List.mem_inits _ _).mp hstart))
  simp only [List.count_append] at this
  omega

theorem append (hxs : OpenAtMost opening closing limit xs)
    (hys : OpenAtMost opening closing limit ys)
    (hbalanced : xs.count opening = xs.count closing) :
    OpenAtMost opening closing limit (xs ++ ys) := by
  intro start hstart
  have hstart := (List.mem_inits _ _).mp hstart
  rcases List.prefix_or_prefix_of_prefix hstart (List.prefix_append xs ys) with h | ⟨rest, rfl⟩
  · exact hxs.of_prefix h
  · have := hys.of_prefix ((List.prefix_append_right_inj xs).mp hstart)
    simp only [List.count_append]
    omega

end OpenAtMost

variable {opening closing : α} {limit : Nat} {xs : List α}

theorem openAtMost_cons {x : α} : OpenAtMost opening closing limit (x :: xs) ↔
    ∀ start, start <+: xs →
      (x :: start).count opening ≤ (x :: start).count closing + limit := by
  constructor
  · intro h start hstart
    exact h.of_prefix (List.cons_prefix_cons.mpr ⟨rfl, hstart⟩)
  · intro h start hstart
    rcases start with _ | ⟨y, start⟩
    · simp
    · obtain ⟨rfl, hrest⟩ := List.cons_prefix_cons.mp ((List.mem_inits _ _).mp hstart)
      exact h start hrest

/-- No more can be open than there are elements. -/
theorem openAtMost_of_length_le (h : xs.length ≤ limit) : OpenAtMost opening closing limit xs := by
  intro start hstart
  have hcount := List.count_le_length (a := opening) (l := start)
  have hlength := ((List.mem_inits _ _).mp hstart).length_le
  omega

/-- After a part that closes what it opens, the next one nests as if it stood alone. -/
theorem openAtMost_append {ys : List α} (hxs : xs.count opening = xs.count closing) :
    OpenAtMost opening closing limit (xs ++ ys) ↔
      OpenAtMost opening closing limit xs ∧ OpenAtMost opening closing limit ys :=
  ⟨fun h => ⟨h.left, h.right hxs⟩, fun h => h.1.append h.2 hxs⟩

theorem openAtMost_opening_cons (hne : opening ≠ closing) :
    OpenAtMost opening closing limit (opening :: xs) ↔
      1 ≤ limit ∧ OpenAtMost opening closing (limit - 1) xs := by
  rw [openAtMost_cons]
  constructor
  · intro h
    have hlimit : 1 ≤ limit := by
      have := h [] (List.nil_prefix)
      simpa [List.count_cons, hne] using this
    refine ⟨hlimit, fun start hstart => ?_⟩
    have := h start ((List.mem_inits _ _).mp hstart)
    simp only [List.count_cons_self, List.count_cons_of_ne hne] at this
    omega
  · rintro ⟨hlimit, h⟩ start hstart
    have := h.of_prefix hstart
    simp only [List.count_cons_self, List.count_cons_of_ne hne]
    omega

theorem openAtMost_closing_cons (hne : opening ≠ closing) :
    OpenAtMost opening closing limit (closing :: xs) ↔
      OpenAtMost opening closing (limit + 1) xs := by
  rw [openAtMost_cons]
  constructor
  · intro h start hstart
    have := h start ((List.mem_inits _ _).mp hstart)
    simp only [List.count_cons_self, List.count_cons_of_ne hne.symm] at this
    omega
  · intro h start hstart
    have := h.of_prefix hstart
    simp only [List.count_cons_self, List.count_cons_of_ne hne.symm]
    omega

/-- What neither opens nor closes anything can be left out. -/
theorem openAtMost_append_of_not_mem {word : List α} (hopening : opening ∉ word)
    (hclosing : closing ∉ word) :
    OpenAtMost opening closing limit (word ++ xs) ↔ OpenAtMost opening closing limit xs := by
  have hbalanced : word.count opening = word.count closing := by
    rw [List.count_eq_zero_of_not_mem hopening, List.count_eq_zero_of_not_mem hclosing]
  constructor
  · intro h
    exact h.right hbalanced
  · intro h
    refine OpenAtMost.append (fun start hstart => ?_) h hbalanced
    have hmem : opening ∉ start := fun hmem =>
      hopening (((List.mem_inits _ _).mp hstart).subset hmem)
    simp [List.count_eq_zero_of_not_mem hmem]

theorem openAtMost_cons_of_ne {x : α} (hopening : x ≠ opening) (hclosing : x ≠ closing) :
    OpenAtMost opening closing limit (x :: xs) ↔ OpenAtMost opening closing limit xs := by
  rw [← List.singleton_append]
  exact openAtMost_append_of_not_mem (by simp [hopening.symm]) (by simp [hclosing.symm])

end LedgerFields.Formula
