import LedgerFields.Proofs.Delimited.Unique
import Mathlib.Order.Bounds.Basic

/-! The numbers of repeated column names. The search for a name goes from number to number without a
bound of its own; it ends since only finitely many names are taken, and then with the least number
that is free. A column that gets another name than its cell asks for is reported. -/

namespace LedgerFields.Delimited

variable {taken : List String} {base name found : String} {next number : Nat}

/-- The search for a name that is not taken ends with `found`, when it stands at `name`: one that is
taken gives way to the base with the number `next`, and that to the one with the number after it. -/
inductive Searches (taken : List String) (base : String) :
    (next : Nat) → (name found : String) → Prop where
  | free {next : Nat} {name : String} : name ∉ taken → Searches taken base next name name
  | taken {next : Nat} {name found : String} : name ∈ taken →
      Searches taken base (next + 1) (base ++ "." ++ toString next) found →
      Searches taken base next name found

theorem Searches.unique (h : Searches taken base next name found) :
    ∀ found', Searches taken base next name found' → found' = found := by
  induction h with
  | free hfree =>
    intro found' h'
    cases h' with
    | free => rfl
    | taken htaken => exact absurd htaken hfree
  | taken htaken _ ih =>
    intro found' h'
    cases h' with
    | free hfree => exact absurd htaken hfree
    | taken _ hrest => exact ih found' hrest

/-- The number is the least, from one on, with which the base is not taken. -/
def LeastFree (taken : List String) (base : String) (number : Nat) : Prop :=
  IsLeast {number | 1 ≤ number ∧ base ++ "." ++ toString number ∉ taken} number

/-- The search passes over the numbers that are taken. -/
theorem LeastFree.searches (h : LeastFree taken base number) (hname : name ∈ taken)
    (hpos : 1 ≤ next) (hle : next ≤ number) :
    Searches taken base next name (base ++ "." ++ toString number) := by
  induction hsteps : number - next generalizing next name with
  | zero =>
    obtain rfl : next = number := by omega
    exact .taken hname (.free h.1.2)
  | succ steps ih =>
    refine .taken hname (ih ?_ (by omega) (by omega) (by omega))
    by_contra hfree
    have := h.2 ⟨hpos, hfree⟩
    omega

/-- A name that is taken gets the least number that is free. -/
theorem exists_leastFree (h : base ∈ taken) :
    ∃ number, LeastFree taken base number ∧
      freeName taken base = base ++ "." ++ toString number := by
  have hfind : freeName taken base = (((List.range taken.length).find? fun n =>
      !taken.contains (numberedName base n)).map (numberedName base)).getD base := by
    rw [freeName_eq, triedNames, List.find?_cons_of_neg (by simpa using h), List.find?_map]
    rfl
  cases hnumber : (List.range taken.length).find? fun n =>
      !taken.contains (numberedName base n) with
  | none =>
    rw [hnumber] at hfind
    exact absurd (hfind ▸ h) (freeName_spec taken base).2
  | some n =>
    rw [hnumber] at hfind
    obtain ⟨hfree, -, hbefore⟩ := List.find?_range_eq_some.mp hnumber
    have hfree' : numberedName base n ∉ taken := by simpa using hfree
    refine ⟨n + 1, ⟨⟨Nat.le_add_left 1 n, hfree'⟩, ?_⟩, hfind⟩
    rintro number ⟨hpos, hnumber⟩
    by_contra hlt
    have htaken := hbefore (number - 1) (by omega)
    rw [numberedName, Nat.sub_add_cancel hpos] at htaken
    exact hnumber (by simpa using htaken)

/-- The name of a column that asks for `base` when the columns before it have the names `taken`. -/
structure NameFor (taken : List String) (base name : String) : Prop where
  search : ∀ found, Searches taken base 1 base found ↔ found = name
  kept : base ∉ taken → name = base
  numbered : base ∈ taken →
    ∃ number, LeastFree taken base number ∧ name = base ++ "." ++ toString number

theorem nameFor_freeName (taken : List String) (base : String) :
    NameFor taken base (freeName taken base) := by
  have hsearches : Searches taken base 1 base (freeName taken base) := by
    by_cases h : base ∈ taken
    · obtain ⟨number, hleast, hname⟩ := exists_leastFree h
      rw [hname]
      exact hleast.searches h le_rfl hleast.1.1
    · rw [freeName_of_not_mem h]
      exact .free h
  refine ⟨fun found => ⟨hsearches.unique found, ?_⟩, freeName_of_not_mem, exists_leastFree⟩
  rintro rfl
  exact hsearches

/-! ### Reports -/

/-- The reports of the columns that have other names than they ask for. -/
def renamings (bases names : List String) : List Notice :=
  ((bases.zip names).filter fun (base, name) => name ≠ base).map fun (base, name) =>
    .renamedColumn base name

theorem notices_addName (taken : List String) (cell : String) (position : Nat) :
    (addName taken (cell, position)).notices =
      renamings [baseName position cell] [freeName taken (baseName position cell)] := by
  unfold addName renamings
  dsimp only
  split
  · next hne =>
    rw [Logged.notices_bind, Logged.notices_pure, List.append_nil]
    simp [Logged.note, hne]
  · next heq => simp [not_not.mp heq]

theorem notices_columnNames (header : List String) : (columnNames header).notices =
    renamings (header.mapIdx baseName) (columnNames header).value := by
  induction header using List.reverseRecOn with
  | nil => rfl
  | append_singleton header cell ih =>
    have hlength : (header.mapIdx baseName).length = (columnNames header).value.length := by
      rw [List.length_mapIdx, (columnNames_spec header).1]
    rw [columnNames_concat, Logged.notices_bind, Logged.value_bind, value_addName, ih,
      notices_addName, List.mapIdx_concat]
    simp only [renamings, List.zip_append hlength, List.filter_append, List.map_append]

/-- Every header cell gets a name, and no two of them the same. It is the name that the cell asks
for, unless a column before has it: then it is that with the least number from one on that makes it
new, with which the search for it ends. The columns that have other names than their cells ask for
are reported, from left to right. -/
theorem columnNames_least_free (header : List String) :
    (columnNames header).value.length = header.length ∧ (columnNames header).value.Nodup ∧
      (∀ position cell, header[position]? = some cell → ∃ name,
        (columnNames header).value[position]? = some name ∧
          NameFor ((columnNames header).value.take position) (baseName position cell) name) ∧
      (columnNames header).notices =
        renamings (header.mapIdx baseName) (columnNames header).value := by
  obtain ⟨hlength, hdistinct, -⟩ := columnNames_spec header
  refine ⟨hlength, hdistinct, fun position cell hcell => ?_, notices_columnNames header⟩
  exact ⟨_, getElem?_columnNames hcell, nameFor_freeName _ _⟩

/-- A name that another column has made up is passed over, and so is one that a cell says itself. -/
example : (columnNames ["fee", "fee.1", " fee ", "", "fee"]).notices =
    [.renamedColumn "fee" "fee.2", .renamedColumn "fee" "fee.3"] := by
  decide +kernel

end LedgerFields.Delimited
