import LedgerFields.Proofs.Report.Independence
import LedgerFields.Proofs.Text.Pieces

/-! The ids of results. An entry bears the id of its item, except that of a text the flag of the
document leaves the side that it asks for, in an id as in any setting. So two items with different
ids bear the same one just when their ids are texts with the same side. -/

namespace LedgerFields.Report

/-- What is left of a text when a document has the flag: what stands before the first separator, or
what stands between it and the next one or the end; a text without the separator is left whole. -/
inductive SideOf (separator : Char) (text : String) : Bool → String → Prop
  | whole {flag : Bool} : separator ∉ text.toList → SideOf separator text flag text
  | first {before after : List Char} : text.toList = before ++ separator :: after →
      separator ∉ before → SideOf separator text false (String.ofList before)
  | last {before after : List Char} : text.toList = before ++ separator :: after →
      separator ∉ before → separator ∉ after → SideOf separator text true (String.ofList after)
  | middle {before middle after : List Char} :
      text.toList = before ++ separator :: (middle ++ separator :: after) →
      separator ∉ before → separator ∉ middle →
      SideOf separator text true (String.ofList middle)

namespace SideOf

variable {separator : Char} {text shown : String} {flag : Bool} {before after : List Char}

theorem side_eq_self (h : separator ∉ text.toList) : Document.side separator flag text = text := by
  unfold Document.side
  rw [if_neg (by simpa using h)]

/-- The side of a text with the separator, from the piece before it and those after it. -/
theorem side_append (htext : text.toList = before ++ separator :: after)
    (hbefore : separator ∉ before) : Document.side separator flag text =
      ((String.ofList before ::
        Text.pieces separator (String.ofList after))[if flag then 1 else 0]?).getD "" := by
  have hmem : text.toList.contains separator = true := by
    simp [htext]
  have htext' : text = String.ofList (before ++ separator :: after) := by
    rw [← htext, String.ofList_toList]
  unfold Document.side
  rw [if_pos hmem, htext', Text.pieces_append hbefore]

/-- A text has no other side than the one that is chosen. -/
theorem eq_side (h : SideOf separator text flag shown) :
    Document.side separator flag text = shown := by
  cases h with
  | whole hnot => exact side_eq_self hnot
  | first htext hbefore => exact side_append htext hbefore
  | last htext hbefore hafter =>
    rw [side_append htext hbefore,
      Text.pieces_of_not_mem (by rwa [String.toList_ofList])]
    rfl
  | middle htext hbefore hmiddle =>
    rw [side_append htext hbefore, Text.pieces_append hmiddle]
    rfl

/-- Every text has a side. -/
theorem exists_sideOf (separator : Char) (text : String) (flag : Bool) :
    ∃ shown, SideOf separator text flag shown := by
  by_cases hmem : separator ∈ text.toList
  · obtain ⟨before, after, htext, hbefore⟩ := List.eq_append_cons_of_mem hmem
    cases flag with
    | false => exact ⟨_, .first htext hbefore⟩
    | true =>
      by_cases hafter : separator ∈ after
      · obtain ⟨middle, rest, rfl, hmiddle⟩ := List.eq_append_cons_of_mem hafter
        exact ⟨_, .middle htext hbefore hmiddle⟩
      · exact ⟨_, .last htext hbefore hafter⟩
  · exact ⟨_, .whole hmem⟩

theorem iff_eq_side :
    SideOf separator text flag shown ↔ Document.side separator flag text = shown := by
  refine ⟨eq_side, ?_⟩
  rintro rfl
  obtain ⟨shown, hshown⟩ := exists_sideOf separator text flag
  rwa [hshown.eq_side]

end SideOf

/-- The id that an item of a document has. -/
def itemId? : Json → Option Json
  | .object settings => Json.member? settings SettingKey.id.name
  | _ => none

/-- The id that an entry bears. -/
def Entry.id? : Entry → Option Json
  | field id _ => some id
  | aborted _ => none

/-- The entry of an item with this id may bear that one: the id itself, or the side that the flag of
the document leaves of a text. -/
inductive BearsId (separator : Char) (special : Option Bool) : Json → Json → Prop
  | same {id : Json} : (special = none ∨ ∀ text, id ≠ .string text) →
      BearsId separator special id id
  | side {flag : Bool} {text shown : String} : special = some flag →
      SideOf separator text flag shown →
      BearsId separator special (.string text) (.string shown)

section

variable {separator : Char} {special : Option Bool} {id id' shown : Json}

theorem bearsId_iff : BearsId separator special id shown ↔
    Document.chosen separator special id = shown := by
  constructor
  · rintro (hsame | ⟨rfl, hside⟩)
    · rcases hsame with rfl | htext
      · rfl
      · obtain ⟨text, _, rfl, -⟩ | ⟨-, hchosen⟩ := Document.chosen_eq separator special id
        · exact absurd rfl (htext text)
        · exact hchosen
    · exact congrArg Json.string hside.eq_side
  · rintro rfl
    cases special with
    | none => exact .same (.inl rfl)
    | some flag =>
      obtain ⟨text, _, rfl, -⟩ | ⟨htext, hchosen⟩ := Document.chosen_eq separator (some flag) id
      · exact .side rfl (SideOf.iff_eq_side.mpr rfl)
      · rw [hchosen]
        exact .same (.inr htext)

/-- The ids are texts of which the flag of the document leaves the same. -/
def SameSide (separator : Char) (special : Option Bool) (id id' : Json) : Prop :=
  ∃ flag text text' shown, special = some flag ∧ id = .string text ∧ id' = .string text' ∧
    SideOf separator text flag shown ∧ SideOf separator text' flag shown

/-- A text that is left whole is the id of an item in a document without the flag. -/
theorem ne_some_of_whole {text : String} {flag : Bool}
    (h : special = none ∨ ∀ text', Json.string text ≠ .string text') : special ≠ some flag := by
  rcases h with rfl | htext
  · exact (Option.some_ne_none _).symm
  · exact absurd rfl (htext text)

/-- Different ids come to the same when they are texts with the same side. -/
theorem exists_bearsId_iff (hne : id ≠ id') :
    (∃ shown, BearsId separator special id shown ∧ BearsId separator special id' shown) ↔
      SameSide separator special id id' := by
  constructor
  · rintro ⟨shown, h, h'⟩
    cases h with
    | same hsame =>
      cases h' with
      | same _ => exact absurd rfl hne
      | side hspecial _ => exact absurd hspecial (ne_some_of_whole hsame)
    | side hspecial hside =>
      cases h' with
      | same hsame => exact absurd hspecial (ne_some_of_whole hsame)
      | side hspecial' hside' =>
        cases hspecial.symm.trans hspecial'
        exact ⟨_, _, _, _, hspecial, rfl, rfl, hside, hside'⟩
  · rintro ⟨flag, text, text', shown, hspecial, rfl, rfl, hside, hside'⟩
    exact ⟨_, .side hspecial hside, .side hspecial hside'⟩

end

theorem readField_id {procedure : Procedure} {separator : Char} {special : Option Bool}
    {item : Json} {field : Field}
    (h : Document.readField procedure separator special item = .ok field) :
    ∃ id, itemId? item = some id ∧ BearsId separator special id field.id := by
  obtain ⟨settings, id, keyColumn, content, rfl, hid, -, -, rfl⟩ := Document.readField_eq_ok.mp h
  rw [Document.required_eq_ok, Document.member?_chooseSides, Option.map_eq_some_iff] at hid
  obtain ⟨written, hwritten, hchosen⟩ := hid
  exact ⟨written, hwritten, bearsId_iff.mpr hchosen⟩

/-- The entry bears the id of the item. -/
def BearsIdOf (separator : Char) (special : Option Bool) (item : Procedure × Json)
    (entry : Entry) : Prop :=
  ∃ id shown, itemId? item.2 = some id ∧ entry.id? = some shown ∧
    BearsId separator special id shown

section

variable {options : Options} {t : Table} {d : Document} {entries : List Entry}
  {separator : Char} {special : Option Bool} {item item' : Procedure × Json} {entry entry' : Entry}
  {id id' : Json}

theorem bearsIdOf_computeDocument (ht : t.Sound)
    (h : (computeDocument options t d).run.value = .ok entries) :
    List.Forall₂ (BearsIdOf options.sideSeparator d.special?) d.items entries := by
  refine (forall₂_computeDocument ht h).imp fun item entry hentry => ?_
  obtain ⟨field, hfield, rfl⟩ := hentry
  obtain ⟨id, hid, hbears⟩ := readField_id hfield
  exact ⟨id, field.id, hid, rfl, hbears⟩

theorem BearsIdOf.id?_eq_iff (h : BearsIdOf separator special item entry)
    (h' : BearsIdOf separator special item' entry') (hid : itemId? item.2 = some id)
    (hid' : itemId? item'.2 = some id') (hne : id ≠ id') :
    entry.id? = entry'.id? ↔ SameSide separator special id id' := by
  obtain ⟨_, shown, hwritten, hshown, hbears⟩ := h
  obtain ⟨_, shown', hwritten', hshown', hbears'⟩ := h'
  cases hid.symm.trans hwritten
  cases hid'.symm.trans hwritten'
  rw [hshown, hshown', Option.some.injEq, ← exists_bearsId_iff hne]
  constructor
  · rintro rfl
    exact ⟨shown, hbears, hbears'⟩
  · rintro ⟨common, hcommon, hcommon'⟩
    rw [bearsId_iff] at hbears hbears' hcommon hcommon'
    rw [← hbears, ← hbears', hcommon, hcommon']

/-- The entries of a computed document bear the ids of its items, one for each and in their order.
An id is as the document has it unless the document has the flag and the id is a text; then the side
is left that the flag asks for. Items with different ids bear the same one just when there is such a
side that both have, so never when the document has no flag, when one of the ids is no text, or when
neither of them holds the separator. -/
theorem ids_shared_iff_same_side (ht : t.Reachable)
    (h : (computeDocument options t d).run.value = .ok entries) :
    List.Forall₂ (BearsIdOf options.sideSeparator d.special?) d.items entries ∧
      ∀ (n m : Nat) (item item' : Procedure × Json) (id id' : Json),
        d.items[n]? = some item → d.items[m]? = some item' →
        itemId? item.2 = some id → itemId? item'.2 = some id' → id ≠ id' →
        ∃ entry entry', entries[n]? = some entry ∧ entries[m]? = some entry' ∧
          (entry.id? = entry'.id? ↔ SameSide options.sideSeparator d.special? id id') := by
  have hentries := bearsIdOf_computeDocument ht.sound h
  refine ⟨hentries, fun n m item item' id id' hitem hitem' hid hid' hne => ?_⟩
  obtain ⟨entry, hentry, hbears⟩ := exists_of_forall₂ hentries.flip hitem
  obtain ⟨entry', hentry', hbears'⟩ := exists_of_forall₂ hentries.flip hitem'
  exact ⟨entry, entry', hentry, hentry', BearsIdOf.id?_eq_iff hbears hbears' hid hid' hne⟩

end

/-- An item of one cell with this id. -/
def cellItem (id : Json) : Json :=
  .object [("id", id), ("account_col_name", .string "k"), ("account_code", .string "a"),
    ("value_col_name", .string "v")]

/-- Two ids with the same first side, and one that is no text. -/
def dividedIds : Document :=
  ⟨[("special_rfc", .bool false), ("single_cell", .array
    [cellItem (.string "a:1"), cellItem (.string "a:2"), cellItem (.integer 1)])], by simp⟩

/-- A table without rows. -/
def rowless : Table := ⟨["k", "v"].map Text.trim, #[], ["k", "v"].map fun _ => none⟩

theorem reachable_rowless : rowless.Reachable :=
  Table.reachable_after (by simp) (by decide +kernel) []

theorem computeDocument_dividedIds :
    ∃ entries, (computeDocument {} rowless dividedIds).run.value = .ok entries :=
  errorOf?_eq_none.mp (by decide +kernel)

theorem items_dividedIds : dividedIds.items = [(.singleCell, cellItem (.string "a:1")),
    (.singleCell, cellItem (.string "a:2")), (.singleCell, cellItem (.integer 1))] := by
  with_unfolding_all rfl

theorem sameSide_dividedIds :
    SameSide ':' dividedIds.special? (.string "a:1") (.string "a:2") := by
  have hside (text : String) (h : Document.side ':' false text = "a") :
      SideOf ':' text false "a" :=
    SideOf.iff_eq_side.mpr h
  exact ⟨false, "a:1", "a:2", "a", by decide +kernel, rfl, rfl, hside _ (by decide +kernel),
    hside _ (by decide +kernel)⟩

theorem ids_shared_sample : ∃ entries,
    (computeDocument {} rowless dividedIds).run.value = .ok entries ∧
    (∃ entry entry', entries[0]? = some entry ∧ entries[1]? = some entry' ∧
      entry.id? = entry'.id?) ∧
    ∃ entry entry', entries[0]? = some entry ∧ entries[2]? = some entry' ∧
      entry.id? ≠ entry'.id? := by
  obtain ⟨entries, h⟩ := computeDocument_dividedIds
  have hshared := (ids_shared_iff_same_side reachable_rowless h).2
  rw [items_dividedIds] at hshared
  obtain ⟨entry, entry', hentry, hentry', hiff⟩ :=
    hshared 0 1 _ _ (.string "a:1") (.string "a:2") rfl rfl rfl rfl (by simp)
  obtain ⟨first, number, hfirst, hnumber, hapart⟩ :=
    hshared 0 2 _ _ (.string "a:1") (.integer 1) rfl rfl rfl rfl (by simp)
  refine ⟨entries, h, ⟨entry, entry', hentry, hentry', hiff.mpr sameSide_dividedIds⟩,
    first, number, hfirst, hnumber, fun heq => ?_⟩
  obtain ⟨_, _, _, _, -, -, htext, -⟩ := hapart.mp heq
  cases htext

/-- Entries of items with different ids may bear the same id. -/
theorem not_ids_distinct : ¬∀ (options : Options) (t : Table) (d : Document) (entries : List Entry)
    (n m : Nat) (item item' : Procedure × Json) (entry entry' : Entry), t.Reachable →
    (computeDocument options t d).run.value = .ok entries →
    d.items[n]? = some item → d.items[m]? = some item' → itemId? item.2 ≠ itemId? item'.2 →
    entries[n]? = some entry → entries[m]? = some entry' → entry.id? ≠ entry'.id? := by
  intro hdistinct
  obtain ⟨entries, h⟩ := computeDocument_dividedIds
  have hentries := bearsIdOf_computeDocument reachable_rowless.sound h
  have hfirst : dividedIds.items[0]? = some (.singleCell, cellItem (.string "a:1")) := by
    rw [items_dividedIds]
    rfl
  have hsecond : dividedIds.items[1]? = some (.singleCell, cellItem (.string "a:2")) := by
    rw [items_dividedIds]
    rfl
  obtain ⟨entry, hentry, hbears⟩ := exists_of_forall₂ hentries.flip hfirst
  obtain ⟨entry', hentry', hbears'⟩ := exists_of_forall₂ hentries.flip hsecond
  have hne : Json.string "a:1" ≠ .string "a:2" := by simp
  refine hdistinct {} rowless dividedIds entries 0 1 _ _ entry entry' reachable_rowless h hfirst
    hsecond (fun heq => hne (Option.some.inj heq)) hentry hentry' ?_
  exact (BearsIdOf.id?_eq_iff hbears hbears' rfl rfl hne).mpr sameSide_dividedIds

end LedgerFields.Report
