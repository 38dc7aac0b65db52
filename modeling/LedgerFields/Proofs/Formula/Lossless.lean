import LedgerFields.Proofs.Formula.Acceptance
import LedgerFields.Proofs.Formula.Spelling
import LedgerFields.Proofs.Stateful
import Mathlib.Data.List.Chain
import Mathlib.Order.Bounds.Basic

/-! What the tokens of a text keep of it, and which texts have none. The characters of the tokens,
one after the other, are the text; each token stands where those before it end, and a term ends
where no term character follows. A text has no tokens when one of its characters starts none and is
part of no term that starts before it, and the first such character is reported. -/

namespace LedgerFields.Formula

/-- The characters of tokens, one after the other. -/
def charsOf (tokens : List Placed) : List Char :=
  tokens.flatMap fun placed => placed.token.chars

/-- The tokens are the text, each of them at its position, and its terms are as long as they can be.
-/
structure Splits (settings : Settings) (cs : List Char) (tokens : List Placed) : Prop where
  chars : charsOf tokens = cs
  position : ∀ before placed after, tokens = before ++ placed :: after →
    placed.position = (charsOf before).length + 1
  start : ∀ text, .term text ∈ tokens.map Placed.token →
    ∃ c ∈ text.toList.head?, c.isAlphanum = true
  termChars : ∀ text, .term text ∈ tokens.map Placed.token →
    ∀ c ∈ text.toList, settings.isTermChar c = true ∧ c ∉ reservedChars
  ended : ∀ before text position after, tokens = before ++ ⟨.term text, position⟩ :: after →
    ∀ c ∈ (charsOf after).head?, settings.isTermChar c = false
  apart : tokens.IsChain fun first second =>
    ¬((∃ text, first.token = .term text) ∧ ∃ text, second.token = .term text)

section

variable {settings : Settings} {position : Nat} {cs : List Char} {tokens : List Placed}

theorem Munches.charsOf_eq (h : Munches settings position cs tokens) : charsOf tokens = cs := by
  rw [← h.chars_eq, charsOf, List.flatMap_map]

/-- The characters after some of the tokens split into those that are left. -/
theorem Munches.right {before after : List Placed}
    (h : Munches settings position cs (before ++ after)) :
    Munches settings (position + (charsOf before).length) (charsOf after) after := by
  induction before generalizing position cs with
  | nil =>
    rw [List.nil_append] at h
    rwa [h.charsOf_eq]
  | cons first before ih =>
    have hlength (position : Nat) : position + (charsOf (first :: before)).length =
        position + first.token.chars.length + (charsOf before).length := by
      rw [charsOf, List.flatMap_cons, List.length_append, Nat.add_assoc, charsOf]
    rw [hlength]
    cases h with
    | symbol htoken hrest =>
      rw [Token.chars_of_ofChar? htoken]
      exact ih hrest
    | term _ _ _ hrest =>
      rw [Token.chars_ofList]
      exact ih hrest

/-- After a term no term character follows. -/
theorem Munches.ended {text : String} {start : Nat}
    (h : Munches settings position cs (⟨.term text, start⟩ :: tokens)) :
    ∀ c ∈ (charsOf tokens).head?, settings.isTermChar c = false := by
  cases h with
  | symbol htoken => exact absurd rfl (Token.ofChar?_ne_term htoken text)
  | term _ _ hcs hrest => rwa [hrest.charsOf_eq]

/-- A text that splits by maximal munch is kept by its tokens. -/
theorem Munches.splits (h : Munches settings 1 cs tokens) : Splits settings cs tokens := by
  have hended : ∀ before text position after, tokens = before ++ ⟨.term text, position⟩ :: after →
      ∀ c ∈ (charsOf after).head?, settings.isTermChar c = false := by
    rintro before text position after rfl
    exact h.right.ended
  have hstart : ∀ text, .term text ∈ tokens.map Placed.token →
      ∃ c ∈ text.toList.head?, c.isAlphanum = true := by
    intro text htext
    obtain ⟨c, word, hchars, hc, -⟩ := h.isTerm text htext
    exact ⟨c, by rw [hchars]; rfl, hc⟩
  refine ⟨h.charsOf_eq, ?_, hstart, ?_, hended, ?_⟩
  · rintro before placed after rfl
    rw [h.right.position_eq, Nat.add_comm]
  · intro text htext c hc
    have hchar := (h.isTerm text htext).isTermChar c hc
    refine ⟨hchar, fun hreserved => ?_⟩
    rw [settings.not_isTermChar_of_mem_reservedChars hreserved] at hchar
    cases hchar
  · rw [List.isChain_iff_forall_rel_of_append_cons_cons]
    rintro ⟨first, position⟩ ⟨second, position'⟩ before after htokens
      ⟨⟨text, rfl⟩, ⟨text', rfl⟩⟩
    -- The second term starts with a letter or digit, with which the first one would go on.
    obtain ⟨c, hc, halphanum⟩ := hstart text' (by rw [htokens]; simp)
    have hfollows := hended before text position _ htokens c <| by
      rw [charsOf, List.flatMap_cons, List.head?_append]
      show c ∈ text'.toList.head?.or _
      rw [Option.mem_def.mp hc]
      rfl
    rw [settings.isTermChar_of_isAlphanum halphanum] at hfollows
    cases hfollows

end

/-! ### Characters that are part of no token -/

/-- The last of the characters are a term, or the start of one. -/
def Settings.EndsInTerm (settings : Settings) (cs : List Char) : Prop :=
  Since (fun c => c.isAlphanum = true) (fun c => settings.isTermChar c = true) cs

/-- The character at this place, counted from 0, starts no token, and it is part of no term that
starts before it. -/
def Settings.StrayAt (settings : Settings) (cs : List Char) (n : Nat) : Prop :=
  ∃ c, cs[n]? = some c ∧ c ∉ reservedChars ∧ c.isAlphanum = false ∧
    ¬(settings.isTermChar c = true ∧ settings.EndsInTerm (cs.take n))

section

variable {settings : Settings} {before cs word : List Char} {c : Char}

/-- One more character ends in a term when it starts one or goes on with one. -/
theorem Settings.endsInTerm_concat : settings.EndsInTerm (before ++ [c]) ↔
    c.isAlphanum = true ∨ settings.isTermChar c = true ∧ settings.EndsInTerm before :=
  since_concat

theorem Token.ofChar?_eq_none_iff : Token.ofChar? c = none ↔ c ∉ reservedChars := by
  constructor
  · intro h hmem
    simp only [reservedChars, List.mem_cons, List.not_mem_nil, or_false] at hmem
    rcases hmem with rfl | rfl | rfl | rfl | rfl | rfl <;> cases h
  · intro h
    rw [Option.eq_none_iff_forall_ne_some]
    exact fun token htoken => h (Token.mem_reservedChars htoken)

/-- What the reading of tokens comes to when the characters `before` have been read: it goes on to
the end, or to the first stray character. -/
inductive ReadsOn (settings : Settings) (before cs : List Char) :
    Except Stray (List Placed) → Prop where
  | ok {tokens : List Placed} : (∀ n ≥ before.length, ¬settings.StrayAt (before ++ cs) n) →
      ReadsOn settings before cs (.ok tokens)
  | error {c : Char} {n : Nat} :
      IsLeast {n | before.length ≤ n ∧ settings.StrayAt (before ++ cs) n} n →
      (before ++ cs)[n]? = some c → ReadsOn settings before cs (.error ⟨c, n + 1⟩)

theorem ReadsOn.map {result : Except Stray (List Placed)} (h : ReadsOn settings before cs result)
    (f : List Placed → List Placed) : ReadsOn settings before cs (result.map f) := by
  cases h with
  | ok h => exact .ok h
  | error h hc => exact .error h hc

/-- A character that is not stray is passed over. -/
theorem ReadsOn.cons {result : Except Stray (List Placed)}
    (h : ReadsOn settings (before ++ [c]) cs result)
    (hc : ¬settings.StrayAt (before ++ c :: cs) before.length) :
    ReadsOn settings before (c :: cs) result := by
  have happend : before ++ [c] ++ cs = before ++ c :: cs := by simp
  have hlength (n : Nat) (hstray : settings.StrayAt (before ++ c :: cs) n) :
      (before ++ [c]).length ≤ n ↔ before.length ≤ n := by
    have hne : n ≠ before.length := by
      rintro rfl
      exact hc hstray
    simp
    omega
  cases h with
  | ok h =>
    rw [happend] at h
    exact .ok fun n hn hstray => h n ((hlength n hstray).mpr hn) hstray
  | error h hn =>
    rw [happend] at h hn
    refine .error ⟨⟨(hlength _ h.1.2).mp h.1.1, h.1.2⟩, fun n hn => ?_⟩ hn
    exact h.2 ⟨(hlength n hn.2).mpr hn.1, hn.2⟩

theorem Settings.strayAt_length : settings.StrayAt (before ++ c :: cs) before.length ↔
    c ∉ reservedChars ∧ c.isAlphanum = false ∧
      ¬(settings.isTermChar c = true ∧ settings.EndsInTerm before) := by
  simp [StrayAt]

/-- Reading goes on from wherever it stands; it is inside a term just when the characters that have
been read end in one. -/
theorem readsOn_tokensFrom (hword : word ≠ [] ↔ settings.EndsInTerm before) :
    ReadsOn settings before cs (tokensFrom settings (before.length + 1) word cs) := by
  induction cs generalizing before word with
  | nil =>
    refine .ok fun n hn hstray => ?_
    obtain ⟨c, hc, -⟩ := hstray
    rw [List.append_nil, List.getElem?_eq_none hn] at hc
    cases hc
  | cons c cs ih =>
    have hlength : before.length + 1 + 1 = (before ++ [c]).length + 1 := by simp
    unfold tokensFrom
    rw [hlength]
    split
    · next hgoes =>
      refine (ih ?_).cons ?_
      · rw [Settings.endsInTerm_concat]
        exact iff_of_true (by simp) (.inr ⟨hgoes.2, hword.mp hgoes.1⟩)
      · rw [Settings.strayAt_length]
        exact fun h => h.2.2 ⟨hgoes.2, hword.mp hgoes.1⟩
    · next hends =>
      split
      · next hc =>
        refine ((ih ?_).map _).cons ?_
        · rw [Settings.endsInTerm_concat]
          exact iff_of_true (by simp) (.inl hc)
        · rw [Settings.strayAt_length, hc]
          rintro ⟨-, hfalse, -⟩
          cases hfalse
      · next hc =>
        have hterm : ¬(settings.isTermChar c = true ∧ settings.EndsInTerm before) :=
          fun h => hends ⟨hword.mpr h.2, h.1⟩
        split
        · next token htoken =>
          refine ((ih ?_).map _).cons ?_
          · rw [Settings.endsInTerm_concat]
            exact iff_of_false (by simp) (not_or.mpr ⟨hc, hterm⟩)
          · rw [Settings.strayAt_length]
            exact fun h => h.1 (Token.mem_reservedChars htoken)
        · next htoken =>
          refine .error ⟨⟨le_rfl, ?_⟩, fun n hn => hn.1⟩ (by simp)
          rw [Settings.strayAt_length]
          exact ⟨Token.ofChar?_eq_none_iff.mp htoken, by simpa using hc, hterm⟩

end

theorem tokenize_eq_error_iff {settings : Settings} {cs : List Char} {stray : Stray} :
    tokenize settings cs = .error stray ↔ ∃ n, IsLeast {n | settings.StrayAt cs n} n ∧
      cs[n]? = some stray.char ∧ stray.position = n + 1 := by
  have h : ReadsOn settings [] cs (tokenize settings cs) :=
    readsOn_tokensFrom (iff_of_false (fun h => h rfl) not_since_nil)
  generalize tokenize settings cs = result at h
  have hset : {n | ([] : List Char).length ≤ n ∧ settings.StrayAt ([] ++ cs) n} =
      {n | settings.StrayAt cs n} := by simp
  obtain ⟨d, position⟩ := stray
  cases h with
  | ok hnone =>
    refine iff_of_false nofun ?_
    rintro ⟨n, hn, -⟩
    exact hnone n (Nat.zero_le n) hn.1
  | @error c n hleast hc =>
    rw [hset] at hleast
    rw [List.nil_append] at hc
    constructor
    · intro h
      cases h
      exact ⟨n, hleast, hc, rfl⟩
    · rintro ⟨m, hleast', hd, rfl⟩
      obtain rfl := hleast.unique hleast'
      cases hc.symm.trans hd
      rfl

/-- The tokens of a text are the text, each at the position after the characters before it, and the
end of a formula stands after all of them. A term starts with a letter or digit, holds nothing but
term characters, and no other one follows it. There are no tokens just when a character starts none
and is part of no term before it, and the formula is refused for the first such character. -/
theorem tokenize_lossless (settings : Settings) (cs : List Char) :
    (∀ tokens, tokenize settings cs = .ok tokens → Splits settings cs tokens ∧
      ∀ formula, cs ≠ [] → (Text.dropBlanks formula).toList = cs →
        parse settings formula = parseTokens settings.maxDepth tokens (cs.length + 1)) ∧
    ∀ stray, (tokenize settings cs = .error stray ↔
        ∃ n, IsLeast {n | settings.StrayAt cs n} n ∧
          cs[n]? = some stray.char ∧ stray.position = n + 1) ∧
      (tokenize settings cs = .error stray →
        ∀ formula, (Text.dropBlanks formula).toList = cs →
          ∃ fault, parse settings formula = .error fault ∧ fault.message =
            s!"Parse error: Unexpected character '{stray.char}' at position {stray.position}") := by
  refine ⟨fun tokens h => ⟨(tokenize_eq_ok.mp h).splits, ?_⟩,
    fun stray => ⟨tokenize_eq_error_iff, fun h => ?_⟩⟩
  · rintro formula hne rfl
    exact parse_eq_parseTokens hne (tokenize_eq_ok.mp h)
  · rintro formula rfl
    refine ⟨.parse (.strayCharacter stray), ?_, rfl⟩
    have hne : (Text.dropBlanks formula).toList ≠ [] := by
      intro hnil
      rw [hnil] at h
      cases h
    unfold parse
    simp only [hne, if_false, h]
    rfl

/-- A minus sign ends a term, also where the settings let terms hold it. -/
example : tokenize { extraChars := "-" } "a@1-2".toList =
    .ok [⟨.term "a@1", 1⟩, ⟨.op .subtract, 4⟩, ⟨.term "2", 5⟩] := by
  decide +kernel

end LedgerFields.Formula
