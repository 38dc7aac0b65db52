import LedgerFields.Proofs.Formula.Grammar
import LedgerFields.Proofs.Formula.Munch

/-! Tokens written next to each other. The tokens of a formula split back from their characters,
since no two terms meet in it, and they nest as their characters do. -/

namespace LedgerFields.Formula

/-- The text is one term: it starts with a letter or a digit and holds only term characters. -/
def Settings.IsTerm (settings : Settings) (text : String) : Prop :=
  ∃ c word, text.toList = c :: word ∧ c.isAlphanum = true ∧
    ∀ d ∈ word, settings.isTermChar d = true

theorem Settings.IsTerm.isTermChar {settings : Settings} {text : String}
    (h : settings.IsTerm text) : ∀ c ∈ text.toList, settings.isTermChar c = true := by
  obtain ⟨c, word, hchars, hc, hword⟩ := h
  rw [hchars]
  exact List.forall_mem_cons.mpr ⟨settings.isTermChar_of_isAlphanum hc, hword⟩

theorem Token.ofChar?_symbol (op : BinaryOp) : ofChar? op.symbol = some (.op op) := by
  cases op <;> rfl

theorem Token.chars_of_ofChar? {c : Char} {token : Token} (h : ofChar? c = some token) :
    token.chars = [c] := by
  unfold ofChar? at h
  split at h
  · cases h; rfl
  · cases h; rfl
  · obtain ⟨op, hop, rfl⟩ := Option.map_eq_some_iff.mp h
    unfold BinaryOp.ofSymbol? at hop
    split at hop <;> cases hop <;> rfl

theorem Token.ofChar?_ne_term {c : Char} {token : Token} (h : ofChar? c = some token)
    (text : String) : token ≠ term text := by
  unfold ofChar? at h
  split at h
  · cases h; simp
  · cases h; simp
  · obtain ⟨op, _, rfl⟩ := Option.map_eq_some_iff.mp h
    simp

theorem Token.chars_ofList (cs : List Char) : (term (String.ofList cs)).chars = cs :=
  String.toList_ofList

section

variable {settings : Settings} {position : Nat} {cs : List Char} {tokens : List Placed}

/-- The characters are those of the tokens into which they split. -/
theorem Munches.chars_eq (h : Munches settings position cs tokens) :
    (tokens.map Placed.token).flatMap Token.chars = cs := by
  induction h with
  | nil => rfl
  | symbol htoken _ ih =>
    rw [List.map_cons, List.flatMap_cons, ih, Token.chars_of_ofChar? htoken]
    rfl
  | term _ _ _ _ ih =>
    rw [List.map_cons, List.flatMap_cons, ih, Token.chars_ofList]
    rfl

/-- Characters split into terms, among other tokens. -/
theorem Munches.isTerm (h : Munches settings position cs tokens) :
    ∀ text, .term text ∈ tokens.map Placed.token → settings.IsTerm text := by
  induction h with
  | nil => simp
  | @symbol _ c token _ _ htoken _ ih =>
    intro text hmem
    rcases List.mem_cons.mp hmem with rfl | hmem
    · cases Token.ofChar?_ne_term htoken text rfl
    · exact ih text hmem
  | @term _ c word _ _ hc hword _ _ ih =>
    intro text hmem
    rcases List.mem_cons.mp hmem with htext | hmem
    · cases htext
      exact ⟨c, word, String.toList_ofList, hc, hword⟩
    · exact ih text hmem

/-- Characters that split into tokens are term characters, unless they are reserved. -/
theorem Munches.isTermChar (h : Munches settings position cs tokens) {c : Char} (hc : c ∈ cs)
    (hreserved : c ∉ reservedChars) : settings.isTermChar c = true := by
  rw [← h.chars_eq] at hc
  obtain ⟨token, htoken, hc⟩ := List.mem_flatMap.mp hc
  cases token with
  | term text => exact (h.isTerm text htoken).isTermChar c hc
  | op op =>
    obtain rfl := List.mem_singleton.mp hc
    cases hreserved (by cases op <;> decide)
  | leftParen | rightParen =>
    obtain rfl := List.mem_singleton.mp hc
    cases hreserved (by decide)

end

theorem Settings.not_isTermChar_head (settings : Settings) {c : Char} {token : Token}
    (h : Token.ofChar? c = some token) (cs : List Char) :
    ∀ d ∈ (c :: cs).head?, settings.isTermChar d = false := by
  intro d hd
  cases hd
  exact settings.not_isTermChar_of_mem_reservedChars (Token.mem_reservedChars h)

/-- The characters of the tokens of a formula split into these tokens again, if what follows does
not go on with the last of them. -/
theorem Derives.munches {settings : Settings} {rule : Rule} {ts : List Token} {e : Expr}
    (h : Derives rule ts e) (hterms : ∀ text, .term text ∈ ts → settings.IsTerm text)
    {position : Nat} {cs : List Char} {tokens : List Placed}
    (hcs : ∀ d ∈ cs.head?, settings.isTermChar d = false)
    (hrest : Munches settings (position + (ts.flatMap Token.chars).length) cs tokens) :
    ∃ placed, placed.map Placed.token = ts ∧
      Munches settings position (ts.flatMap Token.chars ++ cs) (placed ++ tokens) := by
  induction h generalizing position cs tokens with
  | @literal text x _ | @reference text _ =>
    obtain ⟨c, word, hchars, hc, hword⟩ := hterms text (by simp)
    refine ⟨[⟨.term text, position⟩], rfl, ?_⟩
    have htext : text = String.ofList (c :: word) := by rw [← hchars, String.ofList_toList]
    rw [htext] at hrest ⊢
    simpa [Token.chars] using Munches.term hc hword hcs (by simpa [Token.chars] using hrest)
  | @group ts e _ ih =>
    have hopening : Token.ofChar? '(' = some .leftParen := rfl
    have hclosing : Token.ofChar? ')' = some .rightParen := rfl
    have hlength :
        position + ((Token.leftParen :: ts ++ [Token.rightParen]).flatMap Token.chars).length =
          position + 1 + (ts.flatMap Token.chars).length + 1 := by
      simp [Token.chars]
      omega
    rw [hlength] at hrest
    obtain ⟨placed, hplaced, hmunches⟩ := ih (fun text hmem => hterms text (by simp [hmem]))
      (settings.not_isTermChar_head hclosing cs) (.symbol hclosing hrest)
    refine ⟨⟨.leftParen, position⟩ :: placed ++
      [⟨.rightParen, position + 1 + (ts.flatMap Token.chars).length⟩], by simp [hplaced], ?_⟩
    simpa [Token.chars] using Munches.symbol hopening hmunches
  | unsigned _ ih | factor _ ih | product _ ih => exact ih hterms hcs hrest
  | @signed op sign ts e hop _ ih =>
    have hlength : position + ((Token.op op :: ts).flatMap Token.chars).length =
        position + 1 + (ts.flatMap Token.chars).length := by
      simp [Token.chars]
      omega
    rw [hlength] at hrest
    obtain ⟨placed, hplaced, hmunches⟩ :=
      ih (fun text hmem => hterms text (by simp [hmem])) hcs hrest
    refine ⟨⟨.op op, position⟩ :: placed, by simp [hplaced], ?_⟩
    simpa [Token.chars] using Munches.symbol (Token.ofChar?_symbol op) hmunches
  | @multiplied op ts us l r _ _ _ ihl ihr | @added op ts us l r _ _ _ ihl ihr =>
    have hlength : position + ((ts ++ .op op :: us).flatMap Token.chars).length =
        position + (ts.flatMap Token.chars).length + 1 + (us.flatMap Token.chars).length := by
      simp [Token.chars]
      omega
    rw [hlength] at hrest
    obtain ⟨right, hright, hmunches⟩ :=
      ihr (fun text hmem => hterms text (by simp [hmem])) hcs hrest
    obtain ⟨left, hleft, hmunches⟩ := ihl (fun text hmem => hterms text (by simp [hmem]))
      (settings.not_isTermChar_head (Token.ofChar?_symbol op) _)
      (.symbol (Token.ofChar?_symbol op) hmunches)
    refine ⟨left ++ ⟨.op op, position + (ts.flatMap Token.chars).length⟩ :: right,
      by simp [hleft, hright], ?_⟩
    simpa [Token.chars] using hmunches

/-- Tokens nest as deeply as their characters. -/
theorem openAtMost_chars {settings : Settings} {ts : List Token}
    (hterms : ∀ text, .term text ∈ ts → settings.IsTerm text) {limit : Nat} :
    OpenAtMost '(' ')' limit (ts.flatMap Token.chars) ↔
      OpenAtMost .leftParen .rightParen limit ts := by
  induction ts generalizing limit with
  | nil => exact ⟨fun _ => .nil, fun _ => .nil⟩
  | cons t ts ih =>
    have ih := @ih fun text hmem => hterms text (List.mem_cons_of_mem _ hmem)
    cases t with
    | term text =>
      have hnot (c : Char) (hc : c ∈ reservedChars) : c ∉ text.toList := fun hmem => by
        have hchar := (hterms text (by simp)).isTermChar c hmem
        rw [settings.not_isTermChar_of_mem_reservedChars hc] at hchar
        cases hchar
      rw [openAtMost_cons_of_ne (by simp) (by simp), ← ih]
      exact openAtMost_append_of_not_mem (hnot '(' (by decide)) (hnot ')' (by decide))
    | op op =>
      rw [openAtMost_cons_of_ne (by simp) (by simp), ← ih]
      exact openAtMost_cons_of_ne (by cases op <;> decide) (by cases op <;> decide)
    | leftParen =>
      rw [openAtMost_opening_cons (by decide), ← ih]
      exact openAtMost_opening_cons (by decide)
    | rightParen =>
      rw [openAtMost_closing_cons (by decide), ← ih]
      exact openAtMost_closing_cons (by decide)

end LedgerFields.Formula
