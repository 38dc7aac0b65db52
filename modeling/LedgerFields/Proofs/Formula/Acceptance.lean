import LedgerFields.Proofs.Formula.Munch
import LedgerFields.Proofs.Formula.Reading.Completeness

/-! Which texts are formulas. Reading accepts a text exactly when its tokens have a derivation that
keeps both limits, and the tree is the one that is derived. -/

namespace LedgerFields.Formula

/-- A text is read as `e` exactly when its tokens are. -/
theorem parse_eq_ok {settings : Settings} {formula : String} {e : Expr} :
    parse settings formula = .ok e ↔ (Text.dropBlanks formula).toList ≠ [] ∧ ∃ tokens,
      tokenize settings (Text.dropBlanks formula).toList = .ok tokens ∧
      parseTokens settings.maxDepth tokens ((Text.dropBlanks formula).toList.length + 1) =
        .ok e := by
  unfold parse
  generalize (Text.dropBlanks formula).toList = cs
  by_cases hcs : cs = []
  · simp only [hcs]
    exact ⟨fun h => (by cases h), fun h => absurd rfl h.1⟩
  · cases htokens : tokenize settings cs with
    | error stray =>
      simp only [hcs, if_false, htokens]
      exact ⟨fun h => (by cases h), fun ⟨_, _, h, _⟩ => (by cases h)⟩
    | ok tokens =>
      simp only [hcs, if_false, htokens]
      constructor
      · intro h
        exact ⟨hcs, tokens, rfl, h⟩
      · rintro ⟨-, tokens', h, hread⟩
        cases h
        exact hread

/-- A text that splits into tokens is read as they are. -/
theorem parse_eq_parseTokens {settings : Settings} {formula : String} {tokens : List Placed}
    (hne : (Text.dropBlanks formula).toList ≠ [])
    (h : Munches settings 1 (Text.dropBlanks formula).toList tokens) :
    parse settings formula =
      parseTokens settings.maxDepth tokens ((Text.dropBlanks formula).toList.length + 1) := by
  unfold parse
  rw [← tokenize_eq_ok] at h
  simp only [hne, if_false, h]

/-- Tokens are read as the tree that they derive, when they keep both limits, and else not. -/
theorem parseTokens_eq_ok {limit position : Nat} {tokens : List Placed} {e : Expr} :
    parseTokens limit tokens position = .ok e ↔ Derives .sum (tokens.map Placed.token) e ∧
      OpenAtMost .leftParen .rightParen limit (tokens.map Placed.token) ∧ e.Fits limit :=
  ⟨derives_of_parseTokens, fun ⟨h, hnests, hfits⟩ => parseTokens_of_derives h hnests hfits⟩

/-- A formula is a text that is not blank and that splits into tokens from which the grammar derives
a tree; no more parentheses are open at once than the limit allows, and the tree is a leaf or no
higher than the limit. Reading gives that tree, which is the only one. -/
theorem parse_accepts_derivable (settings : Settings) (formula : String) (e : Expr) :
    (parse settings formula = .ok e ↔
      (Text.dropBlanks formula).toList ≠ [] ∧
      ∃ tokens, Munches settings 1 (Text.dropBlanks formula).toList tokens ∧
        Derives .sum (tokens.map Placed.token) e ∧
        OpenAtMost .leftParen .rightParen settings.maxDepth (tokens.map Placed.token) ∧
        (e.isLeaf = true ∨ e.height ≤ settings.maxDepth)) ∧
    ∀ (ts : List Token) (e₁ e₂ : Expr), Derives .sum ts e₁ → Derives .sum ts e₂ → e₁ = e₂ := by
  refine ⟨?_, fun ts e₁ e₂ => Derives.unique⟩
  simp only [parse_eq_ok, parseTokens_eq_ok, tokenize_eq_ok]
  exact Iff.rfl

end LedgerFields.Formula
