import LedgerFields.Proofs.Formula.Acceptance

/-! The leaves of an expression in the text of its formula: its literals are the terms that are
numerals and its references those that are not, both from left to right. -/

namespace LedgerFields.Formula

/-- The values of the literals, from left to right. -/
def Expr.literals : Expr → List Float
  | literal x => [x]
  | reference _ => []
  | signed _ operand => operand.literals
  | binary _ left right => left.literals ++ right.literals

/-- The value of a term that is a numeral. -/
def Token.literal? : Token → Option Float
  | .term text => Number.readNumeral? text
  | _ => none

/-- The text of a term that is no numeral. -/
def Token.reference? : Token → Option String
  | .term text => if (Number.readNumeral? text).isNone then some text else none
  | _ => none

theorem Token.literal?_eq_some {token : Token} {x : Float} : token.literal? = some x ↔
    ∃ text, token = .term text ∧ Number.readNumeral? text = some x := by
  cases token <;> simp [literal?]

theorem Token.reference?_eq_some {token : Token} {text : String} :
    token.reference? = some text ↔
      token = .term text ∧ Number.readNumeral? text = none := by
  cases token with
  | term text' =>
    simp only [reference?, Option.ite_none_right_eq_some, Option.isNone_iff_eq_none,
      Option.some.injEq, term.injEq]
    constructor
    · rintro ⟨hread, rfl⟩
      exact ⟨rfl, hread⟩
    · rintro ⟨rfl, hread⟩
      exact ⟨hread, rfl⟩
  | op | leftParen | rightParen => simp [reference?]

section

variable {rule : Rule} {ts : List Token} {e : Expr}

/-- A tree has the leaves that the terms make from which it is derived. -/
theorem Derives.leaves_eq (h : Derives rule ts e) :
    e.literals = ts.filterMap Token.literal? ∧ e.references = ts.filterMap Token.reference? := by
  induction h with
  | literal hread | reference hread =>
    simp [Expr.literals, Expr.references, Token.literal?, Token.reference?, hread]
  | group _ ih => simpa [List.filterMap_cons, Token.literal?, Token.reference?] using ih
  | unsigned _ ih | factor _ ih | product _ ih => exact ih
  | signed _ _ ih =>
    simpa [Expr.literals, Expr.references, List.filterMap_cons, Token.literal?,
      Token.reference?] using ih
  | multiplied _ _ _ ihl ihr | added _ _ _ ihl ihr =>
    simp [Expr.literals, Expr.references, List.filterMap_cons, Token.literal?, Token.reference?,
      ihl.1, ihl.2, ihr.1, ihr.2]

theorem Derives.exists_of_mem_literals (h : Derives rule ts e) {x : Float}
    (hx : x ∈ e.literals) : ∃ text, .term text ∈ ts ∧ Number.readNumeral? text = some x := by
  rw [h.leaves_eq.1] at hx
  obtain ⟨token, htoken, hvalue⟩ := List.mem_filterMap.mp hx
  obtain ⟨text, rfl, hread⟩ := Token.literal?_eq_some.mp hvalue
  exact ⟨text, htoken, hread⟩

theorem Derives.of_mem_references (h : Derives rule ts e) {term : String}
    (hterm : term ∈ e.references) : .term term ∈ ts ∧ Number.readNumeral? term = none := by
  rw [h.leaves_eq.2] at hterm
  obtain ⟨token, htoken, hvalue⟩ := List.mem_filterMap.mp hterm
  obtain ⟨rfl, hread⟩ := Token.reference?_eq_some.mp hvalue
  exact ⟨htoken, hread⟩

end

theorem references_of_parse {settings : Settings} {formula : String} {e : Expr}
    (h : parse settings formula = .ok e) :
    ∃ tokens, Munches settings 1 (Text.dropBlanks formula).toList tokens ∧
      e.references = (tokens.map Placed.token).filterMap Token.reference? := by
  obtain ⟨_, tokens, htokens, hread⟩ := parse_eq_ok.mp h
  exact ⟨tokens, tokenize_eq_ok.mp htokens, (parseTokens_eq_ok.mp hread).1.leaves_eq.2⟩

end LedgerFields.Formula
