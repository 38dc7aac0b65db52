import LedgerFields.Proofs.Formula.Leaves

/-! The tokens of the canonical text of an expression, and the tree that they derive: the expression
itself, but with each leaf as its text is read. -/

namespace LedgerFields.Formula

/-- The operation that is written like a sign. -/
def Sign.op : Sign → BinaryOp
  | .plus => .add
  | .minus => .subtract

theorem Sign.symbol_op (sign : Sign) : sign.op.symbol = sign.symbol := by
  cases sign <;> rfl

theorem Sign.sign?_op (sign : Sign) : sign.op.sign? = some sign := by
  cases sign <;> rfl

namespace Expr

/-- The tokens of the canonical text. -/
def tokens : Expr → List Token
  | literal x => [.term (Number.plainText x)]
  | reference term => [.term term]
  | signed sign operand =>
    if operand.isSigned then
      .op sign.op :: (.leftParen :: operand.tokens ++ [.rightParen])
    else
      .op sign.op :: operand.tokens
  | binary op left right => .leftParen :: (left.tokens ++ .op op :: right.tokens) ++ [.rightParen]

/-- How many parentheses the canonical text opens inside each other. -/
def nesting : Expr → Nat
  | literal _ => 0
  | reference _ => 0
  | signed _ operand => if operand.isSigned then operand.nesting + 1 else operand.nesting
  | binary _ left right => max left.nesting right.nesting + 1

/-- The expression with each leaf as its text is read. -/
def reread : Expr → Expr
  | literal x => (Operand.ofTerm (Number.plainText x)).expr
  | reference term => (Operand.ofTerm term).expr
  | signed sign operand => signed sign operand.reread
  | binary op left right => binary op left.reread right.reread

/-- The canonical text is written token by token. -/
theorem toList_render (e : Expr) : e.render.toList = e.tokens.flatMap Token.chars := by
  induction e with
  | literal x => simp [render, tokens, Token.chars]
  | reference term => simp [render, tokens, Token.chars]
  | signed sign operand ih =>
    by_cases h : operand.isSigned = true
    · simp [render, tokens, h, ih, Token.chars, Sign.symbol_op]
    · simp [render, tokens, h, ih, Token.chars, Sign.symbol_op]
  | binary op left right ihl ihr => simp [render, tokens, ihl, ihr, Token.chars]

theorem height_ofTerm (text : String) : (Operand.ofTerm text).expr.height = 1 := by
  unfold Operand.ofTerm
  split <;> rfl

theorem ofTerm_eq_literal {text : String} {x : Float} :
    (Operand.ofTerm text).expr = literal x ↔ Number.readNumeral? text = some x := by
  unfold Operand.ofTerm
  split <;> simp [*]

theorem ofTerm_eq_reference {text : String} :
    (Operand.ofTerm text).expr = reference text ↔ Number.readNumeral? text = none := by
  unfold Operand.ofTerm
  split <;> simp [*]

theorem height_reread (e : Expr) : e.reread.height = e.height := by
  induction e with
  | literal | reference => exact height_ofTerm _
  | signed _ _ ih => simp [reread, height, ih]
  | binary _ _ _ ihl ihr => simp [reread, height, ihl, ihr]

theorem isLeaf_reread (e : Expr) : e.reread.isLeaf = e.isLeaf := by
  cases e with
  | literal | reference => exact Operand.isLeaf_ofTerm _
  | signed | binary => rfl

theorem fits_reread {limit : Nat} {e : Expr} : e.reread.Fits limit ↔ e.Fits limit := by
  rw [Fits, Fits, height_reread, isLeaf_reread]

/-- The canonical tokens make a factor, and a primary when they do not start with a sign. -/
theorem derives_tokens (e : Expr) :
    Derives .factor e.tokens e.reread ∧
      (e.isSigned = false → Derives .primary e.tokens e.reread) := by
  induction e with
  | literal | reference =>
    have hleaf := Operand.derives_ofTerm
    exact ⟨.unsigned (hleaf _), fun _ => hleaf _⟩
  | signed sign operand ih =>
    refine ⟨?_, fun h => by cases h⟩
    unfold tokens
    split_ifs with h
    · exact .signed sign.sign?_op (.group (.product (.factor ih.1)))
    · exact .signed sign.sign?_op (ih.2 (by simpa using h))
  | binary op left right ihl ihr =>
    have hsum : Derives .sum (left.tokens ++ .op op :: right.tokens)
        (.binary op left.reread right.reread) := by
      cases hop : op.rule with
      | sum => exact .added hop (.product (.factor ihl.1)) (.factor ihr.1)
      | product => exact .product (.multiplied hop (.factor ihl.1) ihr.1)
      | factor | primary => cases op <;> cases hop
    exact ⟨.unsigned (.group hsum), fun _ => .group hsum⟩

/-- An expression is read back when each of its leaves is. -/
theorem reread_eq_iff {e : Expr} : e.reread = e ↔
    (∀ x ∈ e.literals, Number.readNumeral? (Number.plainText x) = some x) ∧
    (∀ term ∈ e.references, Number.readNumeral? term = none) := by
  induction e with
  | literal x => simp [reread, literals, references, ofTerm_eq_literal]
  | reference term => simp [reread, literals, references, ofTerm_eq_reference]
  | signed sign operand ih => simpa [reread, literals, references] using ih
  | binary op left right ihl ihr =>
    simp only [reread, literals, references, binary.injEq, true_and, ihl, ihr,
      List.forall_mem_append]
    exact and_and_and_comm

/-- The canonical text keeps a limit when its nesting does. -/
theorem openAtMost_tokens (e : Expr) (limit : Nat) :
    OpenAtMost .leftParen .rightParen limit e.tokens ↔ e.nesting ≤ limit := by
  have hgroup {limit : Nat} {ts : List Token} (hts : ts.count .leftParen = ts.count .rightParen) :
      OpenAtMost .leftParen .rightParen limit (.leftParen :: ts ++ [.rightParen]) ↔
        1 ≤ limit ∧ OpenAtMost .leftParen .rightParen (limit - 1) ts := by
    rw [List.cons_append, openAtMost_opening_cons (by decide), openAtMost_append hts,
      openAtMost_closing_cons (by decide)]
    exact and_congr_right fun _ => and_iff_left .nil
  induction e generalizing limit with
  | literal | reference =>
    rw [tokens, openAtMost_cons_of_ne (by simp) (by simp)]
    exact iff_of_true .nil (Nat.zero_le _)
  | signed sign operand ih =>
    unfold tokens nesting
    split_ifs
    · rw [openAtMost_cons_of_ne (by simp) (by simp), hgroup operand.derives_tokens.1.balanced]
      exact (and_congr_right fun _ => ih (limit - 1)).trans (by omega)
    · exact (openAtMost_cons_of_ne (by simp) (by simp)).trans (ih limit)
  | binary op left right ihl ihr =>
    have hleft := left.derives_tokens.1.balanced
    have hright := right.derives_tokens.1.balanced
    rw [tokens, nesting, hgroup (by simp [hleft, hright]), openAtMost_append hleft,
      openAtMost_cons_of_ne (by simp) (by simp)]
    have hparts := and_congr (ihl (limit - 1)) (ihr (limit - 1))
    exact (and_congr_right fun _ => hparts).trans (by omega)

end Expr

end LedgerFields.Formula
