import LedgerFields.Proofs.Formula.Reading.Soundness

/-! Tokens that have a derivation are read to the end, with the tree that is derived, as long as
both limits allow it. -/

namespace LedgerFields.Formula

namespace Operand

theorem withSign_of_le {limit : Nat} {sign : Sign} {e : Expr}
    (h : (Expr.signed sign e).height ≤ limit) :
    (of e).withSign limit (some sign) = .ok (of (.signed sign e)) :=
  withSign_some_eq_ok.mpr ⟨rfl, h⟩

theorem join_of_le {limit : Nat} {op : BinaryOp} {l r : Expr}
    (h : (Expr.binary op l r).height ≤ limit) :
    (of r).join limit (some (of l, op)) = .ok (of (.binary op l r)) :=
  join_some_eq_ok.mpr ⟨rfl, h⟩

end Operand

namespace Reading

/-- Where the tokens of a rule may start: an operand must come next, and nothing waits that would
be joined to a part of them. -/
def Ready : Rule → Reading → Prop
  | .primary, r => r.operand = none
  | .factor, r => r.operand = none ∧ r.pending.sign = none
  | .product, r => r.operand = none ∧ r.pending.sign = none ∧ r.pending.product = none
  | .sum, r => r.operand = none ∧ r.pending = {}

/-- The tokens of `e`, derived by a rule, are read from `r` on: a sign or a product that waits takes
the operand in, and of a sum the last product is left to be joined. -/
def Reads (limit : Nat) (rule : Rule) (e : Expr) (tokens : List Placed) (r : Reading) : Prop :=
  match rule with
  | .primary => ∀ signed factor, (Operand.of e).withSign limit r.pending.sign = .ok signed →
      signed.join limit r.pending.product = .ok factor →
      ∃ last, tokens.foldlM (next limit) r =
        .ok (completed r.opened r.pending.sum factor last)
  | .factor => ∀ factor, (Operand.of e).join limit r.pending.product = .ok factor →
      ∃ last, tokens.foldlM (next limit) r =
        .ok (completed r.opened r.pending.sum factor last)
  | .product => ∃ last, tokens.foldlM (next limit) r =
        .ok (completed r.opened r.pending.sum (Operand.of e) last)
  | .sum => ∃ sum factor last, factor.join limit sum = .ok (Operand.of e) ∧
      tokens.foldlM (next limit) r = .ok (completed r.opened sum factor last)

variable {limit : Nat} {r r' : Reading} {placed : Placed} {tokens : List Placed}

theorem foldlM_cons_of_step (h : Step limit r placed r') :
    (placed :: tokens).foldlM (next limit) r = tokens.foldlM (next limit) r' := by
  rw [List.foldlM_cons, next_of_step h]
  rfl

theorem foldlM_append_of_ok {more : List Placed} (h : tokens.foldlM (next limit) r = .ok r') :
    (tokens ++ more).foldlM (next limit) r = more.foldlM (next limit) r' := by
  rw [List.foldlM_append, h]
  rfl

theorem foldlM_singleton_of_step (h : Step limit r placed r') :
    [placed].foldlM (next limit) r = .ok r' := by
  rw [foldlM_cons_of_step h]
  rfl

theorem height_le {limit : Nat} {e : Expr} (h : e.Fits limit) (hleaf : e.isLeaf = false) :
    e.height ≤ limit := by
  rcases h with h | h
  · cases h.symm.trans hleaf
  · exact h

theorem reads_leaf {text : String} {e : Expr} (he : (Operand.ofTerm text).expr = e)
    (hplaced : placed.token = .term text) (hready : r.Ready .primary) :
    Reads limit .primary e [placed] r := by
  intro signed factor hsigned hfactor
  rw [← he, Operand.of_expr] at hsigned
  exact ⟨placed, foldlM_singleton_of_step (.term hready hplaced hsigned hfactor)⟩

/-- Every derivation is followed to its end. The number of parentheses that may still be opened is
what the limit leaves above those already open. -/
theorem reads_of_derives {rule : Rule} {ts : List Token} {e : Expr} (h : Derives rule ts e) :
    ∀ {tokens : List Placed} {r : Reading}, tokens.map Placed.token = ts → r.Ready rule →
      OpenAtMost .leftParen .rightParen (limit - r.opened.length) ts → e.Fits limit →
      Reads limit rule e tokens r := by
  induction h with
  | @literal text x hread =>
    intro tokens r htokens hready _ _
    obtain ⟨placed, rfl, hplaced⟩ := List.map_eq_singleton_iff.mp htokens
    exact reads_leaf (by simp [Operand.ofTerm, hread]) hplaced hready
  | @reference text hread =>
    intro tokens r htokens hready _ _
    obtain ⟨placed, rfl, hplaced⟩ := List.map_eq_singleton_iff.mp htokens
    exact reads_leaf (by simp [Operand.ofTerm, hread]) hplaced hready
  | @group ts e hsum ih =>
    intro tokens r htokens hready hnests hfits signed factor hsigned hfactor
    obtain ⟨left, rest, rfl, hleft, hrest⟩ := List.map_eq_cons_iff.mp htokens
    obtain ⟨inner, closing, rfl, hinner, hclosing⟩ := List.map_eq_append_iff.mp hrest
    obtain ⟨right, rfl, hright⟩ := List.map_eq_singleton_iff.mp hclosing
    obtain ⟨hlimit, hnests⟩ := (openAtMost_opening_cons (by decide)).mp hnests
    let inside : Reading := { r with
      opened := ⟨left.position, r.pending⟩ :: r.opened, pending := {}, previous := some left }
    have hopen : Step limit r left inside := .leftParen hready hleft (by omega)
    obtain ⟨sum, last, previous, hjoin, hrun⟩ := ih (r := inside) hinner ⟨hready, rfl⟩
      (by simpa [inside, Nat.sub_sub] using hnests.left) hfits
    have hopened : (completed inside.opened sum last previous).opened =
        ⟨left.position, r.pending⟩ :: r.opened := rfl
    have hclose : Step limit (completed inside.opened sum last previous) right
        (completed r.opened r.pending.sum factor right) :=
      .rightParen rfl hright hjoin hopened hsigned hfactor
    exact ⟨right, by rw [foldlM_cons_of_step hopen, foldlM_append_of_ok hrun,
      foldlM_singleton_of_step hclose]⟩
  | unsigned _ ih =>
    intro tokens r htokens hready hnests hfits factor hfactor
    obtain ⟨hoperand, hsign⟩ := hready
    exact ih htokens hoperand hnests hfits _ factor (by rw [hsign]; rfl) hfactor
  | @signed op sign ts e hop _ ih =>
    intro tokens r htokens hready hnests hfits factor hfactor
    obtain ⟨hoperand, hsign⟩ := hready
    obtain ⟨placed, rest, rfl, hplaced, hrest⟩ := List.map_eq_cons_iff.mp htokens
    let after : Reading := { r with
      pending := { r.pending with sign := some sign }, previous := some placed }
    have hstep : Step limit r placed after := .sign hoperand hplaced hsign hop
    obtain ⟨last, hrun⟩ := ih (r := after) hrest hoperand
      ((openAtMost_cons_of_ne (by simp) (by simp)).mp hnests) hfits.operand _ factor
      (Operand.withSign_of_le (height_le hfits rfl)) hfactor
    exact ⟨last, by rw [foldlM_cons_of_step hstep, hrun]⟩
  | factor _ ih =>
    intro tokens r htokens hready hnests hfits
    obtain ⟨hoperand, hsign, hproduct⟩ := hready
    exact ih htokens ⟨hoperand, hsign⟩ hnests hfits _ (by rw [hproduct]; rfl)
  | @multiplied op ts us l e hop hleft hright ihl ihr =>
    intro tokens r htokens hready hnests hfits
    obtain ⟨left, rest, rfl, hts, hrest⟩ := List.map_eq_append_iff.mp htokens
    obtain ⟨placed, right, rfl, hplaced, hus⟩ := List.map_eq_cons_iff.mp hrest
    obtain ⟨previous, hrun⟩ := ihl hts hready hnests.left hfits.left
    let after : Reading := {
      opened := r.opened
      pending := { sum := r.pending.sum, product := some (Operand.of l, op) }
      previous := some placed }
    have hstep : Step limit (completed r.opened r.pending.sum (Operand.of l) previous) placed
        after := .product rfl hplaced hop
    have hnests' := (openAtMost_cons_of_ne (by simp) (by simp)).mp
      (hnests.right hleft.balanced)
    obtain ⟨last, hrun'⟩ := ihr (r := after) hus ⟨rfl, rfl⟩ hnests' hfits.right _
      (Operand.join_of_le (height_le hfits rfl))
    exact ⟨last, by rw [foldlM_append_of_ok hrun, foldlM_cons_of_step hstep, hrun']⟩
  | product _ ih =>
    intro tokens r htokens hready hnests hfits
    obtain ⟨hoperand, hpending⟩ := hready
    obtain ⟨last, hrun⟩ := ih htokens ⟨hoperand, by rw [hpending], by rw [hpending]⟩ hnests hfits
    exact ⟨r.pending.sum, _, last, by rw [hpending]; rfl, hrun⟩
  | @added op ts us l e hop hleft hright ihl ihr =>
    intro tokens r htokens hready hnests hfits
    obtain ⟨left, rest, rfl, hts, hrest⟩ := List.map_eq_append_iff.mp htokens
    obtain ⟨placed, right, rfl, hplaced, hus⟩ := List.map_eq_cons_iff.mp hrest
    obtain ⟨sum, factor, previous, hjoin, hrun⟩ := ihl hts hready hnests.left hfits.left
    let after : Reading := {
      opened := r.opened, pending := { sum := some (Operand.of l, op) }, previous := some placed }
    have hstep : Step limit (completed r.opened sum factor previous) placed after :=
      .sum rfl hplaced hop hjoin
    have hnests' := (openAtMost_cons_of_ne (by simp) (by simp)).mp
      (hnests.right hleft.balanced)
    obtain ⟨last, hrun'⟩ := ihr (r := after) hus ⟨rfl, rfl, rfl⟩ hnests' hfits.right
    exact ⟨_, _, last, Operand.join_of_le (height_le hfits rfl),
      by rw [foldlM_append_of_ok hrun, foldlM_cons_of_step hstep, hrun']⟩

end Reading

/-- Tokens that derive a formula are read as it, when they keep both limits. -/
theorem parseTokens_of_derives {limit position : Nat} {tokens : List Placed} {e : Expr}
    (h : Derives .sum (tokens.map Placed.token) e)
    (hnests : OpenAtMost .leftParen .rightParen limit (tokens.map Placed.token))
    (hfits : e.Fits limit) : parseTokens limit tokens position = .ok e := by
  obtain ⟨sum, factor, last, hjoin, hrun⟩ :=
    Reading.reads_of_derives h (r := {}) rfl ⟨rfl, rfl⟩ hnests hfits
  have hfinish : (Reading.completed [] sum factor last).finish limit position = .ok e :=
    Reading.finish_eq_ok.mpr ⟨factor, Operand.of e, rfl, hjoin, rfl, rfl⟩
  unfold parseTokens
  rw [hrun]
  exact hfinish

/-- A list of tokens derives at most one formula. -/
theorem Derives.unique {ts : List Token} {e₁ e₂ : Expr} (h₁ : Derives .sum ts e₁)
    (h₂ : Derives .sum ts e₂) : e₁ = e₂ := by
  let tokens : List Placed := ts.map (⟨·, 0⟩)
  have htokens : tokens.map Placed.token = ts := by simp [tokens, Function.comp_def]
  -- under a limit that is great enough for both trees, the tokens are read as each of them
  let limit := ts.length + e₁.height + e₂.height
  have hnests : OpenAtMost .leftParen .rightParen limit ts := openAtMost_of_length_le (by omega)
  have hread₁ : parseTokens limit tokens 0 = .ok e₁ :=
    parseTokens_of_derives (htokens ▸ h₁) (htokens ▸ hnests) (.inr (by omega))
  have hread₂ : parseTokens limit tokens 0 = .ok e₂ :=
    parseTokens_of_derives (htokens ▸ h₂) (htokens ▸ hnests) (.inr (by omega))
  exact Except.ok.inj (hread₁.symm.trans hread₂)

end LedgerFields.Formula
