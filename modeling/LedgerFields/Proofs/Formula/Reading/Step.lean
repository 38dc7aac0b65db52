import LedgerFields.Formula.Parse
import LedgerFields.Proofs.Fallible
import LedgerFields.Proofs.Formula.Grammar

/-! What one step of reading a formula can do. `Step` lists the steps that succeed, with what each
of them checks, so that no later proof opens `next`. -/

namespace LedgerFields.Formula

namespace Operand

theorem eq_of_expr {a b : Operand} (h : a.expr = b.expr) : a = b := by
  obtain ⟨e, n, hn⟩ := a
  obtain ⟨e', n', hn'⟩ := b
  subst hn hn'
  obtain rfl : e = e' := h
  rfl

/-- The operand that an expression is. -/
def of (e : Expr) : Operand := { expr := e, height := e.height }

@[simp] theorem of_expr (operand : Operand) : of operand.expr = operand := eq_of_expr rfl

theorem check_eq_ok {limit : Nat} {a b : Operand} :
    check limit a = .ok b ↔ a = b ∧ a.expr.height ≤ limit := by
  unfold check
  rw [a.height_eq]
  split
  · next h => exact ⟨fun h' => (by cases h'), fun h' => absurd h'.2 (Nat.not_le.mpr h)⟩
  · next h => exact ⟨fun h' => ⟨Except.ok.inj h', Nat.not_lt.mp h⟩, fun h' => by rw [h'.1]⟩

theorem withSign_some_eq_ok {limit : Nat} {sign : Sign} {a b : Operand} :
    a.withSign limit (some sign) = .ok b ↔
      b.expr = .signed sign a.expr ∧ (Expr.signed sign a.expr).height ≤ limit := by
  unfold withSign
  rw [check_eq_ok]
  exact ⟨fun ⟨h, hle⟩ => ⟨h ▸ rfl, hle⟩, fun ⟨h, hle⟩ => ⟨eq_of_expr h.symm, hle⟩⟩

theorem join_some_eq_ok {limit : Nat} {left : Operand} {op : BinaryOp} {a b : Operand} :
    a.join limit (some (left, op)) = .ok b ↔
      b.expr = .binary op left.expr a.expr ∧ (Expr.binary op left.expr a.expr).height ≤ limit := by
  unfold join
  rw [check_eq_ok]
  exact ⟨fun ⟨h, hle⟩ => ⟨h ▸ rfl, hle⟩, fun ⟨h, hle⟩ => ⟨eq_of_expr h.symm, hle⟩⟩

/-- A term is read as the leaf that the grammar gives it. -/
theorem derives_ofTerm (text : String) : Derives .primary [.term text] (ofTerm text).expr := by
  unfold ofTerm
  split
  · next h => exact .literal h
  · next h => exact .reference h

theorem isLeaf_ofTerm (text : String) : (ofTerm text).expr.isLeaf = true := by
  unfold ofTerm
  split <;> rfl

end Operand

namespace Reading

/-- Completing an operand applies the sign that waits and forms the product that waits. -/
theorem complete_eq_ok {r r' : Reading} {limit : Nat} {operand : Operand} :
    r.complete limit operand = .ok r' ↔ ∃ signed factor,
      operand.withSign limit r.pending.sign = .ok signed ∧
      signed.join limit r.pending.product = .ok factor ∧
      r' = { r with pending := { sum := r.pending.sum }, operand := some factor } := by
  unfold complete
  simp only [bind_eq_ok]
  constructor
  · rintro ⟨signed, hsigned, factor, hfactor, h⟩
    exact ⟨signed, factor, hsigned, hfactor, (Except.ok.inj h).symm⟩
  · rintro ⟨signed, factor, hsigned, hfactor, rfl⟩
    exact ⟨signed, hsigned, factor, hfactor, rfl⟩

/-- The reading in which `placed` has just completed a product, while a sum may wait. -/
def completed (opened : List Opened) (sum : Option (Operand × BinaryOp)) (factor : Operand)
    (placed : Placed) : Reading :=
  { opened, pending := { sum }, operand := some factor, previous := some placed }

/-- The successful steps. -/
inductive Step (limit : Nat) (r : Reading) (placed : Placed) : Reading → Prop where
  | term {text : String} {signed factor : Operand} :
      r.operand = none → placed.token = .term text →
      (Operand.ofTerm text).withSign limit r.pending.sign = .ok signed →
      signed.join limit r.pending.product = .ok factor →
      Step limit r placed (completed r.opened r.pending.sum factor placed)
  | leftParen :
      r.operand = none → placed.token = .leftParen → r.opened.length + 1 ≤ limit →
      Step limit r placed { r with
        opened := ⟨placed.position, r.pending⟩ :: r.opened, pending := {}, previous := some placed }
  | sign {op : BinaryOp} {sign : Sign} :
      r.operand = none → placed.token = .op op → r.pending.sign = none → op.sign? = some sign →
      Step limit r placed { r with
        pending := { r.pending with sign := some sign }, previous := some placed }
  | product {op : BinaryOp} {operand : Operand} :
      r.operand = some operand → placed.token = .op op → op.rule = .product →
      Step limit r placed { r with
        pending := { r.pending with product := some (operand, op) }
        operand := none
        previous := some placed }
  | sum {op : BinaryOp} {operand sum : Operand} :
      r.operand = some operand → placed.token = .op op → op.rule = .sum →
      operand.join limit r.pending.sum = .ok sum →
      Step limit r placed { r with
        pending := { sum := some (sum, op) }, operand := none, previous := some placed }
  | rightParen {operand sum signed factor : Operand} {group : Opened} {opened : List Opened} :
      r.operand = some operand → placed.token = .rightParen →
      operand.join limit r.pending.sum = .ok sum → r.opened = group :: opened →
      sum.withSign limit group.outside.sign = .ok signed →
      signed.join limit group.outside.product = .ok factor →
      Step limit r placed (completed opened group.outside.sum factor placed)

variable {limit : Nat} {r r' : Reading} {placed : Placed}

theorem step_of_beforeOperand {after : Reading} (hoperand : r.operand = none)
    (h : r.beforeOperand limit placed = .ok after) :
    Step limit r placed { after with previous := some placed } := by
  unfold beforeOperand at h
  split at h
  · next text htoken =>
    obtain ⟨signed, factor, hsigned, hfactor, rfl⟩ := complete_eq_ok.mp h
    exact .term hoperand htoken hsigned hfactor
  · next htoken =>
    split at h
    · cases h
    · next hlimit =>
      cases h
      have := Step.leftParen hoperand htoken (Nat.not_lt.mp hlimit)
      simpa [hoperand] using this
  · next op htoken =>
    split at h
    · next sign hsign hop =>
      cases h
      have : Step limit r placed _ := .sign hoperand htoken hsign hop
      simpa [hoperand] using this
    · cases h
  · split at h <;> cases h

theorem step_of_afterOperand {operand : Operand} {after : Reading}
    (hoperand : r.operand = some operand)
    (h : r.afterOperand limit operand placed = .ok after) :
    Step limit r placed { after with previous := some placed } := by
  unfold afterOperand at h
  split at h
  · next htoken =>
    cases h
    exact .product hoperand htoken rfl
  · next htoken =>
    cases h
    exact .product hoperand htoken rfl
  · next op hmultiply hdivide htoken =>
    obtain ⟨sum, hsum, h⟩ := bind_eq_ok.mp h
    cases h
    have hrule : op.rule = .sum := by
      cases op
      · rfl
      · rfl
      · exact absurd rfl hmultiply
      · exact absurd rfl hdivide
    exact .sum hoperand htoken hrule hsum
  · next htoken =>
    obtain ⟨sum, hsum, h⟩ := bind_eq_ok.mp h
    split at h
    · cases h
    · next group opened hopened =>
      obtain ⟨signed, factor, hsigned, hfactor, rfl⟩ := complete_eq_ok.mp h
      exact .rightParen hoperand htoken hsum hopened hsigned hfactor
  · obtain ⟨_, _, h⟩ := bind_eq_ok.mp h
    cases h
  · obtain ⟨_, _, h⟩ := bind_eq_ok.mp h
    cases h

theorem step_of_next (h : next limit r placed = .ok r') : Step limit r placed r' := by
  simp only [next] at h
  split at h
  · next hoperand =>
    obtain ⟨after, hafter, h⟩ := bind_eq_ok.mp h
    cases h
    exact step_of_beforeOperand hoperand hafter
  · next operand hoperand =>
    obtain ⟨after, hafter, h⟩ := bind_eq_ok.mp h
    cases h
    exact step_of_afterOperand hoperand hafter

theorem next_of_step (h : Step limit r placed r') : next limit r placed = .ok r' := by
  cases h with
  | @term text signed factor hoperand htoken hsigned hfactor =>
    have hcomplete := complete_eq_ok.mpr ⟨signed, factor, hsigned, hfactor, rfl⟩
    simp only [next, beforeOperand, hoperand, htoken, hcomplete]
    rfl
  | leftParen hoperand htoken hlimit =>
    simp only [next, beforeOperand, hoperand, htoken, if_neg (Nat.not_lt.mpr hlimit)]
    rfl
  | sign hoperand htoken hsign hop =>
    simp only [next, beforeOperand, hoperand, htoken, hsign, hop]
    rfl
  | @product op operand hoperand htoken hrule =>
    cases op with
    | add | subtract => cases hrule
    | multiply | divide => simp only [next, afterOperand, hoperand, htoken]; rfl
  | @sum op operand sum hoperand htoken hrule hsum =>
    cases op with
    | add | subtract => simp only [next, afterOperand, hoperand, htoken, hsum]; rfl
    | multiply | divide => cases hrule
  | @rightParen operand sum signed factor group opened hoperand htoken hsum hopened hsigned
      hfactor =>
    have hcomplete := complete_eq_ok (r := { r with opened, pending := group.outside }).mpr
      ⟨signed, factor, hsigned, hfactor, rfl⟩
    rw [hoperand] at hcomplete
    simp only [next, afterOperand, hoperand, htoken, hsum, hopened, bind, Except.bind, hcomplete]
    rfl

/-- Reading ends well when an operand is complete and no parenthesis is open. -/
theorem finish_eq_ok {position : Nat} {e : Expr} :
    r.finish limit position = .ok e ↔ ∃ operand sum, r.operand = some operand ∧
      operand.join limit r.pending.sum = .ok sum ∧ r.opened = [] ∧ sum.expr = e := by
  unfold finish
  split
  · next hoperand =>
    exact ⟨fun h => (by cases h), fun ⟨_, _, h, _⟩ => (by cases hoperand.symm.trans h)⟩
  · next operand hoperand =>
    rw [bind_eq_ok]
    constructor
    · rintro ⟨sum, hsum, h⟩
      split at h
      · next hopened => exact ⟨operand, sum, hoperand, hsum, hopened, Except.ok.inj h⟩
      · cases h
    · rintro ⟨operand', sum, hoperand', hsum, hopened, rfl⟩
      obtain rfl : operand = operand' := Option.some.inj (hoperand.symm.trans hoperand')
      exact ⟨sum, hsum, by rw [hopened]; rfl⟩

end Reading

end LedgerFields.Formula
