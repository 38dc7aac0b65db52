import LedgerFields.Formula.Parse

/-! Reading under a greater limit. It comes to the same, a depth fault apart: what is read under one
limit is read under every greater one, and so is every other fault. -/

namespace LedgerFields.Formula

variable {limit limit' : Nat} {α β : Type}

/-- The outcome `x` is that of `y`, unless it is the fault of a limit. -/
def AgreesBelow (limit : Nat) (x y : Except FormulaFault α) : Prop :=
  x = .error (.tooDeep limit) ∨ x = y

theorem AgreesBelow.refl (x : Except FormulaFault α) : AgreesBelow limit x x := .inr rfl

theorem AgreesBelow.bind {x y : Except FormulaFault α} {f g : α → Except FormulaFault β}
    (h : AgreesBelow limit x y) (hf : ∀ a, AgreesBelow limit (f a) (g a)) :
    AgreesBelow limit (x >>= f) (y >>= g) := by
  rcases h with rfl | rfl
  · exact .inl rfl
  · cases x with
    | error fault => exact .refl _
    | ok a => exact hf a

namespace Operand

theorem agrees_check (hlimit : limit ≤ limit') (a : Operand) :
    AgreesBelow limit (check limit a) (check limit' a) := by
  unfold check
  by_cases h : limit < a.height
  · exact .inl (if_pos h)
  · rw [if_neg h, if_neg (by omega)]
    exact .refl _

theorem agrees_withSign (hlimit : limit ≤ limit') (sign : Option Sign) (a : Operand) :
    AgreesBelow limit (a.withSign limit sign) (a.withSign limit' sign) := by
  cases sign with
  | none => exact .refl _
  | some sign => exact agrees_check hlimit _

theorem agrees_join (hlimit : limit ≤ limit') (waiting : Option (Operand × BinaryOp))
    (a : Operand) : AgreesBelow limit (a.join limit waiting) (a.join limit' waiting) := by
  rcases waiting with _ | ⟨left, op⟩
  · exact .refl _
  · exact agrees_check hlimit _

end Operand

namespace Reading

theorem agrees_complete (hlimit : limit ≤ limit') (r : Reading) (operand : Operand) :
    AgreesBelow limit (r.complete limit operand) (r.complete limit' operand) := by
  apply (Operand.agrees_withSign hlimit _ _).bind
  intro signed
  apply (Operand.agrees_join hlimit _ _).bind
  intro factor
  exact .refl _

theorem agrees_beforeOperand (hlimit : limit ≤ limit') (r : Reading) (placed : Placed) :
    AgreesBelow limit (r.beforeOperand limit placed) (r.beforeOperand limit' placed) := by
  unfold beforeOperand
  split
  · exact agrees_complete hlimit r _
  · by_cases h : limit < r.opened.length + 1
    · exact .inl (if_pos h)
    · rw [if_neg h, if_neg (by omega)]
      exact .refl _
  · exact .refl _
  · exact .refl _

theorem agrees_afterOperand (hlimit : limit ≤ limit') (r : Reading) (operand : Operand)
    (placed : Placed) :
    AgreesBelow limit (r.afterOperand limit operand placed)
      (r.afterOperand limit' operand placed) := by
  have hjoin := Operand.agrees_join hlimit r.pending.sum operand
  unfold afterOperand
  split
  · exact .refl _
  · exact .refl _
  · exact hjoin.bind fun sum => .refl _
  · apply hjoin.bind
    intro sum
    split
    · exact .refl _
    · exact agrees_complete hlimit _ sum
  · exact hjoin.bind fun _ => .refl _
  · exact hjoin.bind fun _ => .refl _

theorem agrees_next (hlimit : limit ≤ limit') (r : Reading) (placed : Placed) :
    AgreesBelow limit (next limit r placed) (next limit' r placed) := by
  unfold next
  split
  · exact (agrees_beforeOperand hlimit r placed).bind fun _ => .refl _
  · exact (agrees_afterOperand hlimit r _ placed).bind fun _ => .refl _

theorem agrees_run (hlimit : limit ≤ limit') (tokens : List Placed) (r : Reading) :
    AgreesBelow limit (tokens.foldlM (next limit) r) (tokens.foldlM (next limit') r) := by
  induction tokens generalizing r with
  | nil => exact .refl _
  | cons placed tokens ih =>
    simp only [List.foldlM_cons]
    exact (agrees_next hlimit r placed).bind ih

theorem agrees_finish (hlimit : limit ≤ limit') (r : Reading) (position : Nat) :
    AgreesBelow limit (r.finish limit position) (r.finish limit' position) := by
  unfold finish
  split
  · exact .refl _
  · exact (Operand.agrees_join hlimit _ _).bind fun _ => .refl _

end Reading

/-- Raising the limit changes nothing but a depth fault. -/
theorem agrees_parseTokens (hlimit : limit ≤ limit') (tokens : List Placed) (position : Nat) :
    AgreesBelow limit (parseTokens limit tokens position) (parseTokens limit' tokens position) :=
  (Reading.agrees_run hlimit tokens {}).bind fun r => r.agrees_finish hlimit position

end LedgerFields.Formula
