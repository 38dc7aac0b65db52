import LedgerFields.Proofs.Formula.Reading.Completeness
import LedgerFields.Proofs.Formula.Reading.Limit

/-! Tokens that may still become a formula. What has been read can always be completed: by an
operand where one must come next, and then by a closing parenthesis for each open one. And what some
formula starts with is read as long as the limit is not in the way. -/

namespace LedgerFields.Formula

/-- Some formula starts with these tokens. -/
def Viable (ts : List Token) : Prop :=
  ∃ rest e, Derives .sum (ts ++ rest) e

theorem Viable.of_prefix {ts us : List Token} (h : Viable us) (hts : ts <+: us) : Viable ts := by
  obtain ⟨rest, e, hderives⟩ := h
  obtain ⟨more, rfl⟩ := hts
  exact ⟨more ++ rest, e, by rwa [← List.append_assoc]⟩

namespace Operand

theorem exists_withSign (sign : Option Sign) (a : Operand) :
    ∃ b, ∀ limit, b.height ≤ limit → a.withSign limit sign = .ok b := by
  cases sign with
  | none => exact ⟨a, fun _ _ => rfl⟩
  | some sign =>
    refine ⟨of (.signed sign a.expr), fun limit hlimit => ?_⟩
    exact withSign_some_eq_ok.mpr ⟨rfl, hlimit⟩

theorem exists_join (waiting : Option (Operand × BinaryOp)) (a : Operand) :
    ∃ b, ∀ limit, b.height ≤ limit → a.join limit waiting = .ok b := by
  rcases waiting with _ | ⟨left, op⟩
  · exact ⟨a, fun _ _ => rfl⟩
  · refine ⟨of (.binary op left.expr a.expr), fun limit hlimit => ?_⟩
    exact join_some_eq_ok.mpr ⟨rfl, hlimit⟩

end Operand

namespace Reading

variable {r : Reading} {ts : List Token}

theorem exists_step_term (hoperand : r.operand = none) (text : String) :
    ∃ limit r', Step limit r ⟨.term text, 0⟩ r' ∧ r'.operand.isSome = true := by
  obtain ⟨signed, hsigned⟩ := Operand.exists_withSign r.pending.sign (Operand.ofTerm text)
  obtain ⟨factor, hfactor⟩ := Operand.exists_join r.pending.product signed
  exact ⟨max signed.height factor.height, _, .term hoperand rfl (hsigned _ (Nat.le_max_left _ _))
    (hfactor _ (Nat.le_max_right _ _)), rfl⟩

theorem exists_step_rightParen {operand : Operand} {group : Opened} {opened : List Opened}
    (hoperand : r.operand = some operand) (hopened : r.opened = group :: opened) :
    ∃ limit r', Step limit r ⟨.rightParen, 0⟩ r' ∧ r'.operand.isSome = true ∧
      r'.opened = opened := by
  obtain ⟨sum, hsum⟩ := Operand.exists_join r.pending.sum operand
  obtain ⟨signed, hsigned⟩ := Operand.exists_withSign group.outside.sign sum
  obtain ⟨factor, hfactor⟩ := Operand.exists_join group.outside.product signed
  let limit := sum.height + signed.height + factor.height
  exact ⟨limit, _, .rightParen hoperand rfl (hsum limit (by omega)) hopened
    (hsigned limit (by omega)) (hfactor limit (by omega)), rfl, rfl⟩

/-- After an operand, it is enough to close the open parentheses. -/
theorem Spells.viable_of_some (h : r.Spells ts) (hoperand : r.operand.isSome = true) :
    Viable ts := by
  generalize hopened : r.opened = opened
  induction opened generalizing r ts with
  | nil =>
    obtain ⟨operand, hoperand⟩ := Option.isSome_iff_exists.mp hoperand
    obtain ⟨outer, waiting, product, rfl, houter, hsum, hproduct, -⟩ := h.of_some hoperand
    rw [hopened] at houter
    cases houter
    obtain ⟨sum, hjoin⟩ := Operand.exists_join r.pending.sum operand
    have hderives := hsum.derives .sum hproduct (hjoin sum.height (Nat.le_refl _))
    exact ⟨[], sum.expr, by simpa using hderives⟩
  | cons group opened ih =>
    obtain ⟨operand, hoperand⟩ := Option.isSome_iff_exists.mp hoperand
    obtain ⟨limit, r', hstep, hsome, hrest⟩ := exists_step_rightParen hoperand hopened
    have hviable := ih (h.step hstep) hsome hrest
    exact hviable.of_prefix (List.prefix_append ts _)

theorem Spells.viable (h : r.Spells ts) : Viable ts := by
  cases hoperand : r.operand with
  | some operand => exact h.viable_of_some (by rw [hoperand]; rfl)
  | none =>
    obtain ⟨limit, r', hstep, hsome⟩ := exists_step_term hoperand "0"
    have hviable := (h.step hstep).viable_of_some hsome
    exact hviable.of_prefix (List.prefix_append ts _)

end Reading

/-- Tokens that are read start some formula. -/
theorem viable_of_run {limit : Nat} {tokens : List Placed} {r : Reading}
    (h : tokens.foldlM (Reading.next limit) {} = .ok r) : Viable (tokens.map Placed.token) :=
  (Reading.spells_of_run h).viable

/-- A formula is read under every limit, or ends in its fault. -/
theorem agrees_of_derives (limit position : Nat) {tokens : List Placed} {e : Expr}
    (h : Derives .sum (tokens.map Placed.token) e) :
    AgreesBelow limit (parseTokens limit tokens position) (.ok e) := by
  -- a limit that is great enough for the parentheses and for the tree
  let limit' := limit + tokens.length + e.height
  have hnests : OpenAtMost .leftParen .rightParen limit' (tokens.map Placed.token) := by
    apply openAtMost_of_length_le
    rw [List.length_map]
    omega
  have hread : parseTokens limit' tokens position = .ok e :=
    parseTokens_of_derives h hnests (.inr (by omega))
  rw [← hread]
  exact agrees_parseTokens (by omega) tokens position

/-- Tokens that start some formula are read, unless the limit ends the reading. -/
theorem fault_of_viable {limit : Nat} {tokens : List Placed} {fault : FormulaFault}
    (h : Viable (tokens.map Placed.token))
    (hrun : tokens.foldlM (Reading.next limit) {} = .error fault) : fault = .tooDeep limit := by
  obtain ⟨rest, e, hderives⟩ := h
  let later : List Placed := rest.map (⟨·, 0⟩)
  have hmap : (tokens ++ later).map Placed.token = tokens.map Placed.token ++ rest := by
    simp [later, Function.comp_def]
  have hagrees := agrees_of_derives limit 0 (hmap ▸ hderives)
  unfold parseTokens at hagrees
  rw [List.foldlM_append, hrun] at hagrees
  rcases hagrees with hfault | hok
  · cases hfault
    rfl
  · cases hok

end LedgerFields.Formula
