import LedgerFields.Proofs.Formula.Reading.Step

/-! What a reading holds is what the grammar says of the tokens read so far: the operands that wait,
with their operations and signs, spell the tokens from the left, and each of them is derived from
its part. -/

namespace LedgerFields.Formula

/-- The rules of the two chains, each with the rule of what it joins. -/
inductive ChainOf : Rule → Rule → Prop where
  | sum : ChainOf .sum .product
  | product : ChainOf .product .factor

/-- The tokens of a left operand that waits in a chain of `rule`, and of its operation. -/
inductive Waits (rule : Rule) : Option (Operand × BinaryOp) → List Token → Prop where
  | none : Waits rule none []
  | some {operand : Operand} {op : BinaryOp} {ts : List Token} :
      op.rule = rule → Derives rule ts operand.expr →
      Waits rule (some (operand, op)) (ts ++ [.op op])

/-- The token of a sign that waits. -/
inductive SpellsSign : Option Sign → List Token → Prop where
  | none : SpellsSign none []
  | some {op : BinaryOp} {sign : Sign} : op.sign? = some sign → SpellsSign (some sign) [.op op]

/-- The tokens of what waits on one level. -/
inductive Pending.Spells (pending : Pending) : List Token → Prop where
  | mk {sum product sign : List Token} :
      Waits .sum pending.sum sum → Waits .product pending.product product →
      SpellsSign pending.sign sign → Spells pending (sum ++ (product ++ sign))

/-- The tokens up to the innermost open parenthesis. -/
inductive SpellsOpened : List Opened → List Token → Prop where
  | nil : SpellsOpened [] []
  | cons {group : Opened} {opened : List Opened} {outer inner : List Token} :
      SpellsOpened opened outer → group.outside.Spells inner →
      SpellsOpened (group :: opened) (outer ++ inner ++ [.leftParen])

/-- The tokens read so far: either an operand must come next, or a product has just been read. -/
inductive Reading.Spells (r : Reading) : List Token → Prop where
  | before {outer inner : List Token} :
      r.operand = none → SpellsOpened r.opened outer → r.pending.Spells inner →
      Spells r (outer ++ inner)
  | after {operand : Operand} {outer sum product : List Token} :
      r.operand = some operand → SpellsOpened r.opened outer → Waits .sum r.pending.sum sum →
      Derives .product product operand.expr → r.pending.sign = none →
      Spells r (outer ++ (sum ++ product))

section

variable {limit : Nat} {a b : Operand} {ts us : List Token}

theorem SpellsSign.derives {sign : Option Sign} (hsign : SpellsSign sign ts)
    (ha : Derives .primary us a.expr) (h : a.withSign limit sign = .ok b) :
    Derives .factor (ts ++ us) b.expr := by
  cases hsign with
  | none =>
    cases h
    exact .unsigned ha
  | some hop =>
    rw [(Operand.withSign_some_eq_ok.mp h).1]
    exact .signed hop ha

theorem ChainOf.alone {rule part : Rule} (hchain : ChainOf rule part) {e : Expr}
    (h : Derives part ts e) : Derives rule ts e := by
  cases hchain with
  | sum => exact .product h
  | product => exact .factor h

theorem ChainOf.joined {rule part : Rule} (hchain : ChainOf rule part) {op : BinaryOp}
    {l r : Expr} (hop : op.rule = rule) (hl : Derives rule ts l) (hr : Derives part us r) :
    Derives rule (ts ++ .op op :: us) (.binary op l r) := by
  cases hchain with
  | sum => exact .added hop hl hr
  | product => exact .multiplied hop hl hr

/-- An operand of a chain continues the chain that waits for it. -/
theorem Waits.derives {rule part : Rule} {waiting : Option (Operand × BinaryOp)}
    (hwaiting : Waits rule waiting ts) (hchain : ChainOf rule part) (ha : Derives part us a.expr)
    (h : a.join limit waiting = .ok b) : Derives rule (ts ++ us) b.expr := by
  cases hwaiting with
  | none =>
    cases h
    exact hchain.alone ha
  | some hop hleft =>
    rw [(Operand.join_some_eq_ok.mp h).1, List.append_assoc]
    exact hchain.joined hop hleft ha

/-- A primary that is completed on a level makes a product there, and the sum still waits. -/
theorem Pending.Spells.complete {pending : Pending} {signed factor : Operand}
    (hpending : pending.Spells ts) (ha : Derives .primary us a.expr)
    (hsigned : a.withSign limit pending.sign = .ok signed)
    (hfactor : signed.join limit pending.product = .ok factor) :
    ∃ sum product, Waits .sum pending.sum sum ∧ Derives .product product factor.expr ∧
      ts ++ us = sum ++ product := by
  obtain ⟨hsum, hproduct, hsign⟩ := hpending
  exact ⟨_, _, hsum, hproduct.derives .product (hsign.derives ha hsigned) hfactor,
    by simp only [List.append_assoc]⟩

end

namespace Reading

variable {limit : Nat} {r r' : Reading} {placed : Placed} {ts : List Token}

/-- A reading in which a product has just been completed. -/
theorem spells_completed {opened : List Opened} {waiting : Option (Operand × BinaryOp)}
    {factor : Operand} {outer sum product : List Token} (houter : SpellsOpened opened outer)
    (hsum : Waits .sum waiting sum) (hproduct : Derives .product product factor.expr) :
    (completed opened waiting factor placed).Spells (outer ++ (sum ++ product)) :=
  .after rfl houter hsum hproduct rfl

theorem Spells.of_none (h : r.Spells ts) (hoperand : r.operand = none) :
    ∃ outer inner, ts = outer ++ inner ∧ SpellsOpened r.opened outer ∧ r.pending.Spells inner := by
  cases h with
  | @before outer inner _ houter hpending => exact ⟨outer, inner, rfl, houter, hpending⟩
  | after h => cases hoperand.symm.trans h

theorem Spells.of_some {operand : Operand} (h : r.Spells ts) (hoperand : r.operand = some operand) :
    ∃ outer sum product, ts = outer ++ (sum ++ product) ∧ SpellsOpened r.opened outer ∧
      Waits .sum r.pending.sum sum ∧ Derives .product product operand.expr ∧
      r.pending.sign = none := by
  cases h with
  | before h => cases hoperand.symm.trans h
  | @after operand' outer sum product hoperand' houter hsum hproduct hsign =>
    obtain rfl : operand = operand' := Option.some.inj (hoperand.symm.trans hoperand')
    exact ⟨outer, sum, product, rfl, houter, hsum, hproduct, hsign⟩

theorem Spells.step (h : r.Spells ts) (hstep : Step limit r placed r') :
    r'.Spells (ts ++ [placed.token]) := by
  cases hstep with
  | @term text signed factor hoperand htoken hsigned hfactor =>
    obtain ⟨outer, inner, rfl, houter, hpending⟩ := h.of_none hoperand
    obtain ⟨sum, product, hsum, hproduct, heq⟩ :=
      hpending.complete (Operand.derives_ofTerm text) hsigned hfactor
    rw [htoken, List.append_assoc, heq]
    exact spells_completed houter hsum hproduct
  | leftParen hoperand htoken _ =>
    obtain ⟨outer, inner, rfl, houter, hpending⟩ := h.of_none hoperand
    have hlevel : Pending.Spells {} ([] ++ ([] ++ [])) := .mk .none .none .none
    rw [htoken]
    simpa using Spells.before (r := { r with
      opened := ⟨placed.position, r.pending⟩ :: r.opened, pending := {}, previous := some placed })
      hoperand (.cons houter hpending) hlevel
  | @sign op sign hoperand htoken hsign hop =>
    obtain ⟨outer, inner, rfl, houter, hpending⟩ := h.of_none hoperand
    obtain ⟨hsum, hproduct, hspelled⟩ := hpending
    rw [hsign] at hspelled
    cases hspelled
    have hlevel : Pending.Spells { r.pending with sign := some sign } _ :=
      .mk hsum hproduct (.some hop)
    rw [htoken]
    simpa using Spells.before (r := { r with
      pending := { r.pending with sign := some sign }, previous := some placed })
      hoperand houter hlevel
  | @product op operand hoperand htoken hrule =>
    obtain ⟨outer, sum, product, rfl, houter, hsum, hproduct, hsign⟩ := h.of_some hoperand
    have hspelled : SpellsSign r.pending.sign [] := by
      rw [hsign]
      exact .none
    have hlevel : Pending.Spells { r.pending with product := some (operand, op) } _ :=
      .mk hsum (.some hrule hproduct) hspelled
    rw [htoken]
    simpa using Spells.before (r := { r with
      pending := { r.pending with product := some (operand, op) }
      operand := none
      previous := some placed }) rfl houter hlevel
  | @sum op operand sum hoperand htoken hrule hjoin =>
    obtain ⟨outer, waiting, product, rfl, houter, hsum, hproduct, -⟩ := h.of_some hoperand
    have hlevel : Pending.Spells { sum := some (sum, op) } _ :=
      .mk (.some hrule (hsum.derives .sum hproduct hjoin)) .none .none
    rw [htoken]
    simpa using Spells.before (r := { r with
      pending := { sum := some (sum, op) }, operand := none, previous := some placed })
      rfl houter hlevel
  | @rightParen operand sum signed factor group opened hoperand htoken hjoin hopened hsigned
      hfactor =>
    obtain ⟨outer, waiting, product, rfl, houter, hsum, hproduct, -⟩ := h.of_some hoperand
    rw [hopened] at houter
    cases houter with
    | @cons _ _ outer inner houter hpending =>
      have hgroup := Derives.group (hsum.derives .sum hproduct hjoin)
      obtain ⟨sum', product', hsum', hproduct', heq⟩ :=
        hpending.complete hgroup hsigned hfactor
      have hts : outer ++ inner ++ [Token.leftParen] ++ (waiting ++ product) ++ [.rightParen] =
          outer ++ (sum' ++ product') := by
        rw [← heq]
        simp
      rw [htoken, hts]
      exact spells_completed houter hsum' hproduct'

/-- How the limits hold while a formula is read: no start of the tokens opens too many parentheses,
those open are the ones on the stack, and the operand that is complete is not too high. -/
structure Within (limit : Nat) (r : Reading) (ts : List Token) : Prop where
  nests : OpenAtMost .leftParen .rightParen limit ts
  opened : ts.count .leftParen = ts.count .rightParen + r.opened.length
  fits : ∀ operand ∈ r.operand, operand.expr.Fits limit

theorem fits_of_withSign {sign : Option Sign} {a b : Operand} (ha : a.expr.Fits limit)
    (h : a.withSign limit sign = .ok b) : b.expr.Fits limit := by
  cases sign with
  | none =>
    cases h
    exact ha
  | some sign =>
    obtain ⟨hb, hle⟩ := Operand.withSign_some_eq_ok.mp h
    exact .inr (hb ▸ hle)

theorem fits_of_join {waiting : Option (Operand × BinaryOp)} {a b : Operand}
    (ha : a.expr.Fits limit) (h : a.join limit waiting = .ok b) : b.expr.Fits limit := by
  rcases waiting with _ | ⟨left, op⟩
  · cases h
    exact ha
  · obtain ⟨hb, hle⟩ := Operand.join_some_eq_ok.mp h
    exact .inr (hb ▸ hle)

theorem Within.step (h : r.Within limit ts) (hstep : Step limit r placed r') :
    r'.Within limit (ts ++ [placed.token]) := by
  obtain ⟨hnests, hopened, hfits⟩ := h
  -- only parentheses change how many are open, so that all other steps share this argument
  have hother : placed.token ≠ .leftParen → placed.token ≠ .rightParen →
      OpenAtMost .leftParen .rightParen limit (ts ++ [placed.token]) ∧
        (ts ++ [placed.token]).count .leftParen =
          (ts ++ [placed.token]).count .rightParen + r.opened.length := by
    intro hleft hright
    have hcounts : (ts ++ [placed.token]).count .leftParen =
        (ts ++ [placed.token]).count .rightParen + r.opened.length := by
      simp [List.count_append, hleft, hright, hopened]
    refine ⟨hnests.concat ?_, hcounts⟩
    have := hnests.of_prefix (List.prefix_refl ts)
    simpa [List.count_append, List.count_singleton, hleft, hright] using this
  cases hstep with
  | @term text signed factor hoperand htoken hsigned hfactor =>
    obtain ⟨h1, h2⟩ := hother (by simp [htoken]) (by simp [htoken])
    refine ⟨h1, h2, fun operand hmem => ?_⟩
    obtain rfl : factor = operand := Option.some.inj hmem
    exact fits_of_join (fits_of_withSign (.inl (Operand.isLeaf_ofTerm text)) hsigned) hfactor
  | leftParen hoperand htoken hlimit =>
    have hcounts : (ts ++ [placed.token]).count .leftParen =
        (ts ++ [placed.token]).count .rightParen + (r.opened.length + 1) := by
      simp [htoken, hopened]
      omega
    exact ⟨hnests.concat (by omega), hcounts, fun operand hmem => by cases hoperand.symm.trans hmem⟩
  | sign hoperand htoken hsign hop =>
    obtain ⟨h1, h2⟩ := hother (by simp [htoken]) (by simp [htoken])
    exact ⟨h1, h2, hfits⟩
  | product hoperand htoken hrule =>
    obtain ⟨h1, h2⟩ := hother (by simp [htoken]) (by simp [htoken])
    exact ⟨h1, h2, fun operand hmem => by cases hmem⟩
  | sum hoperand htoken hrule hjoin =>
    obtain ⟨h1, h2⟩ := hother (by simp [htoken]) (by simp [htoken])
    exact ⟨h1, h2, fun operand hmem => by cases hmem⟩
  | @rightParen operand sum signed factor group opened hoperand htoken hjoin hcons hsigned
      hfactor =>
    rw [hcons, List.length_cons] at hopened
    have hcounts : (ts ++ [placed.token]).count .leftParen =
        (ts ++ [placed.token]).count .rightParen + opened.length := by
      simp [htoken, hopened]
      omega
    have hle := hnests.of_prefix (List.prefix_refl ts)
    refine ⟨hnests.concat (by omega), hcounts, fun operand' hmem => ?_⟩
    obtain rfl : factor = operand' := Option.some.inj hmem
    exact fits_of_join (fits_of_withSign (fits_of_join (hfits operand hoperand) hjoin) hsigned)
      hfactor

/-- What holds of the tokens before a run holds, with those of the run, after it. -/
theorem run_invariant {P : Reading → List Token → Prop}
    (hstep : ∀ {r r' : Reading} {placed : Placed} {ts : List Token},
      P r ts → Step limit r placed r' → P r' (ts ++ [placed.token]))
    {tokens : List Placed} (h : P r ts)
    (hrun : tokens.foldlM (next limit) r = .ok r') : P r' (ts ++ tokens.map Placed.token) := by
  induction tokens generalizing r ts with
  | nil =>
    cases hrun
    simpa using h
  | cons placed tokens ih =>
    rw [List.foldlM_cons, bind_eq_ok] at hrun
    obtain ⟨middle, hnext, hrun⟩ := hrun
    have := ih (hstep h (step_of_next hnext)) hrun
    simpa using this

/-- A reading spells the tokens that it has read. -/
theorem spells_of_run {tokens : List Placed} (h : tokens.foldlM (next limit) {} = .ok r) :
    r.Spells (tokens.map Placed.token) := by
  have hlevel : Pending.Spells {} ([] ++ ([] ++ [])) := .mk .none .none .none
  have hstart : Reading.Spells {} ([] ++ []) := .before rfl .nil hlevel
  simpa using run_invariant (P := Spells) Spells.step hstart h

/-- A reading keeps both limits in the tokens that it has read. -/
theorem within_of_run {tokens : List Placed} (h : tokens.foldlM (next limit) {} = .ok r) :
    r.Within limit (tokens.map Placed.token) := by
  have hstart : Reading.Within limit {} [] := ⟨.nil, rfl, fun _ hmem => by cases hmem⟩
  exact run_invariant (P := Within limit) Within.step hstart h

end Reading

/-- Tokens that are read as a formula derive it, and keep both limits. -/
theorem derives_of_parseTokens {limit position : Nat} {tokens : List Placed} {e : Expr}
    (h : parseTokens limit tokens position = .ok e) :
    Derives .sum (tokens.map Placed.token) e ∧
      OpenAtMost .leftParen .rightParen limit (tokens.map Placed.token) ∧ e.Fits limit := by
  obtain ⟨r, hrun, hfinish⟩ := bind_eq_ok.mp h
  obtain ⟨operand, sum, hoperand, hjoin, hopened, rfl⟩ := Reading.finish_eq_ok.mp hfinish
  have hspells := Reading.spells_of_run hrun
  have hlimits := Reading.within_of_run hrun
  refine ⟨?_, hlimits.nests, Reading.fits_of_join (hlimits.fits operand hoperand) hjoin⟩
  generalize tokens.map Placed.token = ts at hspells
  obtain ⟨outer, waiting, product, rfl, houter, hsum, hproduct, -⟩ := hspells.of_some hoperand
  rw [hopened] at houter
  cases houter
  exact hsum.derives .sum hproduct hjoin

end LedgerFields.Formula
