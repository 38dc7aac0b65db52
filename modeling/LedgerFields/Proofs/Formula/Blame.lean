import LedgerFields.Proofs.Formula.Acceptance
import LedgerFields.Proofs.Formula.Reading.Viable
import LedgerFields.Proofs.Formula.Spelling
import Mathlib.Order.Bounds.Basic

/-! Which token a rejected formula is blamed on. Reading goes on as long as the tokens may still
become a formula, so that it ends at the first one with which they cannot, and the fault follows
from this token and the one before it. -/

namespace LedgerFields.Formula

/-- Whether an operand may end with this token. -/
def Token.endsOperand : Token → Bool
  | term _ => true
  | rightParen => true
  | _ => false

/-- The fault of an operator that is misplaced when a formula breaks off at `culprit`, which is
absent at its end, after the token `before`, which is absent at its start. -/
def operatorFault? (before culprit : Option Placed) : Option FormulaFault :=
  match before, culprit with
  | some ⟨.op first, _⟩, some ⟨.op second, position⟩ =>
    some (.adjacentOperators first second position)
  | none, some ⟨.op op, position⟩ => some (.missingOperand op position)
  | some ⟨.leftParen, _⟩, some ⟨.op op, position⟩ => some (.missingOperand op position)
  | some ⟨.op op, position⟩, some ⟨.rightParen, _⟩ => some (.missingOperand op position)
  | some ⟨.op op, position⟩, none => some (.missingOperand op position)
  | _, _ => none

/-- The fault is that of a misplaced operator, or a parse fault when there is none. -/
def Blamed (before culprit : Option Placed) (fault : FormulaFault) : Prop :=
  match operatorFault? before culprit with
  | some expected => fault = expected
  | none => ∃ cause, fault = .parse cause

variable {limit : Nat} {fault : FormulaFault}

namespace Operand

theorem fault_of_check {a : Operand} (h : check limit a = .error fault) :
    fault = .tooDeep limit := by
  unfold check at h
  split at h
  · cases h
    rfl
  · cases h

theorem fault_of_withSign {sign : Option Sign} {a : Operand}
    (h : a.withSign limit sign = .error fault) : fault = .tooDeep limit := by
  cases sign with
  | none => cases h
  | some sign => exact fault_of_check h

theorem fault_of_join {waiting : Option (Operand × BinaryOp)} {a : Operand}
    (h : a.join limit waiting = .error fault) : fault = .tooDeep limit := by
  rcases waiting with _ | ⟨left, op⟩
  · cases h
  · exact fault_of_check h

end Operand

namespace Reading

variable {r r' : Reading} {placed : Placed}

theorem fault_of_complete {operand : Operand} (h : r.complete limit operand = .error fault) :
    fault = .tooDeep limit := by
  unfold complete at h
  rcases bind_eq_error.mp h with h | ⟨signed, -, h⟩
  · exact Operand.fault_of_withSign h
  · rcases bind_eq_error.mp h with h | ⟨factor, -, h⟩
    · exact Operand.fault_of_join h
    · cases h

/-- A step remembers its token, and has completed an operand when an operand may end with it. -/
theorem Step.previous_eq (h : Step limit r placed r') :
    r'.previous = some placed ∧ r'.operand.isSome = placed.token.endsOperand := by
  cases h with
  | term _ htoken | rightParen _ htoken => exact ⟨rfl, by rw [htoken]; rfl⟩
  | leftParen hoperand htoken | sign hoperand htoken =>
    exact ⟨rfl, by rw [htoken, hoperand]; rfl⟩
  | product _ htoken | sum _ htoken => exact ⟨rfl, by rw [htoken]; rfl⟩

/-- An operand is complete exactly when it may end with the token before. -/
def Alternates (r : Reading) : Prop :=
  r.operand.isSome = r.previous.any fun placed => placed.token.endsOperand

theorem previous_of_run {tokens : List Placed}
    (h : tokens.foldlM (next limit) {} = .ok r) :
    r.previous = tokens.getLast? ∧ r.Alternates := by
  rcases List.eq_nil_or_concat tokens with rfl | ⟨start, placed, rfl⟩
  · cases h
    exact ⟨rfl, rfl⟩
  · rw [List.concat_eq_append] at h ⊢
    rw [List.foldlM_append, bind_eq_ok] at h
    obtain ⟨middle, -, h⟩ := h
    rw [List.foldlM_cons, bind_eq_ok] at h
    obtain ⟨last, hnext, h⟩ := h
    cases h
    obtain ⟨hprevious, hoperand⟩ := (step_of_next hnext).previous_eq
    exact ⟨by simp [hprevious], by simp [Alternates, hprevious, hoperand]⟩

/-- Where an operand must come, the token before is none, an operator or an opening parenthesis. -/
theorem Alternates.before_cases (hr : r.Alternates) (hoperand : r.operand = none) :
    r.previous = none ∨ (∃ op position, r.previous = some ⟨.op op, position⟩) ∨
      ∃ position, r.previous = some ⟨.leftParen, position⟩ := by
  unfold Alternates at hr
  rw [hoperand] at hr
  rcases hprevious : r.previous with _ | ⟨token, position⟩
  · exact .inl rfl
  · rw [hprevious] at hr
    cases token with
    | term | rightParen => cases hr
    | op op => exact .inr (.inl ⟨op, position, rfl⟩)
    | leftParen => exact .inr (.inr ⟨position, rfl⟩)

/-- After an operand, the token before is a term or a closing parenthesis. -/
theorem Alternates.after_cases {operand : Operand} (hr : r.Alternates)
    (hoperand : r.operand = some operand) :
    (∃ text position, r.previous = some ⟨.term text, position⟩) ∨
      ∃ position, r.previous = some ⟨.rightParen, position⟩ := by
  unfold Alternates at hr
  rw [hoperand] at hr
  rcases hprevious : r.previous with _ | ⟨token, position⟩
  · rw [hprevious] at hr
    cases hr
  · rw [hprevious] at hr
    cases token with
    | term text => exact .inl ⟨text, position, rfl⟩
    | rightParen => exact .inr ⟨position, rfl⟩
    | op | leftParen => cases hr

theorem blamed_misplaced (hr : r.Alternates) (hoperand : r.operand = none) (op : BinaryOp)
    (position : Nat) : Blamed r.previous (some ⟨.op op, position⟩) (r.misplaced op position) := by
  unfold misplaced
  rcases hr.before_cases hoperand with h | ⟨first, before, h⟩ | ⟨before, h⟩
  · rw [h]
    rfl
  · rw [h]
    rfl
  · rw [h]
    rfl

theorem blamed_of_beforeOperand (hr : r.Alternates) (hoperand : r.operand = none)
    (h : r.beforeOperand limit placed = .error fault) :
    fault = .tooDeep limit ∨ Blamed r.previous (some placed) fault := by
  obtain ⟨token, position⟩ := placed
  cases token with
  | term text => exact .inl (fault_of_complete h)
  | leftParen =>
    simp only [beforeOperand] at h
    split at h
    · cases h
      exact .inl rfl
    · cases h
  | op op =>
    simp only [beforeOperand] at h
    split at h
    · cases h
    · cases h
      exact .inr (blamed_misplaced hr hoperand op position)
  | rightParen =>
    simp only [beforeOperand, unfinished] at h
    rcases hr.before_cases hoperand with hprevious | ⟨op, before, hprevious⟩ | ⟨before, hprevious⟩
    · rw [hprevious] at h ⊢
      cases h
      exact .inr ⟨_, rfl⟩
    · rw [hprevious] at h ⊢
      cases h
      exact .inr rfl
    · rw [hprevious] at h ⊢
      cases h
      exact .inr ⟨_, rfl⟩

/-- After an operand no operator is misplaced, so that all faults are parse faults. -/
theorem blamed_of_some {operand : Operand} (hr : r.Alternates)
    (hoperand : r.operand = some operand) (culprit : Option Placed) (cause : ParseFault) :
    Blamed r.previous culprit (.parse cause) := by
  rcases hr.after_cases hoperand with ⟨text, position, h⟩ | ⟨position, h⟩
  · rw [h]
    exact ⟨cause, rfl⟩
  · rw [h]
    exact ⟨cause, rfl⟩

theorem blamed_of_afterOperand {operand : Operand} (hr : r.Alternates)
    (hoperand : r.operand = some operand) (h : r.afterOperand limit operand placed = .error fault) :
    fault = .tooDeep limit ∨ Blamed r.previous (some placed) fault := by
  have hparse (cause : ParseFault) := blamed_of_some hr hoperand (some placed) cause
  obtain ⟨token, position⟩ := placed
  cases token with
  | op op =>
    cases op with
    | multiply | divide => cases h
    | add | subtract =>
      rcases bind_eq_error.mp h with h | ⟨sum, -, h⟩
      · exact .inl (Operand.fault_of_join h)
      · cases h
  | term | leftParen =>
    rcases bind_eq_error.mp h with h | ⟨sum, -, h⟩
    · exact .inl (Operand.fault_of_join h)
    · cases h
      exact .inr (hparse _)
  | rightParen =>
    rcases bind_eq_error.mp h with h | ⟨sum, -, h⟩
    · exact .inl (Operand.fault_of_join h)
    · split at h
      · cases h
        exact .inr (hparse _)
      · exact .inl (fault_of_complete h)

theorem blamed_of_next (hr : r.Alternates) (h : next limit r placed = .error fault) :
    fault = .tooDeep limit ∨ Blamed r.previous (some placed) fault := by
  unfold next at h
  split at h
  · next hoperand =>
    rcases bind_eq_error.mp h with h | ⟨after, -, h⟩
    · exact blamed_of_beforeOperand hr hoperand h
    · cases h
  · next operand hoperand =>
    rcases bind_eq_error.mp h with h | ⟨after, -, h⟩
    · exact blamed_of_afterOperand hr hoperand h
    · cases h

theorem blamed_of_finish {position : Nat} (hr : r.Alternates)
    (h : r.finish limit position = .error fault) :
    fault = .tooDeep limit ∨ Blamed r.previous none fault := by
  unfold finish at h
  split at h
  · next hoperand =>
    simp only [unfinished] at h
    rcases hr.before_cases hoperand with hprevious | ⟨op, before, hprevious⟩ | ⟨before, hprevious⟩
    · rw [hprevious] at h ⊢
      cases h
      exact .inr ⟨_, rfl⟩
    · rw [hprevious] at h ⊢
      cases h
      exact .inr rfl
    · rw [hprevious] at h ⊢
      cases h
      exact .inr ⟨_, rfl⟩
  · next operand hoperand =>
    rcases bind_eq_error.mp h with h | ⟨sum, -, h⟩
    · exact .inl (Operand.fault_of_join h)
    · split at h
      · cases h
      · cases h
        exact .inr (blamed_of_some hr hoperand none _)

end Reading

/-- Where the reading of tokens ends that are rejected for another reason than the limit: those that
have been read start some formula, with the next one they start none, and this one is blamed. -/
theorem blamed_of_parseTokens {position : Nat} {tokens : List Placed}
    (h : parseTokens limit tokens position = .error fault) (hlimit : fault ≠ .tooDeep limit) :
    ∃ read rest, tokens = read ++ rest ∧ Viable (read.map Placed.token) ∧
      (∀ placed ∈ rest.head?, ¬Viable ((read ++ [placed]).map Placed.token)) ∧
      Blamed read.getLast? rest.head? fault := by
  rcases bind_eq_error.mp h with hrun | ⟨r, hrun, hfinish⟩
  · obtain ⟨read, placed, rest, r, rfl, hread, hnext⟩ := foldlM_eq_error hrun
    obtain ⟨hprevious, halternates⟩ := Reading.previous_of_run hread
    refine ⟨read, placed :: rest, rfl, viable_of_run hread, ?_, ?_⟩
    · intro next hmem hviable
      obtain rfl : placed = next := Option.some.inj hmem
      have hlast : [placed].foldlM (Reading.next limit) r = .error fault := by
        rw [List.foldlM_cons, hnext]
        rfl
      refine hlimit (fault_of_viable hviable ?_)
      rw [List.foldlM_append, hread]
      exact hlast
    · rw [← hprevious]
      exact (Reading.blamed_of_next halternates hnext).resolve_left hlimit
  · obtain ⟨hprevious, halternates⟩ := Reading.previous_of_run hrun
    refine ⟨tokens, [], by simp, viable_of_run hrun, by simp, ?_⟩
    rw [← hprevious]
    exact (Reading.blamed_of_finish halternates hfinish).resolve_left hlimit

/-- The tokens of a formula with its end. -/
def ended (ts : List Token) : List (Option Token) :=
  ts.map some ++ [none]

/-- No formula starts with the tokens up to number `i`, counted from 0; the end counts as the last
of the tokens. -/
def HopelessAt (ts : List Token) (i : Nat) : Prop :=
  ∀ us e, Derives .sum us e → ¬(ended ts).take (i + 1) <+: ended us

section

variable {ts us : List Token} {i : Nat}

theorem take_ended (hi : i < ts.length) : (ended ts).take (i + 1) = (ts.take (i + 1)).map some := by
  unfold ended
  rw [List.take_append_of_le_length (by rw [List.length_map]; exact hi), List.map_take]

theorem prefix_ended : ts.map some <+: ended us ↔ ts <+: us := by
  have hinjective : Function.Injective (some : Token → Option Token) := Option.some_injective _
  constructor
  · intro h
    rcases List.prefix_concat_iff.mp h with h | h
    · have hmem : none ∈ ts.map some := by simp [h]
      simp at hmem
    · exact (List.prefix_map_iff_of_injective hinjective).mp h
  · intro h
    exact (h.map some).trans (List.prefix_append _ _)

theorem hopelessAt_iff (hi : i < ts.length) : HopelessAt ts i ↔ ¬Viable (ts.take (i + 1)) := by
  unfold HopelessAt
  rw [take_ended hi]
  simp only [prefix_ended]
  constructor
  · rintro h ⟨rest, e, hderives⟩
    exact h _ e hderives (List.prefix_append _ _)
  · rintro h us e hderives ⟨rest, rfl⟩
    exact h ⟨rest, e, hderives⟩

theorem hopelessAt_end (h : ¬∃ e, Derives .sum ts e) : HopelessAt ts ts.length := by
  intro us e hderives hprefix
  rw [List.take_of_length_le (by simp [ended])] at hprefix
  rcases List.prefix_concat_iff.mp hprefix with heq | hinner
  · have hts : ts.map some = us.map some := List.append_cancel_right heq
    rw [List.map_inj_right (fun _ _ => Option.some.inj)] at hts
    exact h ⟨e, hts ▸ hderives⟩
  · have hmem : none ∈ us.map some := hinner.subset (by simp [ended])
    simp at hmem

end

/-- The operator that a fault reports, and its position. -/
def FormulaFault.operator? : FormulaFault → Option (BinaryOp × Nat)
  | missingOperand op position => some (op, position)
  | adjacentOperators _ second position => some (second, position)
  | _ => none

/-- The operator that is reported is the token that is blamed or the one before it. -/
theorem Blamed.operator_mem {before culprit : Option Placed} {op : BinaryOp} {position : Nat}
    (h : Blamed before culprit fault) (hop : fault.operator? = some (op, position)) :
    ⟨.op op, position⟩ ∈ before ∨ ⟨.op op, position⟩ ∈ culprit := by
  unfold Blamed operatorFault? at h
  split at h
  · next expected heq =>
    subst h
    split at heq <;> cases heq <;> cases hop <;> simp
  · obtain ⟨cause, rfl⟩ := h
    cases hop

/-- An operator stands among the characters at its position. -/
theorem Munches.symbol_at {settings : Settings} {start position : Nat} {cs : List Char}
    {tokens : List Placed} {op : BinaryOp} (h : Munches settings start cs tokens)
    (hmem : ⟨.op op, position⟩ ∈ tokens) :
    start ≤ position ∧ cs[position - start]? = some op.symbol := by
  induction h with
  | nil => cases hmem
  | @symbol start c token cs tokens htoken _ ih =>
    rcases List.mem_cons.mp hmem with heq | hmem
    · cases heq
      have hchars : [op.symbol] = [c] := Token.chars_of_ofChar? htoken
      cases hchars
      simp
    · obtain ⟨hle, hchar⟩ := ih hmem
      refine ⟨by omega, ?_⟩
      rw [show position - start = position - (start + 1) + 1 by omega, List.getElem?_cons_succ]
      exact hchar
  | @term start c word cs tokens _ _ _ _ ih =>
    rcases List.mem_cons.mp hmem with heq | hmem
    · cases heq
    · obtain ⟨hle, hchar⟩ := ih hmem
      refine ⟨by omega, ?_⟩
      rw [show position - start = position - (start + (word.length + 1)) + word.length + 1 by omega,
        List.getElem?_cons_succ, List.getElem?_append_right (by omega), Nat.add_sub_cancel]
      exact hchar

/-- A formula that has no derivation is blamed on its first hopeless token, or on its end, unless a
limit ends the reading before. Which fault it is follows from this token and the one before it, and
the operator that is reported stands at the position that is reported. -/
theorem parse_blames_first_hopeless {settings : Settings} {formula : String} {tokens : List Placed}
    (hne : (Text.dropBlanks formula).toList ≠ [])
    (hmunches : Munches settings 1 (Text.dropBlanks formula).toList tokens)
    (hderives : ¬∃ e, Derives .sum (tokens.map Placed.token) e)
    (hlimit : ∀ limit, parse settings formula ≠ .error (.tooDeep limit)) :
    ∃ i fault, IsLeast {j | HopelessAt (tokens.map Placed.token) j} i ∧
      parse settings formula = .error fault ∧
      Blamed (tokens.take i).getLast? tokens[i]? fault ∧
      ∀ op position, fault.operator? = some (op, position) →
        1 ≤ position ∧ (Text.dropBlanks formula).toList[position - 1]? = some op.symbol := by
  have hparse := parse_eq_parseTokens hne hmunches
  cases hresult : parse settings formula with
  | ok e =>
    rw [hparse] at hresult
    exact absurd ⟨e, (parseTokens_eq_ok.mp hresult).1⟩ hderives
  | error fault =>
    have hdeep : fault ≠ .tooDeep settings.maxDepth := by
      rintro rfl
      exact hlimit _ hresult
    rw [hparse] at hresult
    obtain ⟨read, rest, rfl, hviable, hnext, hblamed⟩ := blamed_of_parseTokens hresult hdeep
    refine ⟨read.length, fault, ⟨?_, ?_⟩, rfl, ?_, ?_⟩
    · rcases rest with _ | ⟨placed, rest⟩
      · rw [List.append_nil] at hderives
        simpa using hopelessAt_end hderives
      · have hlength : read.length < ((read ++ placed :: rest).map Placed.token).length := by simp
        refine (hopelessAt_iff hlength).mpr ?_
        have htake : (read ++ placed :: rest).take (read.length + 1) = read ++ [placed] := by
          simp [List.take_append]
        rw [← List.map_take, htake]
        exact hnext placed rfl
    · intro j hj
      by_contra hlt
      have hlength : j < ((read ++ rest).map Placed.token).length := by
        rw [List.length_map, List.length_append]
        omega
      refine (hopelessAt_iff hlength).mp hj (hviable.of_prefix ?_)
      rw [← List.map_take, List.take_append_of_le_length (by omega)]
      exact (List.take_prefix _ _).map Placed.token
    · rw [List.take_left, List.getElem?_append_right (Nat.le_refl _), Nat.sub_self]
      rwa [List.head?_eq_getElem?] at hblamed
    · intro op position hop
      refine hmunches.symbol_at (List.mem_append.mpr ?_)
      rcases hblamed.operator_mem hop with hmem | hmem
      · exact .inl (List.mem_of_getLast? hmem)
      · exact .inr (List.mem_of_mem_head? hmem)

theorem parse_blames_first_hopeless_sample :
    let tokens : List Placed := [⟨.leftParen, 1⟩, ⟨.term "2", 2⟩, ⟨.op .add, 3⟩, ⟨.term "3", 4⟩,
      ⟨.rightParen, 5⟩, ⟨.op .multiply, 6⟩, ⟨.op .divide, 7⟩, ⟨.term "4", 8⟩]
    ∃ i fault, IsLeast {j | HopelessAt (tokens.map Placed.token) j} i ∧
      parse {} "(2 + 3)*/4" = .error fault ∧
      Blamed (tokens.take i).getLast? tokens[i]? fault ∧
      ∀ op position, fault.operator? = some (op, position) →
        1 ≤ position ∧ "(2+3)*/4".toList[position - 1]? = some op.symbol := by
  intro tokens
  have hread : parse {} "(2 + 3)*/4" = .error (.adjacentOperators .multiply .divide 7) := by
    decide +kernel
  have hmunches : Munches {} 1 "(2+3)*/4".toList tokens := tokenize_eq_ok.mp (by decide +kernel)
  refine parse_blames_first_hopeless (by decide +kernel) hmunches ?_ fun limit h => ?_
  · rintro ⟨e, hderives⟩
    have hrejected : parseTokens 256 tokens 9 =
        .error (.adjacentOperators .multiply .divide 7) := by decide +kernel
    rcases agrees_of_derives 256 9 hderives with h | h
    · cases hrejected.symm.trans h
    · cases hrejected.symm.trans h
  · cases hread.symm.trans h

end LedgerFields.Formula
