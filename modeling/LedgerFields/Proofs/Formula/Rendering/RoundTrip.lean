import LedgerFields.Proofs.Formula.Rendering.Tokens
import LedgerFields.Proofs.Formula.Spelling
import LedgerFields.Proofs.Number.Text
import LedgerFields.Proofs.Text.Trim

/-! Reading the canonical text of an expression. It is read as the expression itself when its terms
may be written and the parentheses that the text adds keep the limit. -/

namespace LedgerFields.Formula

open Number

/-- The text is a term that holds no blank, so that it is read as it is written. -/
structure Settings.Legible (settings : Settings) (text : String) : Prop where
  isTerm : settings.IsTerm text
  noBlank : ∀ c ∈ text.toList, Text.isBlank c = false

/-- All leaves of the expression are written as legible terms. -/
def Expr.Legible (settings : Settings) (e : Expr) : Prop :=
  ∀ text, .term text ∈ e.tokens → settings.Legible text

theorem Expr.term_mem_tokens {e : Expr} {text : String} : .term text ∈ e.tokens ↔
    (∃ x ∈ e.literals, plainText x = text) ∨ text ∈ e.references := by
  induction e with
  | literal x => simp [tokens, literals, references, eq_comm]
  | reference term => simp [tokens, literals, references]
  | signed sign operand ih =>
    unfold tokens
    split_ifs <;> simpa [literals, references] using ih
  | binary op left right ihl ihr =>
    simp only [tokens, literals, references, List.cons_append, List.mem_cons, List.mem_append,
      reduceCtorEq, false_or, or_false, List.not_mem_nil, ihl, ihr, or_and_right, exists_or]
    exact or_or_or_comm

theorem Expr.legible_iff {settings : Settings} {e : Expr} : e.Legible settings ↔
    (∀ x ∈ e.literals, settings.Legible (plainText x)) ∧
    (∀ term ∈ e.references, settings.Legible term) := by
  simp only [Legible, term_mem_tokens, or_imp, forall_and]
  exact and_congr_left fun _ => ⟨fun h x hx => h _ ⟨x, hx, rfl⟩, fun h _ ⟨x, hx, ht⟩ => ht ▸ h x hx⟩

section

variable {settings : Settings} {ts : List Token} {formula : String}

/-- A text that is written with legible terms holds no blank. -/
theorem dropBlanks_of_legible (hlegible : ∀ text, .term text ∈ ts → settings.Legible text)
    (htext : formula.toList = ts.flatMap Token.chars) : Text.dropBlanks formula = formula := by
  refine Text.dropBlanks_eq_self_iff.mpr fun c hc => ?_
  rw [htext] at hc
  obtain ⟨token, htoken, hc⟩ := List.mem_flatMap.mp hc
  cases token with
  | term text => exact (hlegible text htoken).noBlank c hc
  | op op =>
    obtain rfl := List.mem_singleton.mp hc
    cases op <;> decide
  | leftParen | rightParen =>
    obtain rfl := List.mem_singleton.mp hc
    decide

/-- A text that is written token by token with legible terms is read as the tree that the tokens
derive, if the limits allow it. -/
theorem parse_eq_ok_of_derives {e e' : Expr} (h : Derives .sum ts e)
    (hlegible : ∀ text, .term text ∈ ts → settings.Legible text)
    (htext : formula.toList = ts.flatMap Token.chars) :
    parse settings formula = .ok e' ↔ e = e' ∧
      OpenAtMost .leftParen .rightParen settings.maxDepth ts ∧ e.Fits settings.maxDepth := by
  obtain ⟨placed, hplaced, hmunches⟩ :=
    h.munches (fun text hmem => (hlegible text hmem).isTerm) (by simp) .nil
  rw [List.append_nil, List.append_nil, ← htext] at hmunches
  have htokens := tokenize_eq_ok.mpr hmunches
  rw [parse_eq_ok, dropBlanks_of_legible hlegible htext]
  constructor
  · rintro ⟨-, placed', htokens', hread⟩
    rw [htokens] at htokens'
    cases htokens'
    rw [parseTokens_eq_ok, hplaced] at hread
    obtain ⟨hderives, hopen, hfits⟩ := hread
    obtain rfl := h.unique hderives
    exact ⟨rfl, hopen, hfits⟩
  · rintro ⟨rfl, hopen, hfits⟩
    refine ⟨fun hnil => ?_, placed, htokens, ?_⟩
    · rw [hnil] at hmunches
      cases hmunches
      exact h.ne_nil hplaced.symm
    · rw [parseTokens_eq_ok, hplaced]
      exact ⟨h, hopen, hfits⟩

end

namespace Expr.Legible

variable {settings : Settings} {e : Expr}

theorem openAtMost_render (h : e.Legible settings) {limit : Nat} :
    OpenAtMost '(' ')' limit e.render.toList ↔ e.nesting ≤ limit := by
  rw [toList_render, openAtMost_chars fun text htext => (h text htext).isTerm]
  exact openAtMost_tokens e limit

/-- A legible canonical text is read as the expression with each leaf as its text is read, if the
limits allow it. -/
theorem parse_render_eq_ok (h : e.Legible settings) {e' : Expr} :
    parse settings e.render = .ok e' ↔ e.reread = e' ∧
      e.nesting ≤ settings.maxDepth ∧ e.Fits settings.maxDepth := by
  have hderives : Derives .sum e.tokens e.reread := .product (.factor e.derives_tokens.1)
  rw [parse_eq_ok_of_derives hderives h e.toList_render, openAtMost_tokens, fits_reread]

end Expr.Legible

/-! Which literals are legible: the text of a whole number holds only digits, and any other finite
one needs a point, which the settings may refuse. -/

section

variable {settings : Settings} {x : Float}

theorem isAlphanum_of_isDigit {c : Char} (h : c.isDigit = true) : c.isAlphanum = true := by
  simp [Char.isAlphanum, h]

theorem Settings.legible_plainText (hx : IsUnsigned x)
    (hpoint : settings.isTermChar '.' = true ∨ IsWhole x) :
    settings.Legible (plainText x) := by
  have hallowed : '.' ∈ (plainText x).toList → settings.isTermChar '.' = true := fun hmem =>
    hpoint.resolve_right fun hwhole => (point_not_mem_plainText hx).mpr hwhole hmem
  obtain ⟨mantissa, exponent, hx⟩ := hx
  obtain ⟨d, word, hchars, hd, hword, -⟩ := plainText_chars hx
  rw [hchars] at hallowed
  constructor
  · refine ⟨d, word, hchars, isAlphanum_of_isDigit hd, fun c hc => ?_⟩
    rcases hword c hc with hdigit | rfl
    · exact settings.isTermChar_of_isAlphanum (isAlphanum_of_isDigit hdigit)
    · exact hallowed (List.mem_cons_of_mem _ hc)
  · intro c hc
    rw [hchars] at hc
    rcases List.mem_cons.mp hc with rfl | hc
    · exact Text.not_isBlank_of_isDigit hd
    · rcases hword c hc with hdigit | rfl
      · exact Text.not_isBlank_of_isDigit hdigit
      · decide

theorem Settings.legible_inf (settings : Settings) : settings.Legible "inf" := by
  refine ⟨⟨'i', ['n', 'f'], rfl, rfl, fun c hc => ?_⟩, fun c hc => ?_⟩
  · simp only [List.mem_cons, List.not_mem_nil, or_false] at hc
    rcases hc with rfl | rfl <;> exact settings.isTermChar_of_isAlphanum rfl
  · simp only [show "inf".toList = ['i', 'n', 'f'] from rfl, List.mem_cons, List.not_mem_nil,
      or_false] at hc
    rcases hc with rfl | rfl | rfl <;> rfl

end

/-- A formula that is read holds only blanks, reserved characters and term characters. -/
theorem isTermChar_of_parse {settings : Settings} {formula : String} {e : Expr} {c : Char}
    (h : parse settings formula = .ok e) (hc : c ∈ formula.toList)
    (hblank : Text.isBlank c = false) (hreserved : c ∉ reservedChars) :
    settings.isTermChar c = true := by
  obtain ⟨-, placed, htokens, -⟩ := parse_eq_ok.mp h
  have hkept : c ∈ (Text.dropBlanks formula).toList := by
    rw [Text.toList_dropBlanks]
    exact List.mem_filter.mpr ⟨hc, by simpa using hblank⟩
  exact (tokenize_eq_ok.mp htokens).isTermChar hkept hreserved

/-- An expression as an author may build it, with unsigned literals and legible references that
are no numerals, is read back from its canonical text exactly when each literal can be written: the
settings allow a point, or no literal needs one. -/
theorem parse_render_iff_literals_writable {settings : Settings} {e : Expr}
    (hliterals : ∀ x ∈ e.literals, IsUnsigned x)
    (hreferences : ∀ term ∈ e.references,
      settings.Legible term ∧ readNumeral? term = none)
    (hheight : e.height ≤ settings.maxDepth)
    (hnests : OpenAtMost '(' ')' settings.maxDepth e.render.toList) :
    parse settings e.render = .ok e ↔
      settings.isTermChar '.' = true ∨ ∀ x ∈ e.literals, IsWhole x := by
  constructor
  · intro hparse
    by_contra hneither
    obtain ⟨hpoint, hwhole⟩ := not_or.mp hneither
    simp only [not_forall] at hwhole
    obtain ⟨x, hx, hwhole⟩ := hwhole
    have hmem : '.' ∈ (plainText x).toList :=
      not_not.mp fun hmem => hwhole ((point_not_mem_plainText (hliterals x hx)).mp hmem)
    have hrender : '.' ∈ e.render.toList := by
      rw [Expr.toList_render]
      exact List.mem_flatMap.mpr ⟨_, Expr.term_mem_tokens.mpr (.inl ⟨x, hx, rfl⟩), hmem⟩
    exact hpoint (isTermChar_of_parse hparse hrender (by decide) (by decide))
  · intro hwritable
    have hlegible : e.Legible settings := Expr.legible_iff.mpr
      ⟨fun x hx => Settings.legible_plainText (hliterals x hx)
        (hwritable.imp_right fun hwhole => hwhole x hx),
      fun term hterm => (hreferences term hterm).1⟩
    have hreread : e.reread = e := Expr.reread_eq_iff.mpr
      ⟨fun x hx => (hliterals x hx).elim fun _ ⟨_, hx⟩ => readNumeral?_plainText hx,
      fun term hterm => (hreferences term hterm).2⟩
    exact hlegible.parse_render_eq_ok.mpr
      ⟨hreread, hlegible.openAtMost_render.mp hnests, .inr hheight⟩

theorem parse_render_sample :
    parse {} (Expr.binary .divide (.literal 2.5) (.signed .minus (.reference "fee@2"))).render =
      .ok (.binary .divide (.literal 2.5) (.signed .minus (.reference "fee@2"))) := by
  refine (parse_render_iff_literals_writable (fun x hx => ?_) (fun term hterm => ?_)
    (by decide) (by decide +kernel)).mpr (.inl (by decide))
  · obtain rfl := List.mem_singleton.mp hx
    exact ⟨5629499534213120, -51, by decide +kernel⟩
  · obtain rfl := List.mem_singleton.mp hterm
    have hterm : ['e', 'e', '@', '2'].all (Settings.isTermChar {}) = true := by decide
    have hnoBlank : "fee@2".toList.all (fun c => !Text.isBlank c) = true := by decide
    refine ⟨⟨⟨'f', ['e', 'e', '@', '2'], by decide, by decide, List.all_eq_true.mp hterm⟩, ?_⟩,
      by decide⟩
    simpa only [List.all_eq_true, Bool.not_eq_true'] using hnoBlank

/-- Settings that refuse a point refuse the text of a literal that is not whole. -/
theorem not_parse_render_of_legible :
    ¬ ∀ (settings : Settings) (e : Expr), (∀ x ∈ e.literals, IsUnsigned x) →
      (∀ term ∈ e.references, settings.Legible term ∧ readNumeral? term = none) →
      e.height ≤ settings.maxDepth →
      OpenAtMost '(' ')' settings.maxDepth e.render.toList →
      parse settings e.render = .ok e := by
  intro h
  have hparse := h { extraChars := "" } (.literal 2.5)
    (fun x hx => List.mem_singleton.mp hx ▸ ⟨5629499534213120, -51, by decide +kernel⟩)
    (by simp [Expr.references]) (by decide) (by decide +kernel)
  revert hparse
  decide +kernel

/-- The leaves of an expression that was read from a formula are legible. -/
theorem legible_of_parse {settings : Settings} {formula : String} {e : Expr}
    (h : parse settings formula = .ok e) : e.Legible settings := by
  obtain ⟨-, tokens, htokens, hread⟩ := parse_eq_ok.mp h
  have hmunches := tokenize_eq_ok.mp htokens
  have hderives := (parseTokens_eq_ok.mp hread).1
  refine Expr.legible_iff.mpr ⟨fun x hx => ?_, fun term hterm => ?_⟩
  · obtain ⟨text, htext, hvalue⟩ := hderives.exists_of_mem_literals hx
    rcases isUnsigned_or_infinite hvalue with hunsigned | hinfinite
    · -- a literal that is not whole had a point in the formula already
      refine Settings.legible_plainText hunsigned (or_iff_not_imp_right.mpr fun hwhole => ?_)
      have hpoint : '.' ∈ text.toList :=
        not_not.mp fun hmem => hwhole (isWhole_of_readNumeral? hvalue hmem hunsigned)
      exact (hmunches.isTerm text htext).isTermChar '.' hpoint
    · rw [plainText_infinite hinfinite]
      exact settings.legible_inf
  · have hterm := (hderives.of_mem_references hterm).1
    refine ⟨hmunches.isTerm term hterm, fun c hc => ?_⟩
    have hkept : c ∈ (Text.dropBlanks formula).toList := by
      rw [← hmunches.chars_eq]
      exact List.mem_flatMap.mpr ⟨_, hterm, hc⟩
    rw [Text.dropBlanks, String.toList_ofList] at hkept
    simpa using (List.mem_filter.mp hkept).2

/-- The canonical text of an expression that was read from a formula is read as this expression
exactly when no literal is infinite and the parentheses that it adds keep the limit. -/
theorem parse_render_iff_of_parse {settings : Settings} {formula : String} {e : Expr}
    (h : parse settings formula = .ok e) :
    parse settings e.render = .ok e ↔
      (∀ x ∈ e.literals, x.isFinite = true) ∧ e.nesting ≤ settings.maxDepth := by
  obtain ⟨-, tokens, -, hread⟩ := parse_eq_ok.mp h
  obtain ⟨hderives, -, hfits⟩ := parseTokens_eq_ok.mp hread
  have hreread : e.reread = e ↔ ∀ x ∈ e.literals, x.isFinite = true := by
    rw [Expr.reread_eq_iff]
    have hreferences : ∀ term ∈ e.references, readNumeral? term = none :=
      fun term hterm => (hderives.of_mem_references hterm).2
    have hliteral (x : Float) (hx : x ∈ e.literals) :
        readNumeral? (plainText x) = some x ↔ x.isFinite = true := by
      obtain ⟨text, -, hvalue⟩ := hderives.exists_of_mem_literals hx
      exact readNumeral?_plainText_iff hvalue
    exact (and_iff_left hreferences).trans (forall₂_congr hliteral)
  rw [(legible_of_parse h).parse_render_eq_ok, hreread, and_iff_left_of_imp fun _ => hfits]

theorem parse_render_of_parse_sample :
    ∃ e, parse {} "fee@2 - 2.50*3" = .ok e ∧ parse {} "(fee@2-(2.5*3))" = .ok e := by
  have hparse : parse {} "fee@2 - 2.50*3" = .ok (.binary .subtract (.reference "fee@2")
      (.binary .multiply (.literal 2.5) (.literal 3))) := by decide +kernel
  have hrender : (Expr.binary .subtract (.reference "fee@2")
      (.binary .multiply (.literal 2.5) (.literal 3))).render = "(fee@2-(2.5*3))" := by
    decide +kernel
  refine ⟨_, hparse, ?_⟩
  rw [← hrender]
  exact (parse_render_iff_of_parse hparse).mpr ⟨by decide +kernel, by decide +kernel⟩

/-- A chain of four may be read with a limit that the text of what it is read as does not keep. -/
theorem not_parse_render_of_parse :
    ¬ ∀ (settings : Settings) (formula : String) (e : Expr),
      parse settings formula = .ok e → parse settings e.render = .ok e := by
  intro h
  have hparse : parse { maxDepth := 2 } "1+2+3+4" =
      .ok (.binary .add (.binary .add (.binary .add (.literal 1) (.literal 2)) (.literal 3))
        (.literal 4)) := by decide +kernel
  have hagain := h _ _ _ hparse
  revert hagain
  decide +kernel

end LedgerFields.Formula
