import LedgerFields.Formula.Token
import LedgerFields.Proofs.Fallible
import Mathlib.Data.List.TakeWhile

/-! Maximal munch: how the characters of a formula split into tokens, said without the way in which
they are read, and the proof that `tokenize` splits them so. -/

namespace LedgerFields.Formula

/-- The characters `cs`, the first of which is at `position`, split into `tokens`. An operator or a
parenthesis is a token by itself, and a term takes all the term characters that follow it. -/
inductive Munches (settings : Settings) : (position : Nat) → List Char → List Placed → Prop where
  | nil {position : Nat} : Munches settings position [] []
  | symbol {position : Nat} {c : Char} {token : Token} {cs : List Char} {tokens : List Placed} :
      Token.ofChar? c = some token → Munches settings (position + 1) cs tokens →
      Munches settings position (c :: cs) (⟨token, position⟩ :: tokens)
  | term {position : Nat} {c : Char} {word cs : List Char} {tokens : List Placed} :
      c.isAlphanum = true → (∀ d ∈ word, settings.isTermChar d = true) →
      (∀ d ∈ cs.head?, settings.isTermChar d = false) →
      Munches settings (position + (word.length + 1)) cs tokens →
      Munches settings position (c :: (word ++ cs))
        (⟨.term (String.ofList (c :: word)), position⟩ :: tokens)

theorem Settings.isTermChar_of_isAlphanum (settings : Settings) {c : Char}
    (h : c.isAlphanum = true) : settings.isTermChar c = true := by
  simp [Settings.isTermChar, h]

theorem Token.mem_reservedChars {c : Char} {token : Token} (h : Token.ofChar? c = some token) :
    c ∈ reservedChars := by
  unfold Token.ofChar? at h
  split at h
  · decide
  · decide
  · unfold BinaryOp.ofSymbol? at h
    split at h <;> first | decide | simp at h

theorem not_isAlphanum_of_mem_reservedChars {c : Char} (h : c ∈ reservedChars) :
    c.isAlphanum = false := by
  simp only [reservedChars, List.mem_cons, List.not_mem_nil, or_false] at h
  rcases h with rfl | rfl | rfl | rfl | rfl | rfl <;> rfl

theorem Settings.not_isTermChar_of_mem_reservedChars (settings : Settings) {c : Char}
    (h : c ∈ reservedChars) : settings.isTermChar c = false := by
  simp [Settings.isTermChar, not_isAlphanum_of_mem_reservedChars h, h]

section

variable {settings : Settings} {position : Nat} {c : Char} {cs word : List Char}

theorem tokensFrom_symbol {token : Token} (h : Token.ofChar? c = some token) :
    tokensFrom settings position [] (c :: cs) =
      (tokensFrom settings (position + 1) [] cs).map (⟨token, position⟩ :: ·) := by
  have hc := not_isAlphanum_of_mem_reservedChars (Token.mem_reservedChars h)
  simp [tokensFrom, hc, h, termBefore]

/-- A term that has started goes on to the last of the term characters that follow. -/
theorem tokensFrom_word {more : List Char} (hword : word ≠ [])
    (hmore : ∀ d ∈ more, settings.isTermChar d = true)
    (hcs : ∀ d ∈ cs.head?, settings.isTermChar d = false) :
    tokensFrom settings position word (more ++ cs) =
      (tokensFrom settings (position + more.length) [] cs).map
        (⟨.term (String.ofList (word.reverse ++ more)), position - word.length⟩ :: ·) := by
  induction more generalizing position word with
  | nil =>
    rcases cs with _ | ⟨c, cs⟩
    · simp [tokensFrom, termBefore, hword, Except.map]
    · have hterm : settings.isTermChar c = false := hcs c rfl
      have hc : c.isAlphanum = false := by
        by_contra hc
        rw [settings.isTermChar_of_isAlphanum (by simpa using hc)] at hterm
        cases hterm
      cases htoken : Token.ofChar? c with
      | none => simp [tokensFrom, hterm, hc, htoken, Except.map]
      | some token =>
        simp only [tokensFrom, List.nil_append, hterm, hc, htoken, termBefore, hword]
        cases tokensFrom settings (position + 1) [] cs <;> simp [Except.map]
  | cons d more ih =>
    have hd : settings.isTermChar d = true := hmore d (by simp)
    rw [List.cons_append, tokensFrom, if_pos ⟨hword, hd⟩,
      ih (by simp) fun e he => hmore e (by simp [he])]
    simp [Nat.add_comm, Nat.add_left_comm]

theorem tokensFrom_term (hc : c.isAlphanum = true)
    (hword : ∀ d ∈ word, settings.isTermChar d = true)
    (hcs : ∀ d ∈ cs.head?, settings.isTermChar d = false) :
    tokensFrom settings position [] (c :: (word ++ cs)) =
      (tokensFrom settings (position + (word.length + 1)) [] cs).map
        (⟨.term (String.ofList (c :: word)), position⟩ :: ·) := by
  have hstart : tokensFrom settings position [] (c :: (word ++ cs)) =
      tokensFrom settings (position + 1) [c] (word ++ cs) := by
    rw [tokensFrom, if_neg (by simp), if_pos hc]
    cases tokensFrom settings (position + 1) [c] (word ++ cs) <;> simp [Except.map, termBefore]
  rw [hstart, tokensFrom_word (by simp) hword hcs,
    show position + 1 + word.length = position + (word.length + 1) by omega]
  simp

end

/-- Only the term characters of the settings matter for how a text splits. -/
theorem tokensFrom_congr {settings settings' : Settings}
    (h : ∀ c, settings'.isTermChar c = settings.isTermChar c) (position : Nat)
    (word cs : List Char) :
    tokensFrom settings' position word cs = tokensFrom settings position word cs := by
  induction cs generalizing position word with
  | nil => rfl
  | cons c cs ih =>
    unfold tokensFrom
    simp only [h, ih]

theorem Munches.position_eq {settings : Settings} {position : Nat} {cs : List Char}
    {placed : Placed} {tokens : List Placed}
    (h : Munches settings position cs (placed :: tokens)) : placed.position = position := by
  cases h <;> rfl

theorem Munches.tokensFrom_eq {settings : Settings} {position : Nat} {cs : List Char}
    {tokens : List Placed} (h : Munches settings position cs tokens) :
    tokensFrom settings position [] cs = .ok tokens := by
  induction h with
  | nil => rfl
  | symbol htoken _ ih => rw [tokensFrom_symbol htoken, ih]; rfl
  | term hc hword hcs _ ih => rw [tokensFrom_term hc hword hcs, ih]; rfl

theorem munches_of_tokensFrom {settings : Settings} (n : Nat) :
    ∀ {position : Nat} {cs : List Char} {tokens : List Placed}, cs.length ≤ n →
      tokensFrom settings position [] cs = .ok tokens → Munches settings position cs tokens := by
  induction n with
  | zero =>
    intro position cs tokens hlength h
    obtain rfl : cs = [] := List.eq_nil_of_length_eq_zero (Nat.le_zero.mp hlength)
    cases h
    exact .nil
  | succ n ih =>
    intro position cs tokens hlength h
    rcases cs with _ | ⟨c, cs⟩
    · cases h
      exact .nil
    cases hc : c.isAlphanum with
    | true =>
      have hsplit := List.takeWhile_append_dropWhile (p := settings.isTermChar) (l := cs)
      have hword : ∀ d ∈ cs.takeWhile settings.isTermChar, settings.isTermChar d = true :=
        fun d hd => List.mem_takeWhile_imp hd
      have hrest : ∀ d ∈ (cs.dropWhile settings.isTermChar).head?,
          settings.isTermChar d = false := by
        intro d hd
        have := List.head?_dropWhile_not settings.isTermChar cs
        rwa [Option.mem_def.mp hd] at this
      rw [← hsplit] at h ⊢
      rw [tokensFrom_term hc hword hrest] at h
      obtain ⟨rest, hrun, rfl⟩ := map_eq_ok.mp h
      refine .term hc hword hrest (ih ?_ hrun)
      have := List.length_dropWhile_le settings.isTermChar cs
      simp only [List.length_cons] at hlength
      omega
    | false =>
      cases htoken : Token.ofChar? c with
      | none => simp [tokensFrom, hc, htoken] at h
      | some token =>
        rw [tokensFrom_symbol htoken] at h
        obtain ⟨rest, hrun, rfl⟩ := map_eq_ok.mp h
        exact .symbol htoken (ih (Nat.le_of_succ_le_succ hlength) hrun)

/-- The tokens of a formula are those into which its characters split by maximal munch. -/
theorem tokenize_eq_ok {settings : Settings} {cs : List Char} {tokens : List Placed} :
    tokenize settings cs = .ok tokens ↔ Munches settings 1 cs tokens :=
  ⟨munches_of_tokensFrom cs.length (Nat.le_refl _), Munches.tokensFrom_eq⟩

end LedgerFields.Formula
