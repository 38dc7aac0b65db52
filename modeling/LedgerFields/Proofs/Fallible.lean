import LedgerFields.Notice
import Mathlib.Data.List.Forall2

/-! Computations that may fail: one that succeeds has succeeded at each of its steps, also when it
reports notices on the way. -/

namespace LedgerFields

variable {ε ε' α β : Type}

theorem bind_eq_ok {x : Except ε α} {f : α → Except ε β} {b : β} :
    (x >>= f) = .ok b ↔ ∃ a, x = .ok a ∧ f a = .ok b := by
  cases x with
  | error e => exact ⟨fun h => (by cases h), fun ⟨_, h, _⟩ => (by cases h)⟩
  | ok a => exact ⟨fun h => ⟨a, rfl, h⟩, fun ⟨_, h, hf⟩ => (by cases h; exact hf)⟩

theorem bind_eq_error {x : Except ε α} {f : α → Except ε β} {e : ε} :
    (x >>= f) = .error e ↔ x = .error e ∨ ∃ a, x = .ok a ∧ f a = .error e := by
  cases x with
  | error e' =>
    constructor
    · intro h
      exact .inl (by cases h; rfl)
    · rintro (h | ⟨_, h, -⟩)
      · cases h
        rfl
      · cases h
  | ok a =>
    constructor
    · intro h
      exact .inr ⟨a, rfl, h⟩
    · rintro (h | ⟨_, h, hf⟩)
      · cases h
      · cases h
        exact hf

theorem map_eq_ok {x : Except ε α} {f : α → β} {b : β} :
    x.map f = .ok b ↔ ∃ a, x = .ok a ∧ f a = b := by
  cases x with
  | error e => exact ⟨fun h => (by cases h), fun ⟨_, h, _⟩ => (by cases h)⟩
  | ok a =>
    constructor
    · intro h
      exact ⟨a, rfl, Except.ok.inj h⟩
    · rintro ⟨_, h, rfl⟩
      cases h
      rfl

theorem toOption_eq_some {x : Except ε α} {a : α} : x.toOption = some a ↔ x = .ok a := by
  cases x with
  | error e => exact ⟨fun h => (by cases h), fun h => (by cases h)⟩
  | ok b => exact ⟨fun h => (by cases h; rfl), fun h => (by cases h; rfl)⟩

theorem mapError_eq_ok {x : Except ε α} {f : ε → ε'} {a : α} :
    x.mapError f = .ok a ↔ x = .ok a := by
  cases x with
  | error e => exact ⟨fun h => (by cases h), fun h => (by cases h)⟩
  | ok b => exact ⟨fun h => (by cases h; rfl), fun h => (by cases h; rfl)⟩

/-- A computation that may fail and has no other effect. -/
theorem run_bind_id (x : ExceptT ε Id α) (f : α → ExceptT ε Id β) :
    Id.run (x >>= f).run = Id.run x.run >>= fun a => Id.run (f a).run := by
  rw [ExceptT.run_bind]
  obtain ⟨result, hresult⟩ : ∃ result : Except ε α, x.run = result := ⟨_, rfl⟩
  rw [hresult]
  cases result <;> rfl

theorem value_bind_eq_ok {x : ExceptT ε Logged α} {f : α → ExceptT ε Logged β} {b : β} :
    (x >>= f).run.value = .ok b ↔ ∃ a, x.run.value = .ok a ∧ (f a).run.value = .ok b := by
  rw [ExceptT.run_bind, Logged.value_bind]
  cases x.run.value with
  | error e => exact ⟨fun h => (by cases h), fun ⟨_, h, _⟩ => (by cases h)⟩
  | ok a => exact ⟨fun h => ⟨a, rfl, h⟩, fun ⟨_, h, hf⟩ => (by cases h; exact hf)⟩

theorem value_bind_eq_error {x : ExceptT ε Logged α} {f : α → ExceptT ε Logged β} {e : ε} :
    (x >>= f).run.value = .error e ↔
      x.run.value = .error e ∨ ∃ a, x.run.value = .ok a ∧ (f a).run.value = .error e := by
  rw [ExceptT.run_bind, Logged.value_bind]
  cases x.run.value with
  | error e' =>
    constructor
    · intro h
      cases h
      exact .inl rfl
    · rintro (h | ⟨_, h, -⟩)
      · cases h
        rfl
      · cases h
  | ok a =>
    constructor
    · exact fun h => .inr ⟨a, rfl, h⟩
    · rintro (h | ⟨_, h, hf⟩)
      · cases h
      · cases h
        exact hf

/-- A step that only hands on what it is given changes nothing. -/
theorem bind_eq_self {x : ExceptT ε Logged α} {f : α → ExceptT ε Logged α}
    (h : ∀ a, x.run.value = .ok a → f a = pure a) : (x >>= f) = x := by
  apply ExceptT.ext
  rw [ExceptT.run_bind]
  cases hx : x.run.value with
  | error e => apply Logged.ext <;> simp [hx]
  | ok a => apply Logged.ext <;> simp [hx, h a hx]

/-- A fold that fails fails at one of the elements, after those before it. -/
theorem foldlM_eq_error {f : β → α → Except ε β} {xs : List α} {b : β} {e : ε}
    (h : xs.foldlM f b = .error e) :
    ∃ before x after b', xs = before ++ x :: after ∧ before.foldlM f b = .ok b' ∧
      f b' x = .error e := by
  induction xs generalizing b with
  | nil => cases h
  | cons x xs ih =>
    rw [List.foldlM_cons] at h
    rcases bind_eq_error.mp h with h | ⟨b', hx, h⟩
    · exact ⟨[], x, xs, b, rfl, rfl, h⟩
    · obtain ⟨before, y, after, b'', rfl, hbefore, hy⟩ := ih h
      refine ⟨x :: before, y, after, b'', rfl, ?_, hy⟩
      rw [List.foldlM_cons, hx]
      exact hbefore

/-- A list of computations that all succeed gives their results. -/
theorem mapM_eq_ok {f : α → Except ε β} {xs : List α} {ys : List β} :
    xs.mapM f = .ok ys ↔ List.Forall₂ (fun x y => f x = .ok y) xs ys := by
  induction xs generalizing ys with
  | nil =>
    rw [List.forall₂_nil_left_iff]
    exact ⟨fun h => (by cases h; rfl), fun h => (by rw [h]; rfl)⟩
  | cons x xs ih =>
    rw [List.mapM_cons, bind_eq_ok]
    constructor
    · rintro ⟨y, hy, h⟩
      obtain ⟨rest, hrest, h⟩ := bind_eq_ok.mp h
      cases h
      exact .cons hy (ih.mp hrest)
    · rintro (_ | ⟨hy, hrest⟩)
      exact ⟨_, hy, bind_eq_ok.mpr ⟨_, ih.mpr hrest, rfl⟩⟩

theorem exists_of_forall₂ {R : α → β → Prop} {xs : List α} {ys : List β}
    (h : List.Forall₂ R xs ys) {n : Nat} {y : β} (hy : ys[n]? = some y) :
    ∃ x, xs[n]? = some x ∧ R x y := by
  induction h generalizing n with
  | nil => cases hy
  | cons hR _ ih =>
    cases n with
    | zero =>
      cases hy
      exact ⟨_, rfl, hR⟩
    | succ n => exact ih hy

/-! ### The result of a computation, when its error does not matter -/

theorem toOption_bind (x : Except ε α) (f : α → Except ε β) :
    (x >>= f).toOption = x.toOption.bind fun a => (f a).toOption := by
  cases x <;> rfl

theorem toOption_map (f : α → β) (x : Except ε α) : (x.map f).toOption = x.toOption.map f := by
  cases x <;> rfl

theorem toOption_bind_pure (f : α → β) (x : Except ε α) :
    (x >>= fun a => pure (f a)).toOption = x.toOption.map f := by
  cases x <;> rfl

theorem toOption_mapError (f : ε → ε') (x : Except ε α) : (x.mapError f).toOption = x.toOption := by
  cases x <;> rfl

/-- Folds of which one is at each step the image of the other have results of which one is the image
of the other. -/
theorem toOption_foldlM_map {f : β → α → Except ε β} {f' : β → α → Except ε' β} {g : β → β}
    (h : ∀ b x, (f (g b) x).toOption = (f' b x).toOption.map g) (xs : List α) (b : β) :
    (xs.foldlM f (g b)).toOption = (xs.foldlM f' b).toOption.map g := by
  induction xs generalizing b with
  | nil => rfl
  | cons x xs ih =>
    rw [List.foldlM_cons, List.foldlM_cons, toOption_bind, toOption_bind, h, Option.map_bind,
      Option.bind_map]
    exact congrArg _ (funext fun b' => ih b')

/-! ### The error of a computation -/

/-- The error of a computation that fails. -/
def errorOf? : Except ε α → Option ε
  | .ok _ => none
  | .error e => some e

@[simp] theorem errorOf?_ok (a : α) : errorOf? (.ok a : Except ε α) = none := rfl

@[simp] theorem errorOf?_error (e : ε) : errorOf? (.error e : Except ε α) = some e := rfl

theorem errorOf?_eq_some {x : Except ε α} {e : ε} : errorOf? x = some e ↔ x = .error e := by
  cases x <;> simp

theorem errorOf?_eq_none {x : Except ε α} : errorOf? x = none ↔ ∃ a, x = .ok a := by
  cases x <;> simp

theorem errorOf?_map (f : α → β) (x : Except ε α) : errorOf? (x.map f) = errorOf? x := by
  cases x <;> rfl

/-- Of two steps the first error counts. -/
theorem errorOf?_bind {x : Except ε α} {f : α → Except ε β} {e : Option ε}
    (h : ∀ a, x = .ok a → errorOf? (f a) = e) :
    errorOf? (x >>= f) = (errorOf? x).or e := by
  cases x with
  | error e' => rfl
  | ok a => exact h a rfl

theorem findSome?_cons_eq_or (f : α → Option β) (x : α) (xs : List α) :
    (x :: xs).findSome? f = (f x).or (xs.findSome? f) := by
  rw [List.findSome?_cons]
  cases f x <;> rfl

/-- Of the elements of a list the first error counts. -/
theorem errorOf?_mapM (f : α → Except ε β) (xs : List α) :
    errorOf? (xs.mapM f) = xs.findSome? fun x => errorOf? (f x) := by
  induction xs with
  | nil => rfl
  | cons x xs ih =>
    have hrest (b : β) :
        errorOf? (xs.mapM f >>= fun bs => pure (b :: bs)) = errorOf? (xs.mapM f) := by
      cases xs.mapM f <;> rfl
    rw [List.mapM_cons, errorOf?_bind fun b _ => hrest b, ih, findSome?_cons_eq_or]

end LedgerFields
