import LedgerFields.Notice
import Mathlib.Data.List.Basic

/-! Computations that may fail, keep a state and report notices: one that succeeds has succeeded at
each of its steps, and the notices of the steps follow each other. `Answers` says what a computation
comes to from any state, and `Since` what may be remembered of a list of steps: the last one that
starts something, when only such follow as go on with it. -/

namespace LedgerFields

variable {ε σ α β : Type} {s s' : σ} {notices : List Notice}

theorem run_bind_eq {x : StateT σ Logged α} {f : α → StateT σ Logged β} {b : β} :
    (x >>= f).run s = ⟨(b, s'), notices⟩ ↔ ∃ a t earlier later,
      x.run s = ⟨(a, t), earlier⟩ ∧ (f a).run t = ⟨(b, s'), later⟩ ∧
      notices = earlier ++ later := by
  rw [StateT.run_bind]
  constructor
  · intro h
    rcases hx : x.run s with ⟨⟨a, t⟩, earlier⟩
    rw [hx] at h
    have hvalue := congrArg Logged.value h
    have hnotices := congrArg Logged.notices h
    simp only [Logged.value_bind, Logged.notices_bind] at hvalue hnotices
    exact ⟨a, t, earlier, _, rfl, Logged.ext hvalue rfl, hnotices.symm⟩
  · rintro ⟨a, t, earlier, later, hx, hf, rfl⟩
    apply Logged.ext <;> simp [hx, hf]

theorem run_pure_eq {a b : α} :
    (pure a : StateT σ Logged α).run s = ⟨(b, s'), notices⟩ ↔ a = b ∧ s = s' ∧ notices = [] := by
  rw [StateT.run_pure]
  constructor
  · intro h
    cases h
    exact ⟨rfl, rfl, rfl⟩
  · rintro ⟨rfl, rfl, rfl⟩
    rfl

theorem run_liftM_eq (x : Logged α) :
    (liftM x : StateT σ Logged α).run s = ⟨(x.value, s), x.notices⟩ := by
  have hrun : (liftM x : StateT σ Logged α).run s = x >>= fun a => pure (a, s) := rfl
  rw [hrun]
  apply Logged.ext
  · rfl
  · rw [Logged.notices_bind, Logged.notices_pure, List.append_nil]

theorem run_bind_eq_ok {x : ExceptT ε (StateT σ Logged) α}
    {f : α → ExceptT ε (StateT σ Logged) β} {b : β} :
    (x >>= f).run.run s = ⟨(.ok b, s'), notices⟩ ↔ ∃ a t earlier later,
      x.run.run s = ⟨(.ok a, t), earlier⟩ ∧ (f a).run.run t = ⟨(.ok b, s'), later⟩ ∧
      notices = earlier ++ later := by
  rw [ExceptT.run_bind, run_bind_eq]
  constructor
  · rintro ⟨result, t, earlier, later, hx, hf, hnotices⟩
    cases result with
    | error e => cases (run_pure_eq.mp hf).1
    | ok a => exact ⟨a, t, earlier, later, hx, hf, hnotices⟩
  · rintro ⟨a, t, earlier, later, hx, hf, hnotices⟩
    exact ⟨.ok a, t, earlier, later, hx, hf, hnotices⟩

theorem run_lift_eq_ok {x : StateT σ Logged α} {a : α} :
    (ExceptT.lift x : ExceptT ε (StateT σ Logged) α).run.run s = ⟨(.ok a, s'), notices⟩ ↔
      x.run s = ⟨(a, s'), notices⟩ := by
  rw [ExceptT.run_lift, map_eq_pure_bind, run_bind_eq]
  constructor
  · rintro ⟨_, _, _, _, hx, ha, rfl⟩
    obtain ⟨ha, rfl, rfl⟩ := run_pure_eq.mp ha
    cases ha
    rwa [List.append_nil]
  · intro h
    exact ⟨_, _, _, _, h, run_pure_eq.mpr ⟨rfl, rfl, rfl⟩, by simp⟩

/-- From whatever state the computation starts, its answer satisfies `P`. -/
def Answers (x : ExceptT ε (StateT σ Logged) α) (P : Except ε α → Prop) : Prop :=
  ∀ s, P (x.run.run s).value.1

theorem Answers.bind {x : ExceptT ε (StateT σ Logged) α}
    {f : α → ExceptT ε (StateT σ Logged) β} {P : Except ε α → Prop} {Q : Except ε β → Prop}
    (hx : Answers x P) (herror : ∀ e, P (.error e) → Q (.error e))
    (hok : ∀ a, P (.ok a) → Answers (f a) Q) : Answers (x >>= f) Q := by
  intro s
  have h := hx s
  rw [ExceptT.run_bind, StateT.run_bind, Logged.value_bind]
  rcases hrun : (x.run.run s).value with ⟨result, t⟩
  rw [hrun] at h
  cases result with
  | error e => exact herror e h
  | ok a => exact hok a h t

/-- What holds of the answer at each element, whatever the state, holds of all answers. -/
theorem forall_mem_mapM {f : α → StateT σ Logged β} {P : β → Prop}
    (h : ∀ x s, P ((f x).run s).value.1) (xs : List α) (s : σ) :
    ∀ y ∈ ((xs.mapM f).run s).value.1, P y := by
  induction xs generalizing s with
  | nil => exact fun y hy => (by cases hy)
  | cons x xs ih =>
    rw [List.mapM_cons]
    exact List.forall_mem_cons.mpr ⟨h x s, ih _⟩

/-! ### What has held of a list since one of its elements -/

variable {start goOn : α → Prop} {xs : List α} {x : α}

/-- An element starts something, and all elements after it go on with it. -/
def Since (start goOn : α → Prop) (xs : List α) : Prop :=
  ∃ before x after, xs = before ++ x :: after ∧ start x ∧ ∀ y ∈ after, goOn y

theorem not_since_nil : ¬Since start goOn [] := by
  rintro ⟨before, x, after, h, -⟩
  simp at h

/-- One more element starts something, or it goes on with what an element before it starts. -/
theorem since_concat :
    Since start goOn (xs ++ [x]) ↔ start x ∨ goOn x ∧ Since start goOn xs := by
  constructor
  · rintro ⟨before, y, after, h, hy, hafter⟩
    rcases List.eq_nil_or_concat after with rfl | ⟨after, last, rfl⟩
    · obtain ⟨-, hx⟩ := List.append_inj' h rfl
      cases hx
      exact .inl hy
    · rw [List.concat_eq_append, ← List.cons_append, ← List.append_assoc] at h
      rw [List.concat_eq_append, List.forall_mem_append, List.forall_mem_singleton] at hafter
      obtain ⟨rfl, hx⟩ := List.append_inj' h rfl
      cases hx
      exact .inr ⟨hafter.2, before, y, after, rfl, hy, hafter.1⟩
  · rintro (hx | ⟨hx, before, y, after, rfl, hy, hafter⟩)
    · exact ⟨xs, x, [], rfl, hx, List.forall_mem_nil _⟩
    · refine ⟨before, y, after ++ [x], by simp, hy, ?_⟩
      exact List.forall_mem_append.mpr ⟨hafter, List.forall_mem_singleton.mpr hx⟩

end LedgerFields
