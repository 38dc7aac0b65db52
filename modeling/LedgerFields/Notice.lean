/-! Notices: what a computation reports beside its answer. Each has a level and a text, and a
computation keeps them in the order in which they arose. -/

namespace LedgerFields

/-- How grave a notice is. -/
inductive Level where
  | warning
  | error
  deriving DecidableEq, Repr

/-- The word for a level. -/
def Level.name : Level → String
  | .warning => "WARN"
  | .error => "ERROR"

/-- What is reported beside an answer. -/
inductive Notice where
  /-- A row repeats the key of an earlier row; rows count from 1 here. -/
  | duplicateKey (key column : String) (row : Nat)
  /-- A column bears the name of an earlier one and gets a name of its own. -/
  | renamedColumn (base name : String)
  /-- A field document defines fields of a procedure that does not exist. -/
  | unknownProcedure (key : String)
  /-- No field of a batch could be computed. -/
  | batchAborted (reason : String)
  deriving DecidableEq, Repr

/-- An aborted batch is an error; all else is a warning. -/
def Notice.level : Notice → Level
  | .batchAborted _ => .error
  | _ => .warning

/-- The text of a notice. -/
def Notice.text : Notice → String
  | .duplicateKey key column row =>
    s!"Duplicate key `{key}` in column `{column}` (row {row}); keeping the first occurrence"
  | .renamedColumn base name => s!"Duplicate column `{base}` renamed to `{name}`"
  | .unknownProcedure key => s!"Ignoring unknown procedure `{key}` in field definitions"
  | .batchAborted reason => s!"Batch aborted: {reason}"

/-- An answer with the notices that arose on the way to it, oldest first. -/
structure Logged (α : Type) where
  value : α
  notices : List Notice

namespace Logged

/-- Two logged answers are equal when their values and their notices are. -/
@[ext] theorem ext {α : Type} {x y : Logged α} (hValue : x.value = y.value)
    (hNotices : x.notices = y.notices) : x = y := by
  cases x; cases y; simp_all

instance : Monad Logged where
  pure value := ⟨value, []⟩
  bind x f := ⟨(f x.value).value, x.notices ++ (f x.value).notices⟩

/-- Reports one notice. -/
def note (notice : Notice) : Logged Unit := ⟨(), [notice]⟩

@[simp] theorem value_pure {α : Type} (a : α) : (pure a : Logged α).value = a := rfl

@[simp] theorem notices_pure {α : Type} (a : α) : (pure a : Logged α).notices = [] := rfl

@[simp] theorem value_bind {α β : Type} (x : Logged α) (f : α → Logged β) :
    (x >>= f).value = (f x.value).value := rfl

@[simp] theorem notices_bind {α β : Type} (x : Logged α) (f : α → Logged β) :
    (x >>= f).notices = x.notices ++ (f x.value).notices := rfl

instance : LawfulMonad Logged :=
  LawfulMonad.mk' Logged (fun x => by ext1 <;> simp [Functor.map]) (fun a f => by ext1 <;> simp)
    (fun x f g => by ext1 <;> simp [List.append_assoc])

end Logged

end LedgerFields
