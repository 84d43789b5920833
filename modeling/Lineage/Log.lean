/-! Notes that a computation leaves beside its value. -/

namespace Lineage

/-- How much attention a note asks for. -/
inductive Level where
  | debug
  | info
  | warning
  | error
  deriving DecidableEq, Repr

/-- The name of a level. -/
def Level.label : Level → String
  | .debug => "DEBUG"
  | .info => "INFO"
  | .warning => "WARNING"
  | .error => "ERROR"

/-- The rank of a level, the quietest first. -/
def Level.rank : Level → Nat
  | .debug => 0
  | .info => 1
  | .warning => 2
  | .error => 3

/-- One line of a log. -/
structure Note where
  level : Level
  text : String
  deriving DecidableEq, Repr

/-- The notes of a level and above. -/
def notesFrom (level : Level) (notes : List Note) : List Note :=
  notes.filter fun note => level.rank ≤ note.level.rank

/-- A value and the notes taken on the way to it. -/
structure Logged (α : Type) where
  value : α
  notes : List Note
  deriving Repr

namespace Logged

variable {α β : Type}

/-- A value without notes. -/
protected def pure (value : α) : Logged α :=
  ⟨value, []⟩

/-- The notes of the first part come before those of the next. -/
protected def bind (first : Logged α) (next : α → Logged β) : Logged β :=
  ⟨(next first.value).value, first.notes ++ (next first.value).notes⟩

instance : Monad Logged where
  pure := Logged.pure
  bind := Logged.bind

/-- A part that takes no notes can be left out, and it does not matter how parts in a row are
grouped. -/
instance : LawfulMonad Logged :=
  LawfulMonad.mk' Logged
    (fun logged => by
      show Logged.mk logged.value (logged.notes ++ []) = logged
      simp)
    (fun value next => by
      show Logged.mk (next value).value ([] ++ (next value).notes) = next value
      simp)
    (fun first second third => by
      show Logged.mk _ _ = Logged.mk _ _
      simp [Logged.bind, bind])

/-- The value of a computation without notes. -/
@[simp] theorem value_pure (value : α) : (pure value : Logged α).value = value :=
  rfl

/-- Notes have no influence on the value. -/
@[simp] theorem value_bind (first : Logged α) (next : α → Logged β) :
    (first >>= next).value = (next first.value).value :=
  rfl

/-- Notes have no influence on the values of a list either. -/
@[simp] theorem value_mapM (step : α → Logged β) (items : List α) :
    (items.mapM step).value = items.map fun item => (step item).value := by
  induction items with
  | nil => rfl
  | cons item items ih => rw [List.mapM_cons, value_bind, value_bind, ih, value_pure, List.map_cons]

/-- Takes one note. -/
def note (level : Level) (text : String) : Logged Unit :=
  ⟨(), [⟨level, text⟩]⟩

end Logged

end Lineage
