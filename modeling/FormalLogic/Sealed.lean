import FormalLogic.Table

/-!
# Sealed records and tables

Values that cannot be changed after they were made. Reading works as usual; every change is refused with
a message.
-/

namespace FormalLogic

/-- A record of a kind, with named fields. -/
structure SealedRecord (α : Type) where
  kind : String
  fields : List (String × α)

namespace SealedRecord

variable {α : Type}

/-- The value of a field. -/
def get (r : SealedRecord α) (name : String) : Outcome α :=
  Failure.absent.orElse (Table.find? r.fields name)

/-- The refusal of a change to a field. -/
def refuse (r : SealedRecord α) (change name : String) : Outcome α :=
  .error (.sealed ("Cannot " ++ change ++ " field '" ++ name ++ "' of immutable class '" ++ r.kind ++
    "'"))

/-- An assignment to a field, which is refused. -/
def assign (r : SealedRecord α) (name : String) : Outcome α := r.refuse "assign to" name

/-- The removal of a field, which is refused. -/
def remove (r : SealedRecord α) (name : String) : Outcome α := r.refuse "delete" name

end SealedRecord

/-- A table that cannot be changed. -/
structure SealedTable (α : Type) where
  entries : List (String × α)

namespace SealedTable

variable {α : Type}

/-- The value at a key. -/
def get (t : SealedTable α) (key : String) : Outcome α :=
  Failure.unknownKey.orElse (Table.find? t.entries key)

/-- Any change, which is refused. -/
def change (_ : SealedTable α) : Outcome α :=
  .error (.sealed "Cannot modify a frozendict")

end SealedTable

end FormalLogic
