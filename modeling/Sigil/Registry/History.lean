import Sigil.Registry

/-!
# Histories of a registry

A registry is what a sequence of changes makes of the empty one. What a single change says about a
table, about marks and about the representations mentioned can be read off the change alone.
-/

namespace Sigil.Registry

/-- A change to a registry. -/
inductive Change where
  | install (r : Representation) (id : Text) (table : Table)
  | uninstall (r : Representation) (id : Text)
  | setMarks (r : Representation) (marks : List Text)

/-- Make one change. -/
def apply (reg : Registry) : Change → Registry
  | .install r id table => reg.install r id table
  | .uninstall r id => reg.uninstall r id
  | .setMarks r marks => reg.setMarks r marks

/-- Make changes one after another. -/
def applyAll (reg : Registry) (changes : List Change) : Registry := changes.foldl apply reg

/-- The registry that a history of changes leaves. -/
def ofHistory (changes : List Change) : Registry := empty.applyAll changes

namespace Change

/-- The representation that is changed. -/
def representation : Change → Representation
  | install r _ _ => r
  | uninstall r _ => r
  | setMarks r _ => r

/-- The representation that the change mentions. Removing a table mentions none. -/
def mentioned? : Change → Option Representation
  | install r _ _ => some r
  | uninstall .. => none
  | setMarks r _ => some r

/-- What the change says about the table under an id: that there is this one now, or none. -/
def tableUnder? (r : Representation) (id : Text) : Change → Option (Option Table)
  | install r' id' table => if r' = r ∧ id' = id then some (some table) else none
  | uninstall r' id' => if r' = r ∧ id' = id then some none else none
  | setMarks .. => none

/-- The marks that the change sets for a representation. -/
def marksFor? (r : Representation) : Change → Option (List Text)
  | setMarks r' marks => if r' = r then some marks else none
  | _ => none

end Change

end Sigil.Registry
