import Sigil.Text.Blank
import Sigil.Text.Case

/-!
# Representations

The four ways in which an expression is written out. `Representation.all` is the order in which they
are listed and printed.
-/

namespace Sigil

/-- A way to write an expression. -/
inductive Representation where
  | plain
  | unicode
  | html
  | latex
  deriving DecidableEq, Repr

namespace Representation

/-- Every representation, in listing order. -/
def all : List Representation := [plain, unicode, html, latex]

/-- The lower case name of a representation. -/
def name : Representation → Text
  | plain => "plain"
  | unicode => "unicode"
  | html => "html"
  | latex => "latex"

/-- The representation with exactly this name. -/
def ofName? (value : Text) : Option Representation := all.find? fun r => r.name = value

/-- The representation that a name in any case means, blanks around it ignored. -/
def read? (value : Text) : Option Representation := ofName? value.trim.lower

theorem mem_all (r : Representation) : r ∈ all := by cases r <;> decide

/-- A representation is found under its own name alone. -/
theorem ofName?_eq_some_iff {value : Text} {r : Representation} :
    ofName? value = some r ↔ value = r.name := by
  constructor
  · intro h
    have hname := List.find?_some h
    exact (of_decide_eq_true hname).symm
  · rintro rfl
    cases r <;> decide

/-- A name means a representation if it is the representation's own name, in any case and with any
blanks around it. -/
theorem read?_eq_some_iff {value : Text} {r : Representation} :
    read? value = some r ↔ value.trim.lower = r.name := by
  rw [read?, ofName?_eq_some_iff]

theorem name_injective {r s : Representation} (h : r.name = s.name) : r = s := by
  revert h; cases r <;> cases s <;> decide

end Representation

/-- One value for each representation. -/
structure PerRepresentation (α : Type u) where
  plain : α
  unicode : α
  html : α
  latex : α

namespace PerRepresentation

variable {α : Type u} {β : Type v}

/-- The value for a representation. -/
def get (p : PerRepresentation α) : Representation → α
  | .plain => p.plain
  | .unicode => p.unicode
  | .html => p.html
  | .latex => p.latex

/-- The family with the value for one representation replaced. -/
def set (p : PerRepresentation α) (r : Representation) (a : α) : PerRepresentation α :=
  match r with
  | .plain => { p with plain := a }
  | .unicode => { p with unicode := a }
  | .html => { p with html := a }
  | .latex => { p with latex := a }

/-- The family of the values of a function. -/
def ofFn (f : Representation → α) : PerRepresentation α :=
  ⟨f .plain, f .unicode, f .html, f .latex⟩

@[simp]
theorem get_ofFn (f : Representation → α) (r : Representation) : (ofFn f).get r = f r := by
  cases r <;> rfl

theorem get_set (p : PerRepresentation α) (r s : Representation) (a : α) :
    (p.set r a).get s = if s = r then a else p.get s := by
  cases r <;> cases s <;> rfl

@[ext]
theorem ext_get {p q : PerRepresentation α} (h : ∀ r, p.get r = q.get r) : p = q := by
  obtain ⟨a, b, c, d⟩ := p
  obtain ⟨a', b', c', d'⟩ := q
  have h₁ : a = a' := h .plain
  have h₂ : b = b' := h .unicode
  have h₃ : c = c' := h .html
  have h₄ : d = d' := h .latex
  rw [h₁, h₂, h₃, h₄]

end PerRepresentation

end Sigil
