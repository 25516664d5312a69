import Sigil.Engine

/-!
# Calls in Markdown

An inline rule for Markdown readers. At a dollar sign it tries to read a call within the inline
block, and turns it into a token that holds the call's HTML. What is no call is left to other rules.
The rule works with any reader that lets it see and do what `Reader` says, and counts on what
`Reader.IsLawful` says of that.
-/

namespace Sigil.Markdown

/-- A token of a Markdown reader. -/
structure Token where
  type : Text
  tag : Text
  /-- Whether the token opens an element, closes one or does neither. -/
  nesting : Int
  markup : Text := []
  content : Text := []
  deriving DecidableEq

namespace Token

/-- The type of tokens that hold a call. -/
def callType : Text := "notation"

/-- The type of tokens that hold text. -/
def textType : Text := "text"

/-- The HTML of a token that holds a call. -/
def html (t : Token) : Text := t.content

end Token

/-- What a Markdown reader lets an inline rule see and do. The states are up to the reader. -/
structure Reader (σ : Type) where
  source : σ → Text
  /-- Where the reader stands. -/
  pos : σ → Nat
  /-- Where the inline block ends. -/
  stop : σ → Nat
  tokens : σ → List Token
  /-- Go to an offset. -/
  moveTo : Nat → σ → σ
  /-- Add a token with a type, a tag and a nesting. -/
  push : Text → Text → Int → σ → σ
  /-- Change the token that was added last. -/
  amend : (Token → Token) → σ → σ

variable {σ : Type}

/-- What a Markdown reader promises. -/
structure Reader.IsLawful (reader : Reader σ) : Prop where
  source_push : ∀ type tag nesting s,
    reader.source (reader.push type tag nesting s) = reader.source s
  stop_push : ∀ type tag nesting s, reader.stop (reader.push type tag nesting s) = reader.stop s
  /-- A token goes behind all others. Text that was pending becomes a token in front of it. -/
  tokens_push : ∀ type tag nesting s, ∃ pending : Option Token,
    (∀ t ∈ pending, t.type = Token.textType) ∧
      reader.tokens (reader.push type tag nesting s) =
        reader.tokens s ++ pending.toList ++ [{ type := type, tag := tag, nesting := nesting }]
  source_amend : ∀ f s, reader.source (reader.amend f s) = reader.source s
  stop_amend : ∀ f s, reader.stop (reader.amend f s) = reader.stop s
  tokens_amend : ∀ f s before t, reader.tokens s = before ++ [t] →
    reader.tokens (reader.amend f s) = before ++ [f t]
  source_moveTo : ∀ pos s, reader.source (reader.moveTo pos s) = reader.source s
  pos_moveTo : ∀ pos s, reader.pos (reader.moveTo pos s) = pos
  stop_moveTo : ∀ pos s, reader.stop (reader.moveTo pos s) = reader.stop s
  tokens_moveTo : ∀ pos s, reader.tokens (reader.moveTo pos s) = reader.tokens s

/-- How the rule reads calls. -/
structure Settings where
  /-- The text of the page may hold HTML of its own. -/
  allowHtml : Bool := false
  strict : Option Bool := none

/-- Text inside calls is escaped like all other text unless the page may hold HTML. -/
def Settings.options (s : Settings) : Options where
  strict := s.strict
  escape := if s.allowHtml then id else Html.escape

/-- A computation on the state of a Markdown reader that may fail. What it changed before it fails
stays changed. -/
abbrev Action (σ : Type) := EStateM Fault σ

/-- The call at an offset of the inline block, if there is one that ends within the block: what it
is written out to, and the offset behind it. -/
def call? (target : Target) (settings : Settings) (block : Text) (pos : Nat) :
    Except Fault (Option (Text × Nat)) :=
  match target.parseCall block pos settings.options with
  | .ok call => .ok (some call)
  | .error (.parse _) => .ok none
  | .error fault => .error fault

/-- The inline block of a state. -/
def Reader.block (reader : Reader σ) (s : σ) : Text := (reader.source s).take (reader.stop s)

/-- Try to read a call where the reader stands. The answer tells whether there is one. A silent
reader moves over it and gets no token. -/
def rule (reader : Reader σ) (target : Target) (settings : Settings) (silent : Bool) :
    Action σ Bool := do
  let s ← get
  let start := reader.pos s
  if (reader.source s)[start]? ≠ some CodeUnit.dollar then return false
  match ← ofExcept (call? target settings (reader.block s) start) with
  | none => return false
  | some (content, stop) =>
    unless silent do
      modify (reader.push Token.callType "" 0)
      let s ← get
      let markup := ((reader.source s).take stop).drop start
      modify (reader.amend fun token => { token with markup })
      modify (reader.amend fun token => { token with content })
    modify (reader.moveTo stop)
    return true

end Sigil.Markdown
