import Sigil.Proofs.Expression.Reading
import Sigil.Proofs.Expression.Steps

/-!
# Evaluation of spelled trees

Lenient evaluation of the source that spells a tree gives the value of the tree
(`evaluate_spellAll`), for every target that renders calls or refuses them for want of a group or a
key. The value of a call is computed from the values of its arguments, so the induction is on the
tree, with any text behind the spelling and any calls open around it.
-/

namespace Sigil

open CodeUnit

/-! ## Arguments and open calls -/

/-- The argument as an entry of the list of arguments. One with an empty key is dropped. -/
def Argument.listed (v : Argument) : List Argument := if v.key = [] then [] else [v]

/-- Each argument of a call is listed or dropped by itself. -/
theorem Node.argumentValues_cons (target : Target) (escape : Text → Text) (arg : List Node)
    (rest : List (List Node)) :
    Node.argumentValues target escape (arg :: rest) =
      (Node.argumentValue target escape arg).listed ++ Node.argumentValues target escape rest := by
  rw [Node.argumentValues]
  unfold Argument.listed
  split <;> rfl

namespace OpenCall

/-- Adding twice is adding both at once. -/
theorem append_append (c : OpenCall) (key text key' text' : Text) :
    (c.append key text).append key' text' = c.append (key ++ key') (text ++ text') := by
  simp [append]

/-- Adding nothing changes nothing. -/
theorem append_nil (c : OpenCall) : c.append [] [] = c := by
  simp [append]

/-- An argument that was read from its start is listed when it is complete. -/
theorem completeArgument_append {c : OpenCall} (hc : c.current = {}) (v : Argument) :
    (c.append v.key v.text).completeArgument = { c with args := c.args ++ v.listed } := by
  obtain ⟨name, args, current⟩ := c
  subst hc
  by_cases hkey : v.key = [] <;> simp [append, completeArgument, Argument.listed, hkey]

end OpenCall

namespace Target

/-- Calls are rendered, or refused for want of a group or a key. -/
def RefusesSoftly (target : Target) : Prop :=
  ∀ name keys texts, (∃ rendered, target.invoke name keys texts = .ok rendered) ∨
    (∃ group reason, target.invoke name keys texts = .error (.unknownGroup group reason)) ∨
    ∃ group key reason, target.invoke name keys texts = .error (.unknownKey group key reason)

variable {target : Target} {manner : Manner} {escape : Text → Text} {source : Text}

/-- Lenient rendering never fails: a refused call has its arguments for a value. -/
theorem RefusesSoftly.renderCall (htarget : target.RefusesSoftly) (stop : Nat) (callee : Text)
    (args : List Argument) :
    target.renderCall ⟨false, escape⟩ source stop callee args =
      .ok (target.renderOrList callee args) := by
  unfold Target.renderCall renderOrList
  split
  · rcases htarget callee (args.map Argument.key) (args.map Argument.text) with
      ⟨rendered, h⟩ | ⟨group, reason, h⟩ | ⟨group, key, reason, h⟩ <;> simp [h]
  · rfl

/-- Leniently, the end of a call hands the value of the call on. -/
theorem RefusesSoftly.run_close (htarget : target.RefusesSoftly) (fragments : List Fragment)
    (c : OpenCall) (outer : List OpenCall) (depth here : Nat) (rest : Text) :
    target.run ⟨false, escape⟩ source ((Mode.argument depth).scan here (rightParen :: rest))
        ⟨fragments, c :: outer⟩ =
      target.run ⟨false, escape⟩ source ((Mode.afterClose depth).scan (here + 1) rest)
        ((⟨fragments, outer⟩ : Progress).receive
          (target.renderOrList c.name c.completeArgument.args)) := by
  rw [Mode.scan_argument_close, run_cons _ (by simp), step_close, htarget.renderCall]
  rfl

/-- A name and a parenthesis open a call, strictly if there is a group of that name. -/
theorem run_open {callee : Text} (hcallee : callee.isName = true)
    (hknown : manner.strict = true → target.known callee = true) (fragments : List Fragment)
    (calls : List OpenCall) (depth here : Nat) (rest : Text) :
    target.run manner source
        ((Mode.name depth []).scan here (callee ++ leftParen :: rest)) ⟨fragments, calls⟩ =
      target.run manner source ((Mode.argument depth).scan (here + callee.length + 1) rest)
        ⟨fragments, { name := callee } :: calls⟩ := by
  have hpermitted : ¬((manner.strict && !target.known callee) = true) := by
    simpa using hknown
  rw [Mode.scan_name depth here rest hcallee, run_cons _ (by simp)]
  simp only [step, if_neg hpermitted]
  rfl

/-! ## Runs over spelled trees -/

mutual

/-- Running over the spelling of a part of an argument adds the value of the part. -/
theorem RefusesSoftly.run_node (htarget : target.RefusesSoftly) (node : Node)
    (h : node.wellFormed = true) (fragments : List Fragment) (c : OpenCall)
    (outer : List OpenCall) (depth here : Nat) (rest : Text) :
    target.run ⟨false, escape⟩ source ((Mode.argument depth).scan here (node.spell ++ rest))
        ⟨fragments, c :: outer⟩ =
      target.run ⟨false, escape⟩ source ((Mode.argument depth).scan (here + node.spell.length) rest)
        ⟨fragments, c.append (node.value target escape).key (node.value target escape).text ::
          outer⟩ := by
  -- with `rest` and `outer` arbitrary, what stands behind and around the part does not matter
  match node, h with
  | .unit u, _ =>
      rw [Mode.scan_argument_unit, run_cons _ (by simp)]
      rfl
  | .call callee args, h =>
      simp only [Node.wellFormed, Bool.and_eq_true] at h
      simp only [Node.spell, List.cons_append, List.append_assoc]
      rw [Mode.scan_argument_dollar, run_open h.1 (by simp),
        htarget.run_arguments args h.2 _ _ rfl]
      simp only [Mode.afterClose, Progress.receive, Node.value, List.nil_append, List.length_cons,
        List.length_append, List.length_nil]
      congr 2
      omega

/-- Running over the spelling of arguments and a parenthesis completes and renders the call. -/
theorem RefusesSoftly.run_arguments (htarget : target.RefusesSoftly) (args : List (List Node))
    (h : Node.wellFormedArguments args = true) (fragments : List Fragment) (c : OpenCall)
    (hc : c.current = {}) (outer : List OpenCall) (depth here : Nat) (rest : Text) :
    target.run ⟨false, escape⟩ source ((Mode.argument depth).scan here
        (Node.spellArguments args ++ rightParen :: rest)) ⟨fragments, c :: outer⟩ =
      target.run ⟨false, escape⟩ source ((Mode.afterClose depth).scan
          (here + (Node.spellArguments args).length + 1) rest)
        ((⟨fragments, outer⟩ : Progress).receive
          (target.renderOrList c.name (c.args ++ Node.argumentValues target escape args))) := by
  -- a comma stands between two arguments alone, so the last argument is a case of its own
  match args, h with
  | [], _ =>
      rw [Node.spellArguments, List.nil_append, htarget.run_close]
      simp [OpenCall.completeArgument, hc, Node.argumentValues]
  | [arg], h =>
      simp only [Node.wellFormedArguments, Bool.and_eq_true] at h
      rw [Node.spellArguments, htarget.run_argument arg h.1.2, htarget.run_close,
        OpenCall.completeArgument_append hc, Node.argumentValues_cons]
      simp [OpenCall.append, Node.argumentValues]
  | arg :: arg' :: more, h =>
      rw [Node.wellFormedArguments, Bool.and_eq_true, Bool.and_eq_true] at h
      rw [Node.spellArguments, List.append_assoc, List.cons_append,
        htarget.run_argument arg h.1.2, Mode.scan_argument_comma, run_cons _ (by simp)]
      show target.run ⟨false, escape⟩ source _
        ⟨fragments, OpenCall.completeArgument _ :: outer⟩ = _
      rw [OpenCall.completeArgument_append hc,
        htarget.run_arguments (arg' :: more) h.2 fragments
          { c with args := c.args ++ (Node.argumentValue target escape arg).listed } hc,
        Node.argumentValues_cons target escape arg]
      simp only [List.append_assoc, List.length_append, List.length_cons]
      congr 2
      omega

/-- Running over the spelling of an argument adds the value of the argument. -/
theorem RefusesSoftly.run_argument (htarget : target.RefusesSoftly) (nodes : List Node)
    (h : Node.wellFormedArgument nodes = true) (fragments : List Fragment) (c : OpenCall)
    (outer : List OpenCall) (depth here : Nat) (rest : Text) :
    target.run ⟨false, escape⟩ source
        ((Mode.argument depth).scan here (Node.spellArgument nodes ++ rest))
        ⟨fragments, c :: outer⟩ =
      target.run ⟨false, escape⟩ source
        ((Mode.argument depth).scan (here + (Node.spellArgument nodes).length) rest)
        ⟨fragments, c.append (Node.argumentValue target escape nodes).key
          (Node.argumentValue target escape nodes).text :: outer⟩ := by
  match nodes, h with
  | [], _ =>
      rw [Node.spellArgument, Node.argumentValue, OpenCall.append_nil]
      rfl
  | node :: more, h =>
      simp only [Node.wellFormedArgument, Bool.and_eq_true] at h
      rw [Node.spellArgument, List.append_assoc, htarget.run_node node h.1,
        htarget.run_argument more h.2, OpenCall.append_append, Node.argumentValue,
        List.length_append, Nat.add_assoc]

end

end Target

/-! ## Expressions -/

namespace Piece

/-- The parts behind the first part of a well-formed expression are one, and it allows them. -/
theorem allWellFormed_cons {piece : Piece} {rest : List Piece}
    (h : allWellFormed (piece :: rest) = true) :
    piece.wellFormed = true ∧ allWellFormed rest = true ∧
      ∀ next ∈ rest.head?, piece.mayPrecede next = true := by
  cases rest with
  | nil => exact ⟨h, rfl, by simp⟩
  | cons next rest =>
      simp only [allWellFormed, Bool.and_eq_true] at h
      refine ⟨h.1.1, h.2, fun next' hnext => ?_⟩
      cases hnext
      exact h.1.2

/-- Behind literal text a well-formed expression ends, or a call begins. -/
theorem tokens_head_of_literal {t : Text} {rest : List Piece}
    (h : allWellFormed (literal t :: rest) = true) (here : Nat) (t' : Text) :
    (Mode.text.scan here (spellAll rest)).tokens.head? ≠ some (.literal t') := by
  obtain ⟨-, hrest, hnext⟩ := allWellFormed_cons h
  cases rest with
  | nil => simp [spellAll, Mode.scan, Mode.finish]
  | cons next rest =>
      cases next with
      | literal t'' => exact absurd (hnext (literal t'') rfl) (by simp [mayPrecede])
      | call callee args =>
          have hcallee : callee.isName = true := by
            have hcall := (allWellFormed_cons hrest).1
            simp only [wellFormed, Node.wellFormed, Bool.and_eq_true] at hcall
            exact hcall.1
          rw [spellAll, List.flatMap_cons, Mode.scan_text_call,
            Mode.scan_name 0 (here + 1) _ hcallee]
          simp [Scan.cons, Token.cons]

/-- A backslash at the end of literal text meets no dollar sign in a well-formed expression. -/
theorem spellAll_head_of_literal {t : Text} {rest : List Piece}
    (h : allWellFormed (literal t :: rest) = true) (ht : t.getLast? = some backslash) :
    (spellAll rest).head? ≠ some dollar := by
  obtain ⟨-, -, hnext⟩ := allWellFormed_cons h
  cases rest with
  | nil => simp [spellAll]
  | cons next rest =>
      cases next with
      | literal t' => exact absurd (hnext (literal t') rfl) (by simp [mayPrecede])
      | call callee args => exact absurd (hnext (call callee args) rfl) (by simp [mayPrecede, ht])

end Piece

namespace Target

variable {target : Target} {escape : Text → Text} {source : Text}

/-- Running over the spelling of an expression adds the fragments that it stands for. -/
theorem RefusesSoftly.run_pieces (htarget : target.RefusesSoftly) (pieces : List Piece)
    (h : Piece.allWellFormed pieces = true) (fragments : List Fragment) (here : Nat) :
    target.run ⟨false, escape⟩ source (Mode.text.scan here (Piece.spellAll pieces))
        ⟨fragments, []⟩ =
      .ok ⟨fragments ++ Piece.values target escape pieces, []⟩ := by
  induction pieces generalizing fragments here with
  | nil => simp [Piece.spellAll, Piece.values, Mode.scan, Mode.finish, run_nil]
  | cons piece rest ih =>
      obtain ⟨hpiece, hrest, -⟩ := Piece.allWellFormed_cons h
      cases piece with
      | literal t =>
          -- the literal is one token, since no literal token follows it
          have hne : t ≠ [] := by simpa [Piece.wellFormed] using hpiece
          rw [Piece.spellAll, List.flatMap_cons, ← Piece.spellAll,
            Mode.scan_text_literal here hne (Piece.spellAll_head_of_literal h),
            run_cons _ (fun _ t' _ => Piece.tokens_head_of_literal h _ t')]
          show target.run ⟨false, escape⟩ source _
            ⟨fragments ++ [⟨.literal, escape t⟩], []⟩ = _
          rw [ih hrest]
          simp [Piece.values, Piece.value]
      | call callee args =>
          simp only [Piece.wellFormed, Node.wellFormed, Bool.and_eq_true] at hpiece
          rw [Piece.spellAll, List.flatMap_cons, Mode.scan_text_call, run_open hpiece.1 (by simp),
            htarget.run_arguments args hpiece.2 _ _ rfl, ← Piece.spellAll]
          simp only [Mode.afterClose, Progress.receive]
          rw [ih hrest]
          simp [Piece.values, Piece.value, Node.value]

/-- Lenient evaluation of the spelling of a well-formed expression gives the fragments that the
expression stands for, and these and their concatenation are what the last pass is given. -/
theorem evaluate_spellAll (target : Target) (htarget : target.RefusesSoftly)
    (escape : Text → Text) (pieces : List Piece) (h : Piece.allWellFormed pieces = true) :
    target.evaluate ⟨false, escape⟩ (Piece.spellAll pieces) =
        .ok (Piece.values target escape pieces) ∧
      target.parse (Piece.spellAll pieces) { strict := some false, escape } =
        .ok (target.translate (Fragment.concat (Piece.values target escape pieces))
          (Piece.values target escape pieces)) := by
  have heval : target.evaluate ⟨false, escape⟩ (Piece.spellAll pieces) =
      .ok (Piece.values target escape pieces) := by
    rw [evaluate_eq_run, Scan.ofText, htarget.run_pieces pieces h]
    rfl
  refine ⟨heval, ?_⟩
  rw [parse, show Options.manner { strict := some false, escape } target = ⟨false, escape⟩ from rfl,
    heval]
  rfl

theorem sample_refusesSoftly : sample.RefusesSoftly := by
  intro callee keys texts
  simp only [sample]
  split
  · exact .inr (.inl ⟨_, _, rfl⟩)
  · exact .inl ⟨_, rfl⟩

/-- Special units, a refused call, a call without arguments and an empty rendering at once. -/
theorem evaluate_spellAll_sample :
    let pieces : List Piece := [.literal "5$", .call "echo"
      [[.unit comma, .call "lost" [[.unit dollar], [.unit 0x62]]], [.call "echo" []]]]
    let wrap : Text → Text := fun t => "[" ++ t ++ "]"
    sample.RefusesSoftly ∧ Piece.allWellFormed pieces = true ∧
      Piece.spellAll pieces = "5\\$$echo(\\,$lost(\\$,b),$echo())" ∧
      sample.evaluate ⟨false, wrap⟩ (Piece.spellAll pieces) =
        .ok [⟨.literal, "[5$]"⟩, ⟨.call, "[,][$] [b]"⟩] := by
  intro pieces wrap
  have hpieces : Piece.allWellFormed pieces = true := by decide
  have hvalues : Piece.values sample wrap pieces =
      [⟨.literal, "[5$]"⟩, ⟨.call, "[,][$] [b]"⟩] := by decide
  refine ⟨sample_refusesSoftly, hpieces, by decide, ?_⟩
  rw [(evaluate_spellAll sample sample_refusesSoftly wrap pieces hpieces).1, hvalues]

end Target

end Sigil
