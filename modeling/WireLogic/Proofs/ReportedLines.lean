import WireLogic.Proofs.Compile
import WireLogic.Proofs.LineNumbers

/-!
# The lines of errors

An error of form has the line of the token where reading stops. An error of meaning has the line of
the binding, or of the output line, that could not be passed; nothing else that is done with a
program names a line.
-/

namespace WireLogic

set_option autoImplicit false

def CompileError.line? : CompileError → Option Nat
  | invalidToken line _ | malformed line _ | missingDependency _ line | unboundName _ line
  | mismatch line _ | outputCount line _ => some line
  | duplicateRegistration _ | standardCell .. | circuit _ => none

/-- An error that names a line names this one. -/
abbrev Blames {α : Type} (line : Nat) : Except CompileError α → Prop :=
  Outcome.Ends (fun err : CompileError => ∀ n, err.line? = some n → n = line) fun _ => True

namespace Elaboration

theorem blames_lift {α : Type} (line : Nat) (r : Except CircuitError α) : Blames line (lift r) := by
  cases r with
  | error e =>
    intro n hn
    cases hn
  | ok a => trivial

theorem blames_renameValue (line : Nat) (e : Elaboration) (value : Value) (name : String) :
    Blames line (e.renameValue value name) := by
  unfold renameValue
  split
  · exact (blames_lift line _).bind fun _ _ _ => trivial
  · dsimp only
    split
    · trivial
    · exact (blames_lift line _).bind fun _ _ _ => trivial

theorem blames_rebind (line : Nat) (e : Elaboration) (name : String) :
    Blames line (e.rebind name) := by
  unfold rebind
  split
  · trivial
  · exact (blames_renameValue line _ _ _).bind fun _ _ _ => trivial

theorem blames_materialize (line : Nat) (e : Elaboration) (index width : Nat) :
    Blames line (e.materialize index width) := by
  unfold materialize
  split
  · intro n hn
    cases hn
  · split
    · trivial
    · exact (blames_lift line _).bind fun _ _ _ => trivial

theorem blames_resolve (line : Nat) (e : Elaboration) (name : String) (width : Option Nat) :
    Blames line (e.resolve name width line) := by
  unfold resolve
  split
  · trivial
  · exact blames_materialize line e _ _
  · intro n hn
    exact (Option.some.inj hn).symm

theorem blames_callee (line : Nat) (e : Elaboration) (name : String) (args : Nat) :
    Blames line (e.callee name args line) := by
  unfold callee
  split
  · intro n hn
    exact (Option.some.inj hn).symm
  · split
    · intro n hn
      exact (Option.some.inj hn).symm
    · trivial

theorem blames_checkWidth (line : Nat) (e : Elaboration) (position : Nat) (callee : String)
    (expected : Option Nat) (id : Nat) :
    Blames line (e.checkWidth line position callee expected id) := by
  unfold checkWidth
  split
  · intro n hn
    exact (Option.some.inj hn).symm
  · trivial

mutual

theorem blames_argument (line : Nat) (expected : Option Nat) (arg : Arg) (e : Elaboration) :
    Blames line (argument line expected arg e) := by
  cases arg with
  | name n =>
    rw [argument]
    exact blames_resolve line e n expected
  | call callee args =>
    rw [argument]
    apply (blames_callee line e callee args.length).bind
    intro cell _ _
    apply (blames_arguments line callee cell 0 args e).bind
    intro read _ _
    exact (blames_lift line _).bind fun _ _ _ => trivial

theorem blames_arguments (line : Nat) (name : String) (cell : Cell) (position : Nat)
    (args : List Arg) (e : Elaboration) :
    Blames line (arguments line name cell position args e) := by
  cases args with
  | nil =>
    rw [arguments]
    trivial
  | cons arg rest =>
    rw [arguments]
    apply (blames_argument line _ arg e).bind
    intro read _ _
    apply (blames_checkWidth line read.2 position name _ read.1).bind
    intro _ _ _
    exact (blames_arguments line name cell (position + 1) rest read.2).bind fun _ _ _ => trivial

end

theorem blames_addBinding (e : Elaboration) (b : Binding) : Blames b.line (e.addBinding b) := by
  unfold addBinding
  apply (blames_callee b.line e b.call.callee b.call.args.length).bind
  intro cell _ _
  apply (blames_arguments b.line b.call.callee cell 0 b.call.args e).bind
  intro read _ _
  apply (blames_rebind b.line read.2 b.name).bind
  intro e' _ _
  apply (blames_lift b.line _).bind
  intro added _ _
  exact (blames_lift b.line _).bind fun _ _ _ => trivial

theorem blames_addOutput (e : Elaboration) (line : Nat) (outputs : List Port) :
    Blames line (e.addOutput line outputs) := by
  unfold addOutput
  split
  · rename_i port
    apply (blames_resolve line e port.name port.width).bind
    intro read _ _
    have hmark : Blames line
        (do return { read.2 with assembly := ← lift (read.2.assembly.markOutput read.1) }) :=
      (blames_lift line _).bind fun _ _ _ => trivial
    cases port.width with
    | none => exact hmark
    | some declared =>
      dsimp only
      split
      · intro n hn
        exact (Option.some.inj hn).symm
      · exact hmark
  · intro n hn
    exact (Option.some.inj hn).symm

theorem blames_declare (line : Nat) (e : Elaboration) (port : Port) :
    Blames line (e.declare port) :=
  (blames_rebind line e port.name).bind fun _ _ _ => trivial

theorem blames_designate (line : Nat) (e : Elaboration) (index : Nat) :
    Blames line (e.designate index) :=
  (blames_materialize line e index 1).bind fun read _ _ =>
    (blames_lift line (read.2.assembly.markInput read.1)).bind fun _ _ _ => trivial

end Elaboration

theorem line?_eq_none_of_blames {α : Type} {r : Except CompileError α}
    (h : ∀ line, Blames line r) {err : CompileError} (hr : r = .error err) : err.line? = none := by
  cases hline : err.line? with
  | none => rfl
  | some n => exact absurd ((h (n + 1)).of_error hr n hline) (by omega)

namespace Program

def runThrough (p : Program) (library : Library) (strict : Bool) (bindings : List Binding) :
    Except CompileError Elaboration :=
  p.inputs.foldlM Elaboration.declare (.start library strict) >>=
    bindings.foldlM Elaboration.addBinding

/-- The error comes up at the line: at a binding, after those before it have passed, or at the
output line, after all of them have. -/
inductive StopsAt (p : Program) (library : Library) (strict : Bool) (err : CompileError) :
    Nat → Prop where
  | binding {before after : List Binding} {b : Binding} {e : Elaboration} :
      p.bindings = before ++ b :: after → p.runThrough library strict before = .ok e →
      e.addBinding b = .error err → StopsAt p library strict err b.line
  | output {e : Elaboration} : p.runThrough library strict p.bindings = .ok e →
      e.addOutput p.outputLine p.outputs = .error err → StopsAt p library strict err p.outputLine

theorem stopsAt_of_toAssembly {p : Program} {library : Library} {strict : Bool} {err : CompileError}
    (h : p.toAssembly library strict = .error err) {line : Nat} (hline : err.line? = some line) :
    p.StopsAt library strict err line := by
  have hnone : err.line? ≠ none := by simp [hline]
  have hprogram : (Elaboration.start library strict).addProgram p = .error err := by
    rcases Outcome.bind_eq_error.mp h with h | ⟨e, _, h⟩
    · exact h
    · cases h
  rcases Outcome.bind_eq_error.mp hprogram with hdeclare | ⟨e₁, hdeclare, h⟩
  · obtain ⟨_, port, _, e, _, _, herr⟩ := Outcome.foldlM_eq_error hdeclare
    exact absurd (line?_eq_none_of_blames (Elaboration.blames_declare · e port) herr) hnone
  have hrun : ∀ bindings, p.runThrough library strict bindings =
      bindings.foldlM Elaboration.addBinding e₁ := by
    intro bindings
    rw [runThrough, hdeclare]
    rfl
  rcases Outcome.bind_eq_error.mp h with hbindings | ⟨e₂, hbindings, h⟩
  · obtain ⟨before, b, after, e, hsplit, hbefore, herr⟩ := Outcome.foldlM_eq_error hbindings
    rw [(Elaboration.blames_addBinding e b).of_error herr line hline]
    exact .binding hsplit ((hrun before).trans hbefore) herr
  rcases Outcome.bind_eq_error.mp h with houtput | ⟨e₃, _, h⟩
  · rw [(Elaboration.blames_addOutput e₂ _ _).of_error houtput line hline]
    exact .output ((hrun p.bindings).trans hbindings) houtput
  · obtain ⟨_, index, _, e, _, _, herr⟩ := Outcome.foldlM_eq_error h
    exact absurd (line?_eq_none_of_blames (Elaboration.blames_designate · e index) herr) hnone

end Program

/-- Whatever is made of the assembly, an error with a line comes from before: the making speaks of
circuits only. -/
theorem stopsAt_of_compilation {α : Type} (build : Assembly → Except CircuitError α)
    {source : String} {library : Library} {strict : Bool} {err : CompileError}
    (h : (do
      let a ← (← Program.parse source).toAssembly library strict
      (build a).mapError .circuit) = Except.error err)
    {line : Nat} (hline : err.line? = some line) :
    Program.parse source = .error err ∨
      ∃ p, Program.parse source = .ok p ∧ p.StopsAt library strict err line := by
  rcases Outcome.bind_eq_error.mp h with hparse | ⟨p, hparse, h⟩
  · exact .inl hparse
  rcases Outcome.bind_eq_error.mp h with hassembly | ⟨a, _, hbuild⟩
  · exact .inr ⟨p, hparse, Program.stopsAt_of_toAssembly hassembly hline⟩
  · cases hbuilt : build a with
    | ok built =>
      rw [hbuilt] at hbuild
      cases hbuild
    | error e =>
      rw [hbuilt] at hbuild
      obtain rfl := Except.error.inj hbuild
      cases hline

/-- The line numbers of a text that can be cut into tokens are lines of the text. At every token a
cursor is on the line where the token begins, and at the end on the last line. Reading stops at one
of the tokens or at the end, and an error has the line of that place. The lines of bindings and of
the output line are those where they begin, and any other error with a line has that of the binding
or output line where it comes up. -/
theorem compile_reports_true_lines (source : String) (lexemes : List Lexeme)
    (hscan : Token.scan source.toList = .ok lexemes) :
    (∀ k x, lexemes[k]? = some x →
      Cursor.advance^[k] (.start (lexemes.map (·.token))) =
        ⟨Token.lineOf source.toList x.start, (lexemes.map (·.token)).drop k⟩ ∧
      Token.lineOf source.toList x.start = Token.lineOfByte source.toList
        (Token.bytes (source.toList.take x.start)).length) ∧
    Cursor.advance^[lexemes.length] (.start (lexemes.map (·.token))) =
      ⟨1 + source.toList.count '\n', []⟩ ∧
    (∃ k ≤ lexemes.length, (Cursor.read (lexemes.map (·.token))).2 =
      Cursor.advance^[k] (.start (lexemes.map (·.token)))) ∧
    Program.parse source = (Cursor.read (lexemes.map (·.token))).1 ∧
    (∀ err, Program.parse source = .error err →
      ∃ cause, err = .malformed (Cursor.read (lexemes.map (·.token))).2.line cause) ∧
    (∀ p, Program.parse source = .ok p → p.Placed source.toList lexemes) ∧
    ∀ library strict err line,
      compile source library strict = .error err ∨
        compileProbed source library strict = .error err →
      err.line? = some line →
      Program.parse source = .error err ∨
        ∃ p, Program.parse source = .ok p ∧ p.StopsAt library strict err line := by
  have hnumbered := Token.numbered_of_scan hscan
  have hparse : Program.parse source = Parse.tokens (lexemes.map (·.token)) := by
    rw [Program.parse, hscan]
  obtain ⟨hread, hstop, hline⟩ := Cursor.read_spec (lexemes.map (·.token))
  rw [List.length_map] at hstop
  refine ⟨?_, ?_, hstop, hparse.trans hread.symm, ?_, ?_, ?_⟩
  · intro k x hx
    exact ⟨Cursor.iterate_of_numbered hnumbered hx, (Token.lineOfByte_eq _ _).symm⟩
  · rw [Nat.add_comm]
    exact Cursor.iterate_length_of_numbered hnumbered
  · intro err herr
    exact hline err (hread.trans (hparse.symm.trans herr))
  · intro p hp
    exact Program.placed_of_tokens hnumbered (hparse.symm.trans hp)
  · intro library strict err line herr hnamed
    rcases herr with herr | herr
    · exact stopsAt_of_compilation Assembly.flatten herr hnamed
    · exact stopsAt_of_compilation Assembly.flattenProbed herr hnamed

/-- A comment with letters of two bytes and a blank line come before a binding with a name that is
not bound. In the other text a parenthesis is not closed on its line. -/
theorem remarks_compile_reports_true_lines :
    (∃ lexemes p,
      Token.scan "a b // größe\n\nx = nand a b\ny = nand x c\ny\n".toList = .ok lexemes ∧
      Cursor.advance^[10] (.start (lexemes.map (·.token))) =
        ⟨4, (lexemes.map (·.token)).drop 10⟩ ∧
      Program.parse "a b // größe\n\nx = nand a b\ny = nand x c\ny\n" = .ok p ∧
      p.Placed "a b // größe\n\nx = nand a b\ny = nand x c\ny\n".toList lexemes ∧
      p.StopsAt .pairs false (.unboundName "c" 4) 4) ∧
    ∃ lexemes cause, Token.scan "a\n\nx = nand (a\nx".toList = .ok lexemes ∧
      (Cursor.read (lexemes.map (·.token))).2.line = 3 ∧
      Program.parse "a\n\nx = nand (a\nx" =
        .error (.malformed (Cursor.read (lexemes.map (·.token))).2.line cause) := by
  constructor
  · have hlexeme : (Token.scan "a b // größe\n\nx = nand a b\ny = nand x c\ny\n".toList).map
        (fun lexemes => lexemes[10]?) = .ok (some ⟨.identifier "y", 27, 28⟩) := by cbv
    have hcompile : compile "a b // größe\n\nx = nand a b\ny = nand x c\ny\n" .pairs false =
        .error (.unboundName "c" 4) := by cbv
    obtain ⟨lexemes, hscan, hlexeme⟩ := Outcome.map_eq_ok.mp hlexeme
    obtain ⟨htokens, _, _, _, hform, hplaced, hstops⟩ := compile_reports_true_lines _ lexemes hscan
    rcases hstops .pairs false _ 4 (.inl hcompile) rfl with herror | ⟨p, hparse, hstop⟩
    · obtain ⟨cause, hcause⟩ := hform _ herror
      cases hcause
    · exact ⟨lexemes, p, hscan, (htokens 10 _ hlexeme).1, hparse, hplaced p hparse, hstop⟩
  · have hline : (Token.scan "a\n\nx = nand (a\nx".toList).map
        (fun lexemes => (Cursor.read (lexemes.map (·.token))).2.line) = .ok 3 := by cbv
    have herror : Program.parse "a\n\nx = nand (a\nx" =
        .error (.malformed 3 (.unexpected .rightParen none .newline)) := by cbv
    obtain ⟨lexemes, hscan, hline⟩ := Outcome.map_eq_ok.mp hline
    obtain ⟨_, _, _, _, hform, _⟩ := compile_reports_true_lines _ lexemes hscan
    obtain ⟨cause, hcause⟩ := hform _ herror
    exact ⟨lexemes, cause, hscan, hline, hcause ▸ herror⟩

end WireLogic
