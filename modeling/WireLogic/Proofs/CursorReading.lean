import WireLogic.Proofs.LineReading

/-!
# Reading a program with a cursor

Reading with a cursor comes to the same as cutting the tokens into lines first. What ties the two
together are the lines that are ahead of a cursor: to pass a blank line does not change them, and a
line that is read is the first of them.

A reader only ever goes on to the next token, and what it complains about is the token where it
stands. So the cursor of a run is always one that some steps from the start lead to.
-/

namespace WireLogic

set_option autoImplicit false

namespace Cursor

/-- The lines ahead that are not blank, the rest of the line under way included. -/
def lines (c : Cursor) : List Line := (Line.cutFrom c.line [] c.rest).filter fun l => !l.isBlank

/-- The number of the last line of the program. -/
def last (c : Cursor) : Nat := c.line + c.rest.count .newline

theorem lines_newline (line : Nat) (rest : List Token) :
    lines ⟨line, .newline :: rest⟩ = lines ⟨line + 1, rest⟩ := rfl

theorem last_newline (line : Nat) (rest : List Token) :
    last ⟨line, .newline :: rest⟩ = last ⟨line + 1, rest⟩ := by
  simp only [last, List.count_cons_self]
  omega

theorem lines_of_rest {c : Cursor} (h : c.rest = []) : c.lines = [] := by
  rw [lines, h]
  rfl

theorem last_of_rest {c : Cursor} (h : c.rest = []) : c.last = c.line := by
  rw [last, h]
  rfl

end Cursor

theorem Line.cutFrom_append (number : Nat) (current : List Token) {ts : List Token}
    (hts : .newline ∉ ts) (after : List Token) :
    cutFrom number current (ts ++ after) = cutFrom number (ts.reverse ++ current) after := by
  induction ts generalizing current with
  | nil => rfl
  | cons t ts ih =>
    obtain ⟨ht, hts⟩ := List.ne_and_not_mem_of_not_mem_cons hts
    have hcut : cutFrom number current (t :: (ts ++ after)) =
        cutFrom number (t :: current) (ts ++ after) := by
      rw [cutFrom]
      exact ht.symm
    rw [List.cons_append, hcut, ih _ hts]
    simp

namespace Cursor

/-- The first of the lines ahead, with what comes after it. -/
structure Opens (c : Cursor) (l : Line) (after : List Token) : Prop where
  eq : c = ⟨l.number, l.tokens ++ after⟩
  tokens : l.tokens ≠ []
  newline : .newline ∉ l.tokens
  follows : Reader.Follows l after

theorem Opens.lines {c : Cursor} {l : Line} {after : List Token} (h : c.Opens l after) :
    c.lines = l :: Cursor.lines ⟨l.number, after⟩ := by
  have hkept : (!l.isBlank) = true := by simp [Line.isBlank, h.tokens]
  rw [h.eq, Cursor.lines, Line.cutFrom_append _ _ h.newline]
  cases h.follows with
  | input hend =>
    have hl : Line.mk l.number (l.tokens.reverse ++ []).reverse .input = l := by simp [← hend]
    rw [Line.cutFrom, hl, List.filter_cons, if_pos hkept]
    rfl
  | newline after hend =>
    have hl : Line.mk l.number (l.tokens.reverse ++ []).reverse .newline = l := by simp [← hend]
    rw [Line.cutFrom, hl, List.filter_cons, if_pos hkept]
    rfl

theorem Opens.last {c : Cursor} {l : Line} {after : List Token} (h : c.Opens l after) :
    c.last = Cursor.last ⟨l.number, after⟩ := by
  rw [h.eq]
  simp [Cursor.last, List.count_append, List.count_eq_zero.mpr h.newline]

theorem Opens.atEnd {c : Cursor} {l : Line} {after : List Token} (h : c.Opens l after) :
    c.atEnd = false := by
  rw [h.eq]
  simp [Cursor.atEnd, h.tokens]

theorem Opens.atBinding {c : Cursor} {l : Line} {after : List Token} (h : c.Opens l after) :
    c.atBinding = l.isBinding := by
  rw [h.eq, Cursor.atBinding, Line.isBinding]
  rcases htokens : l.tokens with _ | ⟨t, _ | ⟨u, rest⟩⟩
  · exact absurd htokens h.tokens
  · cases h.follows <;> cases t <;> rfl
  · cases t with
    | identifier name => cases u <;> rfl
    | _ => rfl

theorem exists_opens {line : Nat} {t : Token} (ht : t ≠ .newline) (rest : List Token) :
    ∃ l after, Opens ⟨line, t :: rest⟩ l after := by
  have hsplit : t :: rest =
      (t :: rest.takeWhile (· != .newline)) ++ rest.dropWhile (· != .newline) := by
    simp [List.takeWhile_append_dropWhile]
  have hline : .newline ∉ t :: rest.takeWhile (· != .newline) := by
    intro hmem
    rcases List.mem_cons.mp hmem with h | h
    · exact ht h.symm
    · simpa using List.mem_takeWhile_imp h
  cases hafter : rest.dropWhile (· != .newline) with
  | nil =>
    rw [hafter] at hsplit
    exact ⟨⟨line, _, .input⟩, [], by rw [← hsplit], List.cons_ne_nil _ _, hline, .input rfl⟩
  | cons u after =>
    have hu : u = .newline := by
      have hhead := List.head?_dropWhile_not (· != Token.newline) rest
      rw [hafter] at hhead
      simpa using hhead
    subst hu
    rw [hafter] at hsplit
    exact ⟨⟨line, _, .newline⟩, .newline :: after, by rw [← hsplit], List.cons_ne_nil _ _, hline,
      .newline after rfl⟩

/-- Where reading comes to after blank lines: at the end, or at the beginning of a line. -/
structure Settled (c c' : Cursor) : Prop where
  lines : c'.lines = c.lines
  last : c'.last = c.last
  length : c'.rest.length ≤ c.rest.length
  opens : c'.rest = [] ∨ ∃ l after, c'.Opens l after

end Cursor

namespace Reader

theorem exists_skipNewlines (steps : Nat) {c : Cursor} (hsteps : c.rest.length ≤ steps) :
    ∃ c', (skipNewlines steps).run c = .ok () c' ∧ c.Settled c' := by
  induction steps generalizing c with
  | zero =>
    exact ⟨c, rfl, rfl, rfl, le_rfl, .inl (List.length_eq_zero_iff.mp (Nat.le_zero.mp hsteps))⟩
  | succ steps ih =>
    obtain ⟨line, rest⟩ := c
    cases rest with
    | nil => exact ⟨_, rfl, rfl, rfl, le_rfl, .inl rfl⟩
    | cons t rest =>
      by_cases ht : t = .newline
      · subst ht
        rw [List.length_cons] at hsteps
        obtain ⟨c', hrun, hsettled⟩ := ih (c := ⟨line + 1, rest⟩) (by dsimp only; omega)
        refine ⟨c', hrun, ?_, ?_, ?_, hsettled.opens⟩
        · rw [hsettled.lines, Cursor.lines_newline]
        · rw [hsettled.last, Cursor.last_newline]
        · exact hsettled.length.trans (by simp)
      · refine ⟨⟨line, t :: rest⟩, ?_, rfl, rfl, le_rfl, .inr (Cursor.exists_opens ht rest)⟩
        simp [skipNewlines, ht]

theorem exists_skipBlank (c : Cursor) : ∃ c', skipBlank.run c = .ok () c' ∧ c.Settled c' :=
  exists_skipNewlines c.rest.length le_rfl

/-- The reader ends as told. -/
inductive Gives {α : Type} :
    EStateM.Result CompileError Cursor α → Except CompileError α → Prop where
  | ok (a : α) (c : Cursor) : Gives (.ok a c) (.ok a)
  | error (err : CompileError) (c : Cursor) : Gives (.error err c) (.error err)

theorem Matches.gives_bind {α β γ : Type} {l : Line} {after : List Token} {m : Reader α}
    {c : Cursor} {r : Except Parse.Fault γ} {e : γ → α}
    (h : Matches l after (m.run c) (r.map fun x => (e x, []))) {f : α → Reader β}
    {g : γ → Except CompileError β} (hf : ∀ x, Gives ((f (e x)).run ⟨l.number, after⟩) (g x)) :
    Gives ((m >>= f).run c) (r.mapError (·.at l) >>= g) := by
  rw [EStateM.run_bind]
  generalize m.run c = result at h
  cases r with
  | error fault =>
    cases h with
    | error fault c => exact .error _ c
  | ok x =>
    cases h with
    | ok a rest => exact hf x

theorem gives_fail {α : Type} (cause : Malformation) (c : Cursor) :
    Gives ((fail cause : Reader α).run c) (.error (.malformed c.line cause)) :=
  .error _ c

end Reader

theorem Line.exists_of_isBinding {l : Line} (h : l.isBinding = true) :
    ∃ name ts, l.tokens = .identifier name :: .equals :: ts := by
  unfold isBinding at h
  split at h
  · exact ⟨_, _, ‹_›⟩
  · cases h

namespace Parse

theorem body_of_binding (last : Nat) {l : Line} {name : String} {ts : List Token}
    (h : l.tokens = .identifier name :: .equals :: ts) (rest : List Line) :
    body last (l :: rest) = (wholeCall ts).mapError (·.at l) >>= fun call =>
      (body last rest).map fun read => (⟨name, call, l.number⟩ :: read.1, read.2) := by
  rw [body, h]
  apply bind_congr
  intro call
  cases body last rest <;> rfl

def closing (l : Line) (rest : List Line) (outputs : List Port) :
    Except CompileError (List Port × Nat) :=
  match rest with
  | [] => .ok (outputs, l.number)
  | next :: _ => .error (.malformed next.number .trailingContent)

theorem body_of_ports (last : Nat) {l : Line} (h : l.isBinding = false) (rest : List Line) :
    body last (l :: rest) =
      ((ports l.tokens).mapError (·.at l) >>= closing l rest).map fun output => ([], output) := by
  rw [body, Outcome.bind_then_map]
  split
  · rename_i hl
    simp [Line.isBinding, hl] at h
  · apply bind_congr
    intro outputs
    cases rest <;> rfl

end Parse

namespace Reader

variable {β : Type}

theorem gives_outputLine {c : Cursor} {l : Line} {after : List Token} (h : c.Opens l after) :
    Gives (outputLine.run c) ((Parse.ports l.tokens).mapError (·.at l) >>=
      Parse.closing l (Cursor.lines ⟨l.number, after⟩)) := by
  obtain ⟨c', hskip, hsettled⟩ := exists_skipBlank ⟨l.number, after⟩
  have hrun : outputLine.run c = (portLine >>= fun outputs => do
      skipBlank
      let c' ← get
      if c'.atEnd then return (outputs, c.line) else fail .trailingContent).run c := rfl
  rw [hrun, h.eq]
  apply (matches_portLine h.follows h.newline).gives_bind
  intro outputs
  rw [EStateM.run_bind, hskip, ← hsettled.lines]
  dsimp only
  rw [EStateM.run_bind, EStateM.run_get]
  dsimp only
  rcases hsettled.opens with hend | ⟨next, after', hopens⟩
  · rw [Cursor.atEnd, hend, Cursor.lines_of_rest hend]
    exact .ok _ c'
  · rw [hopens.atEnd, hopens.lines, hopens.eq]
    exact gives_fail .trailingContent _

theorem Gives.map {α : Type} {m : Reader α} {c : Cursor} {r : Except CompileError α}
    (h : Gives (m.run c) r) (f : α → β) : Gives ((do return f (← m)).run c) (r.map f) := by
  rw [EStateM.run_bind]
  generalize m.run c = result at h
  cases h with
  | ok a c => exact .ok (f a) c
  | error err c => exact .error err c

theorem bindingsOf_run (steps : Nat) {c c' : Cursor} (hskip : skipBlank.run c = .ok () c') :
    (bindingsOf (steps + 1)).run c =
      (if c'.atEnd then fail .noOutputLine
        else if c'.atBinding then do
          let first ← binding
          return first :: (← bindingsOf steps)
        else pure []).run c' := by
  rw [bindingsOf, EStateM.run_bind, hskip]
  rfl

theorem bindingsOf_run_binding (steps : Nat) {c c' : Cursor} (hskip : skipBlank.run c = .ok () c')
    (hend : c'.atEnd = false) (hbinding : c'.atBinding = true) (k : List Binding → Reader β) :
    (bindingsOf (steps + 1) >>= k).run c =
      (binding >>= fun first => bindingsOf steps >>= fun rest => k (first :: rest)).run c' := by
  have hrun : (bindingsOf (steps + 1)).run c =
      (binding >>= fun first => bindingsOf steps >>= fun rest => pure (first :: rest)).run c' := by
    rw [bindingsOf_run steps hskip, hend, hbinding]
    rfl
  rw [EStateM.run_bind, hrun, ← EStateM.run_bind]
  simp only [bind_assoc, pure_bind]

theorem gives_body {steps : Nat} {c : Cursor} (hsteps : c.rest.length < steps)
    (f : List Binding → List Port × Nat → β) :
    Gives ((do
        let bindings ← bindingsOf steps
        let output ← outputLine
        return f bindings output).run c)
      ((Parse.body c.last c.lines).map fun read => f read.1 read.2) := by
  induction steps generalizing c f with
  | zero => omega
  | succ steps ih =>
    obtain ⟨c', hskip, hsettled⟩ := exists_skipBlank c
    rw [← hsettled.lines, ← hsettled.last]
    rcases hsettled.opens with hend | ⟨l, after, hopens⟩
    · rw [EStateM.run_bind, bindingsOf_run steps hskip, Cursor.atEnd, hend,
        Cursor.lines_of_rest hend, Cursor.last_of_rest hend]
      exact gives_fail .noOutputLine c'
    · have hatEnd := hopens.atEnd
      have hatBinding := hopens.atBinding
      rw [hopens.lines]
      cases hl : l.isBinding with
      | false =>
        rw [EStateM.run_bind, bindingsOf_run steps hskip, hatEnd, hatBinding, hl,
          Parse.body_of_ports c'.last hl]
        have houtput := (gives_outputLine hopens).map (f [])
        generalize ((Parse.ports l.tokens).mapError (·.at l) >>=
          Parse.closing l (Cursor.lines ⟨l.number, after⟩)) = r at houtput
        cases r <;> exact houtput
      | true =>
        obtain ⟨name, ts, hts⟩ := Line.exists_of_isBinding hl
        rw [bindingsOf_run_binding steps hskip hatEnd (hatBinding.trans hl),
          Parse.body_of_binding c'.last hts, hopens.last, Outcome.bind_then_map]
        have hfree : .newline ∉ ts := fun h => hopens.newline (by simp [hts, h])
        have hlength : after.length < steps := by
          have hle := hsettled.length
          rw [hopens.eq, hts] at hle
          simp only [List.cons_append, List.length_cons, List.length_append] at hle
          omega
        have hbinding := matches_binding hopens.follows name hfree
        rw [hopens.eq, hts]
        apply hbinding.gives_bind
        intro call
        have hbody := ih (c := ⟨l.number, after⟩) hlength fun bindings =>
          f (⟨name, call, l.number⟩ :: bindings)
        generalize Parse.body (Cursor.last ⟨l.number, after⟩) (Cursor.lines ⟨l.number, after⟩) = r
          at hbody
        cases r <;> exact hbody

theorem gives_program (ts : List Token) :
    Gives (program.run (.start ts)) (Parse.tokens ts) := by
  have htokens : Parse.tokens ts =
      Parse.program (Cursor.start ts).last (Cursor.start ts).lines := by
    rw [Parse.tokens, Cursor.last, Nat.add_comm]
    rfl
  obtain ⟨c, hskip, hsettled⟩ := exists_skipBlank (.start ts)
  rw [htokens, ← hsettled.lines, ← hsettled.last, program, EStateM.run_bind, hskip]
  dsimp only
  rw [EStateM.run_bind, EStateM.run_get]
  dsimp only
  rcases hsettled.opens with hend | ⟨l, after, hopens⟩
  · rw [Cursor.atEnd, hend, Cursor.lines_of_rest hend, Cursor.last_of_rest hend]
    exact gives_fail .emptyProgram c
  · rw [hopens.atEnd, hopens.atBinding, hopens.lines, Parse.program, hopens.last]
    cases hl : l.isBinding with
    | true =>
      rw [hopens.eq]
      exact gives_fail .bindingFirst _
    | false =>
      simp only [Bool.false_eq_true, if_false]
      rw [hopens.eq]
      apply (matches_portLine hopens.follows hopens.newline).gives_bind
      intro inputs
      have hsteps : after.length < (l.tokens ++ after).length + 1 := by simp
      have hbody := gives_body (c := ⟨l.number, after⟩) hsteps fun bindings output =>
        (⟨inputs, bindings, output.1, output.2⟩ : Program)
      generalize Parse.body (Cursor.last ⟨l.number, after⟩) (Cursor.lines ⟨l.number, after⟩) = r
        at hbody
      cases r <;> exact hbody

/-- The reader goes on token by token. An error is one of form and has the line where the reader
stops. -/
structure Tracks {α : Type} (m : Reader α) : Prop where
  moves : ∀ {c c' : Cursor} {a : α}, m.run c = .ok a c' → ∃ k, c' = Cursor.advance^[k] c
  stops : ∀ {c c' : Cursor} {err : CompileError}, m.run c = .error err c' →
    (∃ k, c' = Cursor.advance^[k] c) ∧ ∃ cause, err = .malformed c'.line cause

theorem tracks_pure {α : Type} (a : α) : Tracks (pure a : Reader α) where
  moves h := by
    cases h
    exact ⟨0, rfl⟩
  stops h := by cases h

theorem tracks_advance : Tracks advance where
  moves h := by
    cases h
    exact ⟨1, rfl⟩
  stops h := by cases h

theorem tracks_fail {α : Type} (cause : Malformation) : Tracks (fail cause : Reader α) where
  moves h := by cases h
  stops h := by
    cases h
    exact ⟨⟨0, rfl⟩, cause, rfl⟩

theorem tracks_get {α : Type} {f : Cursor → Reader α} (hf : ∀ c, Tracks (f c)) :
    Tracks (get >>= f) where
  moves h := (hf _).moves h
  stops h := (hf _).stops h

theorem Tracks.bind {α β : Type} {m : Reader α} {f : α → Reader β} (hm : Tracks m)
    (hf : ∀ a, Tracks (f a)) : Tracks (m >>= f) where
  moves {c c' b} h := by
    rw [EStateM.run_bind] at h
    cases hrun : m.run c with
    | error err c₁ => simp [hrun] at h
    | ok a c₁ =>
      rw [hrun] at h
      obtain ⟨k, rfl⟩ := hm.moves hrun
      obtain ⟨j, rfl⟩ := (hf a).moves h
      exact ⟨j + k, (Function.iterate_add_apply _ j k c).symm⟩
  stops {c c' err} h := by
    rw [EStateM.run_bind] at h
    cases hrun : m.run c with
    | error err₁ c₁ =>
      rw [hrun] at h
      cases h
      exact hm.stops hrun
    | ok a c₁ =>
      rw [hrun] at h
      obtain ⟨k, rfl⟩ := hm.moves hrun
      obtain ⟨⟨j, rfl⟩, hcause⟩ := (hf a).stops h
      exact ⟨⟨j + k, (Function.iterate_add_apply _ j k c).symm⟩, hcause⟩

theorem Tracks.map {α β : Type} {m : Reader α} (hm : Tracks m) (f : α → β) :
    Tracks (do return f (← m)) :=
  hm.bind fun a => tracks_pure (f a)

theorem Tracks.ite {α : Type} {p : Prop} [Decidable p] {m m' : Reader α} (hm : Tracks m)
    (hm' : Tracks m') : Tracks (if p then m else m') := by
  split
  · exact hm
  · exact hm'

theorem tracks_unexpected {α : Type} (expected : Expected) :
    Tracks (unexpected expected : Reader α) :=
  tracks_get fun _ => tracks_fail _

theorem tracks_expect (token : Token) (expected : Expected) : Tracks (expect token expected) :=
  tracks_get fun _ => tracks_advance.ite (tracks_unexpected expected)

theorem tracks_identifier : Tracks identifier := by
  apply tracks_get
  intro c
  split
  · exact tracks_advance.bind fun _ => tracks_pure _
  · exact tracks_unexpected .identifier

theorem tracks_skipNewlines (steps : Nat) : Tracks (skipNewlines steps) := by
  induction steps with
  | zero => exact tracks_pure ()
  | succ steps ih =>
    exact tracks_get fun c => (tracks_advance.bind fun _ => ih).ite (tracks_pure ())

theorem tracks_skipBlank : Tracks skipBlank := tracks_get fun c => tracks_skipNewlines c.rest.length

theorem tracks_port : Tracks port := by
  apply tracks_get
  intro c
  split
  · apply tracks_advance.bind
    intro _
    apply (tracks_expect .colon .colon).bind
    intro _
    exact (tracks_fail .zeroWidth).ite (tracks_identifier.map _)
  · exact tracks_identifier.map _

theorem tracks_portsOf (steps : Nat) : Tracks (portsOf steps) := by
  induction steps with
  | zero => exact tracks_pure []
  | succ steps ih =>
    exact tracks_get fun c => (tracks_pure []).ite (tracks_port.bind fun first => ih.map _)

theorem tracks_portLine : Tracks portLine := tracks_get fun c => tracks_portsOf (c.rest.length + 1)

theorem tracks_args (steps : Nat) : Tracks (args steps) := by
  induction steps with
  | zero => exact tracks_pure []
  | succ steps ih =>
    apply tracks_get
    intro c
    split
    · exact tracks_advance.bind fun _ => ih.map _
    · apply tracks_advance.bind
      intro _
      apply tracks_identifier.bind
      intro callee
      apply ih.bind
      intro inner
      exact (tracks_expect .rightParen .rightParen).bind fun _ => ih.map _
    · exact tracks_pure []

theorem tracks_call : Tracks call :=
  tracks_identifier.bind fun _ => tracks_get fun c => (tracks_args (c.rest.length + 1)).map _

theorem tracks_binding : Tracks binding := by
  apply tracks_get
  intro c
  apply tracks_identifier.bind
  intro name
  apply tracks_advance.bind
  intro _
  apply tracks_call.bind
  intro call
  exact tracks_get fun after => (tracks_pure _).ite (tracks_unexpected .lineEnd)

theorem tracks_bindingsOf (steps : Nat) : Tracks (bindingsOf steps) := by
  induction steps with
  | zero => exact tracks_pure []
  | succ steps ih =>
    apply tracks_skipBlank.bind
    intro _
    apply tracks_get
    intro c
    apply (tracks_fail .noOutputLine).ite
    exact (tracks_binding.bind fun first => ih.map _).ite (tracks_pure [])

theorem tracks_outputLine : Tracks outputLine := by
  apply tracks_get
  intro c
  apply tracks_portLine.bind
  intro outputs
  apply tracks_skipBlank.bind
  intro _
  exact tracks_get fun after => (tracks_pure _).ite (tracks_fail .trailingContent)

theorem tracks_program : Tracks program := by
  apply tracks_skipBlank.bind
  intro _
  apply tracks_get
  intro c
  apply (tracks_fail .emptyProgram).ite
  apply (tracks_fail .bindingFirst).ite
  apply tracks_portLine.bind
  intro inputs
  apply (tracks_bindingsOf (c.rest.length + 1)).bind
  intro bindings
  exact tracks_outputLine.map _

end Reader

namespace Cursor

theorem exists_iterate_le (k : Nat) (c : Cursor) :
    ∃ j ≤ c.rest.length, advance^[k] c = advance^[j] c := by
  induction k generalizing c with
  | zero => exact ⟨0, Nat.zero_le _, rfl⟩
  | succ k ih =>
    obtain ⟨line, rest⟩ := c
    cases rest with
    | nil => exact ih ⟨line, []⟩
    | cons t rest =>
      obtain ⟨j, hj, hiterate⟩ := ih (advance ⟨line, t :: rest⟩)
      exact ⟨j + 1, Nat.succ_le_succ hj, hiterate⟩

/-- Reading with a cursor comes to what the lines come to. It stops after some of the tokens, and an
error has the line where it stops. -/
theorem read_spec (ts : List Token) :
    (read ts).1 = Parse.tokens ts ∧
      (∃ k ≤ ts.length, (read ts).2 = advance^[k] (start ts)) ∧
      ∀ err, (read ts).1 = .error err → ∃ cause, err = .malformed (read ts).2.line cause := by
  have hgives := Reader.gives_program ts
  unfold read
  cases hrun : Reader.program.run (start ts) with
  | ok p c =>
    obtain ⟨k, rfl⟩ := Reader.tracks_program.moves hrun
    rw [hrun] at hgives
    generalize Parse.tokens ts = r at hgives
    cases hgives with
    | ok => exact ⟨rfl, exists_iterate_le k (start ts), by simp⟩
  | error err c =>
    obtain ⟨⟨k, rfl⟩, cause, rfl⟩ := Reader.tracks_program.stops hrun
    rw [hrun] at hgives
    generalize Parse.tokens ts = r at hgives
    cases hgives with
    | error => exact ⟨rfl, exists_iterate_le k (start ts), by simp⟩

end Cursor

/-- A text is read as a program just when all of it can be cut into tokens and these spell the
program: first the input ports, last the output ports, and in between one binding a line. Reading
with a cursor goes by the same rules. The tokens of a program spell no other. -/
theorem Program.parse_accepts_grammar :
    (∀ (source : String) (p : Program), Program.parse source = .ok p ↔
      ∃ lexemes, Token.scan source.toList = .ok lexemes ∧
        Grammar.IsProgram (lexemes.map (·.token)) p) ∧
    (∀ (source : String) (lexemes : List Lexeme), Token.scan source.toList = .ok lexemes →
      Program.parse source = (Cursor.read (lexemes.map (·.token))).1) ∧
    (∀ (ts : List Token) (p : Program), (Cursor.read ts).1 = .ok p ↔ Grammar.IsProgram ts p) ∧
    ∀ (ts : List Token) (p q : Program), Grammar.IsProgram ts p → Grammar.IsProgram ts q →
      p = q := by
  refine ⟨fun source p => ?_, fun source lexemes hscan => ?_, fun ts p => ?_, ?_⟩
  · unfold Program.parse
    cases hscan : Token.scan source.toList with
    | error invalid => simp
    | ok lexemes => simp [Grammar.tokens_eq_ok_iff]
  · rw [(Cursor.read_spec _).1, Program.parse, hscan]
  · rw [(Cursor.read_spec ts).1, Grammar.tokens_eq_ok_iff]
  · intro ts p q hp hq
    rw [← Grammar.tokens_eq_ok_iff] at hp hq
    exact Except.ok.inj (hp.symm.trans hq)

/-- Blank lines and comments between the lines, and calls inside calls. -/
theorem Program.nested_parse_accepts_grammar :
    ∃ lexemes p,
      Token.scan "2:a b\n\n// half\nx = and (hi (cat b (lo a))) b\n\n1:x\n".toList = .ok lexemes ∧
      Grammar.IsProgram (lexemes.map (·.token)) p ∧ p.bindings.map (·.line) = [4] ∧
      (Cursor.read (lexemes.map (·.token))).1 = .ok p ∧
      ∀ q, Grammar.IsProgram (lexemes.map (·.token)) q → q = p := by
  have hfacts : (Program.parse "2:a b\n\n// half\nx = and (hi (cat b (lo a))) b\n\n1:x\n").map
      (fun p => p.bindings.map (·.line)) = .ok [4] := by cbv
  obtain ⟨p, hp, hlines⟩ := Outcome.map_eq_ok.mp hfacts
  obtain ⟨hiff, _, hread, hunique⟩ := Program.parse_accepts_grammar
  obtain ⟨lexemes, hscan, hprogram⟩ := (hiff _ p).mp hp
  exact ⟨lexemes, p, hscan, hprogram, hlines, (hread _ p).mpr hprogram,
    fun q hq => hunique _ q p hq hprogram⟩

end WireLogic
