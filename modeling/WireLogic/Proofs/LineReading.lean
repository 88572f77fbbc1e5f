import WireLogic.Program.Cursor
import WireLogic.Proofs.Grammar

/-!
# Reading one line with a cursor

A cursor that stands on a line sees its tokens and then all that comes after the line. The readers
of ports, calls and bindings do not look past the end of the line, so they do what the functions on
the tokens of the line alone do, down to the fault. A reader of arguments calls itself for a nested
call, while those functions keep the calls under way on a stack; the two agree on every stack.
-/

namespace WireLogic

set_option autoImplicit false

namespace Reader

/-- The tokens come right after the line, whose end tells whether there are any. -/
inductive Follows (l : Line) : List Token → Prop where
  | input : l.ended = .input → Follows l []
  | newline (after : List Token) : l.ended = .newline → Follows l (.newline :: after)

abbrev complaint (l : Line) (expected : Expected) (ts : List Token) : CompileError :=
  (Parse.Fault.unexpected expected ts.head?).at l

section OnLine

variable {l : Line} {ts after : List Token} (hafter : Follows l after) (hts : .newline ∉ ts)

include hafter

theorem atLineEnd_of_follows : Cursor.atLineEnd ⟨l.number, after⟩ = true := by
  cases hafter with
  | input => rfl
  | newline after => rfl

theorem exists_cons_of_head? {t : Token} (ht : t ≠ .newline) (h : (ts ++ after).head? = some t) :
    ∃ rest, ts = t :: rest := by
  cases ts with
  | cons u ts =>
    obtain rfl := Option.some.inj h
    exact ⟨ts, rfl⟩
  | nil =>
    cases hafter with
    | input => cases h
    | newline after => exact absurd (Option.some.inj h).symm ht

include hts

theorem atLineEnd_iff : Cursor.atLineEnd ⟨l.number, ts ++ after⟩ = true ↔ ts = [] := by
  cases ts with
  | nil => exact iff_of_true (atLineEnd_of_follows hafter) rfl
  | cons t ts =>
    have ht : t ≠ .newline := fun h => hts (by simp [h])
    simp [Cursor.atLineEnd, Cursor.atEnd, ht]

theorem found?_eq : Cursor.found? ⟨l.number, ts ++ after⟩ = ts.head? := by
  cases ts with
  | nil => exact if_pos (atLineEnd_of_follows hafter)
  | cons t ts =>
    rw [Cursor.found?, if_neg fun h => List.cons_ne_nil t ts ((atLineEnd_iff hafter hts).mp h)]
    rfl

theorem lineEnd_eq : Cursor.lineEnd ⟨l.number, ts ++ after⟩ = l.ended := by
  cases hafter with
  | input h => simp [Cursor.lineEnd, hts, h]
  | newline after h => simp [Cursor.lineEnd, h]

theorem unexpected_run {α : Type} (expected : Expected) :
    (unexpected expected : Reader α).run ⟨l.number, ts ++ after⟩ =
      .error (complaint l expected ts) ⟨l.number, ts ++ after⟩ := by
  rw [complaint, Parse.Fault.at, ← found?_eq hafter hts, ← lineEnd_eq hafter hts]
  rfl

theorem identifier_run_error (hname : ∀ name rest, ts ≠ .identifier name :: rest) :
    identifier.run ⟨l.number, ts ++ after⟩ =
      .error (complaint l .identifier ts) ⟨l.number, ts ++ after⟩ := by
  have hnone : ∀ name, (ts ++ after).head? ≠ some (.identifier name) := by
    intro name h
    obtain ⟨rest, hrest⟩ := exists_cons_of_head? hafter (by simp) h
    exact hname name rest hrest
  rw [← unexpected_run hafter hts]
  simp only [identifier, EStateM.run_bind, EStateM.run_get]

theorem expect_run_error {token : Token} (htoken : token ≠ .newline)
    (hnext : ∀ rest, ts ≠ token :: rest) (expected : Expected) :
    (expect token expected).run ⟨l.number, ts ++ after⟩ =
      .error (complaint l expected ts) ⟨l.number, ts ++ after⟩ := by
  have hnot : ¬(ts ++ after).head? = some token := by
    intro h
    obtain ⟨rest, hrest⟩ := exists_cons_of_head? hafter htoken h
    exact hnext rest hrest
  rw [← unexpected_run hafter hts]
  simp only [expect, EStateM.run_bind, EStateM.run_get, hnot, if_false]

end OnLine

/-- On the line the reader ends as told: it has read up to the tokens that are left, or it has
failed with the fault. -/
inductive Matches {α : Type} (l : Line) (after : List Token) :
    EStateM.Result CompileError Cursor α → Except Parse.Fault (α × List Token) → Prop where
  | ok (a : α) (rest : List Token) :
      Matches l after (.ok a ⟨l.number, rest ++ after⟩) (.ok (a, rest))
  | error (fault : Parse.Fault) (c : Cursor) :
      Matches l after (.error (fault.at l) c) (.error fault)

section Matching

variable {l : Line} {after : List Token} {α β : Type}

theorem Matches.map {m : Reader α} {c : Cursor} {r : Except Parse.Fault (α × List Token)}
    (h : Matches l after (m.run c) r) (f : α → β) :
    Matches l after ((do return f (← m)).run c) (r.map fun read => (f read.1, read.2)) := by
  rw [EStateM.run_bind]
  generalize m.run c = result at h
  cases h with
  | ok a rest => exact .ok (f a) rest
  | error fault c => exact .error fault c

theorem Matches.map_all {m : Reader α} {c : Cursor} {r : Except Parse.Fault α}
    (h : Matches l after (m.run c) (r.map fun a => (a, []))) (f : α → β) :
    Matches l after ((do return f (← m)).run c) ((r.map f).map fun b => (b, [])) := by
  cases r with
  | error fault => exact h.map f
  | ok a => exact h.map f

theorem matches_unexpected (hafter : Follows l after) {ts : List Token} (hts : .newline ∉ ts)
    (expected : Expected) :
    Matches l after ((unexpected expected : Reader α).run ⟨l.number, ts ++ after⟩)
      (.error (.unexpected expected ts.head?)) := by
  rw [unexpected_run hafter hts]
  exact .error _ _

end Matching

theorem port_run_name {t : Token} (ht : ∀ width, t ≠ .integer width) (line : Nat)
    (rest : List Token) :
    port.run ⟨line, t :: rest⟩ =
      (do return (⟨← identifier, none⟩ : Port)).run ⟨line, t :: rest⟩ := by
  cases t with
  | integer width => exact absurd rfl (ht width)
  | _ => rfl

theorem port_run_wide {width : Nat} (hwidth : width ≠ 0) (line : Nat) (rest : List Token) :
    port.run ⟨line, .integer width :: .colon :: rest⟩ =
      (do return (⟨← identifier, some width⟩ : Port)).run ⟨line, rest⟩ := by
  have hport : port.run ⟨line, .integer width :: .colon :: rest⟩ =
      (if width = 0 then fail .zeroWidth
        else do return (⟨← identifier, some width⟩ : Port)).run ⟨line, rest⟩ := rfl
  rw [hport, if_neg hwidth]

theorem portsOf_run {t : Token} (ht : t ≠ .newline) (line : Nat) (ts : List Token) {steps : Nat}
    (hsteps : 0 < steps) :
    (portsOf steps).run ⟨line, t :: ts⟩ =
      (do
        let first ← port
        return first :: (← portsOf (steps - 1))).run ⟨line, t :: ts⟩ := by
  obtain ⟨steps, rfl⟩ := Nat.exists_eq_add_one.mpr hsteps
  have hnot : Cursor.atLineEnd ⟨line, t :: ts⟩ = false := by
    simp [Cursor.atLineEnd, Cursor.atEnd, ht]
  simp only [portsOf, EStateM.run_bind, EStateM.run_get, hnot, Bool.false_eq_true, if_false,
    Nat.add_sub_cancel]

theorem portsOf_run_ok {t : Token} (ht : t ≠ .newline) {line : Nat} {ts : List Token} {port' : Port}
    {c : Cursor} (hport : port.run ⟨line, t :: ts⟩ = .ok port' c) {steps : Nat}
    (hsteps : 0 < steps) :
    (portsOf steps).run ⟨line, t :: ts⟩ =
      (do return port' :: (← portsOf (steps - 1))).run c := by
  rw [portsOf_run ht line ts hsteps, EStateM.run_bind, hport]

theorem portsOf_run_error {t : Token} (ht : t ≠ .newline) {line : Nat} {ts : List Token}
    {err : CompileError} {c : Cursor} (hport : port.run ⟨line, t :: ts⟩ = .error err c)
    {steps : Nat} (hsteps : 0 < steps) :
    (portsOf steps).run ⟨line, t :: ts⟩ = .error err c := by
  rw [portsOf_run ht line ts hsteps, EStateM.run_bind, hport]

theorem matches_portsOf {l : Line} {after : List Token} (hafter : Follows l after)
    {ts : List Token} (hts : .newline ∉ ts) {steps : Nat} (hsteps : ts.length < steps) :
    Matches l after ((portsOf steps).run ⟨l.number, ts ++ after⟩)
      ((Parse.ports ts).map fun ports => (ports, [])) := by
  have hpos : 0 < steps := Nat.zero_lt_of_lt hsteps
  fun_induction Parse.ports ts generalizing steps with
  | case1 =>
    obtain ⟨steps, rfl⟩ := Nat.exists_eq_add_one.mpr hpos
    simp only [portsOf, EStateM.run_bind, EStateM.run_get, List.nil_append,
      atLineEnd_of_follows hafter, if_true]
    exact .ok [] []
  | case2 name rest ih =>
    simp only [List.mem_cons, not_or, List.length_cons] at hts hsteps
    rw [List.cons_append, portsOf_run_ok (by simp) (port_run_name (by simp) _ _) hpos]
    exact (ih hts.2 (by omega) (by omega)).map_all _
  | case3 rest =>
    rw [List.cons_append, List.cons_append, portsOf_run_error (by simp) rfl hpos]
    exact .error .zeroWidth _
  | case4 width name rest hwidth ih =>
    simp only [List.mem_cons, not_or, List.length_cons] at hts hsteps
    rw [List.cons_append, List.cons_append, List.cons_append,
      portsOf_run_ok (by simp) (port_run_wide hwidth _ _) hpos]
    exact (ih hts.2.2.2 (by omega) (by omega)).map_all _
  | case5 width rest hwidth hname =>
    simp only [List.mem_cons, not_or] at hts
    have hport : port.run ⟨l.number, .integer width :: .colon :: (rest ++ after)⟩ =
        .error (complaint l .identifier rest) ⟨l.number, rest ++ after⟩ := by
      rw [port_run_wide hwidth, EStateM.run_bind, identifier_run_error hafter hts.2.2 hname]
    rw [List.cons_append, List.cons_append, portsOf_run_error (by simp) hport hpos]
    exact .error _ _
  | case6 width rest _ _ hcolon =>
    simp only [List.mem_cons, not_or] at hts
    have hport : port.run ⟨l.number, .integer width :: (rest ++ after)⟩ =
        .error (complaint l .colon rest) ⟨l.number, rest ++ after⟩ := by
      simp [port, advance, Cursor.advance,
        expect_run_error hafter hts.2 (by simp) hcolon .colon]
    rw [List.cons_append, portsOf_run_error (by simp) hport hpos]
    exact .error _ _
  | case7 t rest hname _ _ _ hinteger =>
    have ht : t ≠ .newline := fun h => hts (by simp [h])
    have herror : identifier.run ⟨l.number, t :: (rest ++ after)⟩ =
        .error (complaint l .identifier (t :: rest)) ⟨l.number, t :: (rest ++ after)⟩ :=
      identifier_run_error hafter hts (by grind)
    have hport : port.run ⟨l.number, t :: (rest ++ after)⟩ =
        .error (complaint l .identifier (t :: rest)) ⟨l.number, t :: (rest ++ after)⟩ := by
      rw [port_run_name hinteger, EStateM.run_bind, herror]
    rw [List.cons_append, portsOf_run_error ht hport hpos]
    exact .error _ _

/-- No argument begins here. -/
structure NoArg (ts : List Token) : Prop where
  name : ∀ name rest, ts ≠ .identifier name :: rest
  nested : ∀ rest, ts ≠ .leftParen :: rest

theorem NoArg.args_nil {ts : List Token} (h : NoArg ts) (f : Parse.Frame) :
    Parse.args ts f [] = .ok (f.close, ts) := by
  rw [Parse.args]
  · exact h.name
  · exact fun callee rest => h.nested (.identifier callee :: rest)
  · exact h.nested

theorem NoArg.args_cons {ts : List Token} (h : NoArg ts) (hclose : ∀ rest, ts ≠ .rightParen :: rest)
    (f o : Parse.Frame) (outer : List Parse.Frame) :
    Parse.args ts f (o :: outer) = .error (.unexpected .rightParen ts.head?) := by
  rw [Parse.args]
  · exact h.name
  · exact fun callee rest => h.nested (.identifier callee :: rest)
  · exact h.nested
  · exact hclose

/-- The reader has taken arguments off the tokens, or found a fault in them, as is done whichever
calls are under way. -/
inductive Argues (l : Line) (after ts : List Token) :
    EStateM.Result CompileError Cursor (List Arg) → Prop where
  | ok (args : List Arg) (rest : List Token) : rest <:+ ts → NoArg rest →
      (∀ f outer, Parse.args ts f outer = Parse.args rest (Grammar.extend f args) outer) →
      Argues l after ts (.ok args ⟨l.number, rest ++ after⟩)
  | error (fault : Parse.Fault) (c : Cursor) : (∀ f outer, Parse.args ts f outer = .error fault) →
      Argues l after ts (.error (fault.at l) c)

section Calls

variable {l : Line} {after : List Token} (hafter : Follows l after)

theorem Argues.cons {ts us : List Token} {arg : Arg} {steps : Nat}
    (h : Argues l after us ((args steps).run ⟨l.number, us ++ after⟩)) (hsuffix : us <:+ ts)
    (harg : ∀ f outer, Parse.args ts f outer = Parse.args us (f.push arg) outer) :
    Argues l after ts ((do return arg :: (← args steps)).run ⟨l.number, us ++ after⟩) := by
  rw [EStateM.run_bind]
  generalize (args steps).run ⟨l.number, us ++ after⟩ = result at h
  cases h with
  | ok others rest hrest hstops hothers =>
    refine .ok (arg :: others) rest (hrest.trans hsuffix) hstops fun f outer => ?_
    rw [harg, hothers, Grammar.extend_push]
  | error fault c hfault => exact .error fault c fun f outer => by rw [harg, hfault]

include hafter

theorem argues_of_noArg {ts : List Token} (h : NoArg ts) {steps : Nat} (hsteps : 0 < steps) :
    Argues l after ts ((args steps).run ⟨l.number, ts ++ after⟩) := by
  obtain ⟨steps, rfl⟩ := Nat.exists_eq_add_one.mpr hsteps
  have hrun : (args (steps + 1)).run ⟨l.number, ts ++ after⟩ = .ok [] ⟨l.number, ts ++ after⟩ := by
    simp only [args, EStateM.run_bind, EStateM.run_get]
    split
    · rename_i name hhead
      obtain ⟨rest, hrest⟩ := exists_cons_of_head? hafter (by simp) hhead
      exact absurd hrest (h.name name rest)
    · rename_i hhead
      obtain ⟨rest, hrest⟩ := exists_cons_of_head? hafter (by simp) hhead
      exact absurd hrest (h.nested rest)
    · rfl
  rw [hrun]
  exact .ok [] ts List.suffix_rfl h fun f outer => rfl

theorem argues_nested {steps : Nat} {callee : String} {ts : List Token}
    (ih : ∀ {us : List Token}, us <:+ ts →
      Argues l after us ((args steps).run ⟨l.number, us ++ after⟩)) (hts : .newline ∉ ts) :
    Argues l after (.leftParen :: .identifier callee :: ts)
      ((args (steps + 1)).run ⟨l.number, .leftParen :: .identifier callee :: (ts ++ after)⟩) := by
  have hrun : (args (steps + 1)).run
      ⟨l.number, .leftParen :: .identifier callee :: (ts ++ after)⟩ =
        (do
          let inner ← args steps
          expect .rightParen .rightParen
          return Arg.call callee inner :: (← args steps)).run ⟨l.number, ts ++ after⟩ := rfl
  have hopen : ∀ f outer, Parse.args (.leftParen :: .identifier callee :: ts) f outer =
      Parse.args ts ⟨callee, []⟩ (f :: outer) := fun f outer => by rw [Parse.args]
  have hinside := ih List.suffix_rfl
  rw [hrun, EStateM.run_bind]
  generalize (args steps).run ⟨l.number, ts ++ after⟩ = result at hinside
  cases hinside with
  | error fault c hfault => exact .error fault c fun f outer => by rw [hopen, hfault]
  | ok inner rest hrest hstops hinner =>
    by_cases hclose : ∃ us, rest = .rightParen :: us
    · obtain ⟨us, rfl⟩ := hclose
      have hus : us <:+ ts := (List.suffix_cons _ us).trans hrest
      have hsuffix : us <:+ .leftParen :: .identifier callee :: ts :=
        (hus.trans (List.suffix_cons _ ts)).trans (List.suffix_cons _ _)
      refine (ih hus).cons hsuffix fun f outer => ?_
      rw [hopen, hinner, Parse.args]
      simp [Grammar.extend, Parse.Frame.closeNested]
    · have hfree : .newline ∉ rest := fun h => hts (hrest.subset h)
      have hclose : ∀ us, rest ≠ .rightParen :: us := fun us h => hclose ⟨us, h⟩
      dsimp only
      rw [EStateM.run_bind, expect_run_error hafter hfree (by simp) hclose]
      exact .error _ _ fun f outer => by rw [hopen, hinner, hstops.args_cons hclose]

theorem argues_unnamed (steps : Nat) {ts : List Token} (hts : .newline ∉ ts)
    (hname : ∀ callee rest, ts ≠ .identifier callee :: rest) :
    Argues l after (.leftParen :: ts)
      ((args (steps + 1)).run ⟨l.number, .leftParen :: (ts ++ after)⟩) := by
  have hrun : (args (steps + 1)).run ⟨l.number, .leftParen :: (ts ++ after)⟩ =
      (do
        let callee ← identifier
        let inner ← args steps
        expect .rightParen .rightParen
        return Arg.call callee inner :: (← args steps)).run ⟨l.number, ts ++ after⟩ := rfl
  rw [hrun, EStateM.run_bind, identifier_run_error hafter hts hname]
  refine .error _ _ fun f outer => ?_
  rw [Parse.args]
  exact hname

theorem argues_args {steps : Nat} {ts : List Token} (hts : .newline ∉ ts)
    (hsteps : ts.length < steps) :
    Argues l after ts ((args steps).run ⟨l.number, ts ++ after⟩) := by
  induction steps generalizing ts with
  | zero => omega
  | succ steps ih =>
    cases ts with
    | nil => exact argues_of_noArg hafter ⟨by simp, by simp⟩ (by omega)
    | cons t rest =>
      have hrest : ∀ {us : List Token}, us <:+ rest →
          Argues l after us ((args steps).run ⟨l.number, us ++ after⟩) := by
        intro us hus
        have hlength := hus.length_le
        rw [List.length_cons] at hsteps
        exact ih (fun h => hts (List.mem_cons_of_mem t (hus.subset h))) (by omega)
      have hfree : .newline ∉ rest := fun h => hts (List.mem_cons_of_mem t h)
      cases t with
      | identifier name =>
        refine (hrest List.suffix_rfl).cons (List.suffix_cons _ rest) fun f outer => ?_
        rw [Parse.args]
      | leftParen =>
        by_cases hname : ∃ callee us, rest = .identifier callee :: us
        · obtain ⟨callee, us, rfl⟩ := hname
          exact argues_nested hafter (fun h => hrest (h.trans (List.suffix_cons _ us)))
            fun h => hfree (List.mem_cons_of_mem _ h)
        · exact argues_unnamed hafter steps hfree fun callee us h => hname ⟨callee, us, h⟩
      | _ => exact argues_of_noArg hafter ⟨by simp, by simp⟩ (by omega)

theorem matches_call {ts : List Token} (hts : .newline ∉ ts) :
    Matches l after (call.run ⟨l.number, ts ++ after⟩) (Parse.call ts) := by
  by_cases hname : ∃ callee us, ts = .identifier callee :: us
  · obtain ⟨callee, us, rfl⟩ := hname
    have hrun : call.run ⟨l.number, .identifier callee :: (us ++ after)⟩ =
        (do return (⟨callee, ← args ((us ++ after).length + 1)⟩ : Call)).run
          ⟨l.number, us ++ after⟩ := rfl
    have hus : Argues l after us
        ((args ((us ++ after).length + 1)).run ⟨l.number, us ++ after⟩) :=
      argues_args hafter (fun h => hts (List.mem_cons_of_mem _ h)) (by simp)
    rw [List.cons_append, hrun, EStateM.run_bind]
    generalize (args ((us ++ after).length + 1)).run ⟨l.number, us ++ after⟩ = result at hus
    cases hus with
    | ok args rest hrest hstops hargs =>
      have hcall : Parse.call (.identifier callee :: us) = .ok (⟨callee, args⟩, rest) := by
        rw [Parse.call, hargs, hstops.args_nil]
        simp [Grammar.extend, Parse.Frame.close]
      rw [hcall]
      exact .ok _ rest
    | error fault c hfault =>
      rw [Parse.call, hfault]
      exact .error fault c
  · have hname : ∀ callee us, ts ≠ .identifier callee :: us := fun callee us h =>
      hname ⟨callee, us, h⟩
    have hcall : Parse.call ts = .error (.unexpected .identifier ts.head?) := by
      rw [Parse.call]
      exact hname
    rw [call, EStateM.run_bind, identifier_run_error hafter hts hname, hcall]
    exact .error _ _

omit hafter in
theorem suffix_of_call {ts rest : List Token} {call : Call}
    (h : Parse.call ts = .ok (call, rest)) : rest <:+ ts := by
  unfold Parse.call at h
  split at h
  · rename_i callee us
    obtain ⟨used, hused, _⟩ := Grammar.closes_of_args h
    exact ⟨.identifier callee :: used, congrArg (List.cons _) hused.symm⟩
  · cases h

theorem matches_binding (name : String) {ts : List Token} (hts : .newline ∉ ts) :
    Matches l after (binding.run ⟨l.number, .identifier name :: .equals :: (ts ++ after)⟩)
      ((Parse.wholeCall ts).map fun call => (⟨name, call, l.number⟩, [])) := by
  have hrun : binding.run ⟨l.number, .identifier name :: .equals :: (ts ++ after)⟩ =
      (do
        let call ← call
        let c ← get
        if c.atLineEnd then return (⟨name, call, l.number⟩ : Binding)
        else unexpected .lineEnd).run ⟨l.number, ts ++ after⟩ := rfl
  have hcall := matches_call hafter hts
  rw [hrun, EStateM.run_bind, Parse.wholeCall]
  generalize hparse : Parse.call ts = parsed at hcall
  generalize call.run ⟨l.number, ts ++ after⟩ = result at hcall
  cases hcall with
  | error fault c => exact .error fault c
  | ok call rest =>
    have hrest : .newline ∉ rest := fun h => hts ((suffix_of_call hparse).subset h)
    dsimp only
    rw [EStateM.run_bind, EStateM.run_get]
    dsimp only
    cases rest with
    | nil =>
      rw [if_pos ((atLineEnd_iff hafter hrest).mpr rfl)]
      exact .ok _ []
    | cons t rest =>
      rw [if_neg fun h => List.cons_ne_nil t rest ((atLineEnd_iff hafter hrest).mp h)]
      exact matches_unexpected hafter hrest .lineEnd

theorem matches_portLine {ts : List Token} (hts : .newline ∉ ts) :
    Matches l after (portLine.run ⟨l.number, ts ++ after⟩)
      ((Parse.ports ts).map fun ports => (ports, [])) :=
  matches_portsOf hafter hts (by simp)

end Calls

end Reader

end WireLogic
