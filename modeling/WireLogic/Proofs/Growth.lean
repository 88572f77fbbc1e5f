import WireLogic.Proofs.Diagnostics

/-!
# Compiling with a larger library

Running through a program reads the library only to look up what it calls, in the order of the text.
So a cell that is missed is one that the program calls and the library has not, and with more cells
in the library a program is compiled as before unless it then finds what it missed.
-/

namespace WireLogic

set_option autoImplicit false

open Outcome

namespace Library

instance : Preorder Library where
  le l l' := ∀ name cell, l.get? name = some cell → l'.get? name = some cell
  le_refl _ _ _ h := h
  le_trans _ _ _ h h' name cell hget := h' name cell (h name cell hget)

theorem lookup_place {name : String} (cell : Cell) {entries : List (String × Cell)}
    (h : entries.lookup name = none) (other : String) :
    (place name cell entries).lookup other =
      if other = name then some cell else entries.lookup other := by
  induction entries with
  | nil =>
    by_cases hother : other = name
    · simp [place, hother]
    · rw [place, List.lookup_cons, beq_false_of_ne hother, if_neg hother]
  | cons entry rest ih =>
    rw [List.lookup_cons] at h
    split at h
    · cases h
    · rename_i hne
      rw [place]
      split
      · by_cases hother : other = name
        · simp [hother]
        · rw [List.lookup_cons, beq_false_of_ne hother, if_neg hother]
      · rw [List.lookup_cons, List.lookup_cons, ih h]
        by_cases hother : other = name
        · subst hother
          rw [hne, if_pos rfl]
        · simp [hother]

theorem register_of_free {l : Library} {name : String} (h : l.get? name = none) (cell : Cell) :
    ∃ l', l.register name cell = .ok l' := by
  unfold register contains
  rw [h]
  exact ⟨_, rfl⟩

theorem register_eq_ok {l l' : Library} {name : String} {cell : Cell}
    (h : l.register name cell = .ok l') :
    l.get? name = none ∧
      ∀ other, l'.get? other = if other = name then some cell else l.get? other := by
  unfold register at h
  split at h
  · cases h
  · rename_i hfree
    have hnone : l.get? name = none := by simpa [contains] using hfree
    rw [← Except.ok.inj h]
    exact ⟨hnone, lookup_place cell hnone⟩

theorem le_of_register {l l' : Library} {name : String} {cell : Cell}
    (h : l.register name cell = .ok l') : l ≤ l' := by
  obtain ⟨hfree, hget⟩ := register_eq_ok h
  intro other found hfound
  rw [hget]
  split
  · rename_i heq
    rw [heq, hfree] at hfound
    cases hfound
  · exact hfound

end Library

mutual

def Arg.callees : Arg → List String
  | .name _ => []
  | .call callee args => callee :: Arg.calleesOf args

def Arg.calleesOf : List Arg → List String
  | [] => []
  | a :: rest => a.callees ++ Arg.calleesOf rest

end

def Binding.callees (b : Binding) : List String := b.call.callee :: Arg.calleesOf b.call.args

def Program.callees (p : Program) : List String := p.bindings.flatMap Binding.callees

/-- What an error misses is among the names, and the library does not have it. -/
def Library.Misses (l : Library) (names : List String) (err : CompileError) : Prop :=
  ∀ name, err.missing? = some name → name ∈ names ∧ l.get? name = none

/-- Of the names one is missed, or the library has them all. -/
abbrev Library.Consults {α : Type} (l : Library) (names : List String) :
    Except CompileError α → Prop :=
  Ends (l.Misses names) fun _ => ∀ name ∈ names, l.get? name ≠ none

namespace Library.Consults

variable {l : Library} {α β : Type}

theorem seq {names more : List String} {r : Except CompileError α}
    {f : α → Except CompileError β} (h : l.Consults names r)
    (hf : ∀ a, r = .ok a → l.Consults more (f a)) : l.Consults (names ++ more) (r >>= f) := by
  cases r with
  | error err =>
    intro name hname
    obtain ⟨hmem, hnone⟩ := h name hname
    exact ⟨List.mem_append_left more hmem, hnone⟩
  | ok a =>
    change l.Consults (names ++ more) (f a)
    have hmore := hf a rfl
    cases hfa : f a with
    | error err =>
      intro name hname
      obtain ⟨hmem, hnone⟩ := hmore.of_error hfa name hname
      exact ⟨List.mem_append_right names hmem, hnone⟩
    | ok b => exact List.forall_mem_append.mpr ⟨h, hmore.of_ok hfa⟩

theorem after {names : List String} {r : Except CompileError α} {f : α → Except CompileError β}
    (h : l.Consults [] r) (hf : ∀ a, r = .ok a → l.Consults names (f a)) :
    l.Consults names (r >>= f) :=
  h.seq hf

theorem before {names : List String} {r : Except CompileError α} {f : α → Except CompileError β}
    (h : l.Consults names r) (hf : ∀ a, r = .ok a → l.Consults [] (f a)) :
    l.Consults names (r >>= f) := by
  have hseq := h.seq hf
  rwa [List.append_nil] at hseq

theorem ok (a : α) : l.Consults [] (.ok a : Except CompileError α) := fun _ h => by cases h

theorem error {err : CompileError} (h : err.missing? = none) :
    l.Consults [] (.error err : Except CompileError α) := fun name hname => by
  rw [h] at hname
  cases hname

theorem foldlM {names : β → List String} {f : α → β → Except CompileError α} (bs : List β)
    (good : α → Prop) {a : α} (ha : good a)
    (hf : ∀ a b, good a → l.Consults (names b) (f a b) ∧ ∀ a', f a b = .ok a' → good a') :
    l.Consults (bs.flatMap names) (bs.foldlM f a) := by
  induction bs generalizing a with
  | nil => exact ok a
  | cons b bs ih =>
    rw [List.foldlM_cons, List.flatMap_cons]
    obtain ⟨hconsults, hgood⟩ := hf a b ha
    exact hconsults.seq fun a' ha' => ih (hgood a' ha')

end Library.Consults

namespace Elaboration

theorem consults_lift {l : Library} {α : Type} (r : Except CircuitError α) :
    l.Consults [] (lift r) := by
  cases r with
  | error e => exact .error rfl
  | ok a => exact .ok a

theorem consults_materialize {l : Library} (e : Elaboration) (index width : Nat) :
    l.Consults [] (e.materialize index width) := by
  unfold materialize
  split
  · exact .error rfl
  · split
    · exact .ok _
    · exact (consults_lift _).after fun _ _ => .ok _

theorem consults_resolve {l : Library} (e : Elaboration) (name : String) (width : Option Nat)
    (line : Nat) : l.Consults [] (e.resolve name width line) := by
  unfold resolve
  split
  · exact .ok _
  · exact consults_materialize e _ _
  · exact .error rfl

theorem consults_rebind {l : Library} (e : Elaboration) (name : String) :
    l.Consults [] (e.rebind name) := by
  unfold rebind
  split
  · exact .ok _
  · apply Library.Consults.after
    · unfold renameValue
      split
      · exact (consults_lift _).after fun _ _ => .ok _
      · split
        · exact .ok _
        · exact (consults_lift _).after fun _ _ => .ok _
    · exact fun _ _ => .ok _

theorem consults_callee (e : Elaboration) (name : String) (args line : Nat) :
    e.library.Consults [name] (e.callee name args line) := by
  unfold callee
  split
  · rename_i hnone
    intro other hother
    rw [← Option.some.inj hother]
    exact ⟨List.mem_singleton_self name, hnone⟩
  · rename_i cell hget
    split
    · intro other hother
      cases hother
    · intro other hother
      rw [List.mem_singleton.mp hother, hget]
      exact Option.some_ne_none cell

theorem consults_checkWidth {l : Library} (e : Elaboration) (line position : Nat)
    (callee : String) (expected : Option Nat) (id : Nat) :
    l.Consults [] (e.checkWidth line position callee expected id) := by
  unfold checkWidth
  split
  · exact .error rfl
  · exact .ok _

mutual

theorem consults_argument (line : Nat) (expected : Option Nat) (arg : Arg) {e : Elaboration}
    (he : e.Valid) : e.library.Consults arg.callees (argument line expected arg e) := by
  cases arg with
  | name n =>
    rw [argument]
    exact consults_resolve e n expected line
  | call callee args =>
    rw [argument, Arg.callees]
    apply (consults_callee e callee args.length line).seq
    intro cell _
    apply (consults_arguments line callee cell 0 args he).before
    rintro ⟨producers, e₁⟩ _
    exact (consults_lift _).after fun _ _ => .ok _

theorem consults_arguments (line : Nat) (name : String) (cell : Cell) (position : Nat)
    (args : List Arg) {e : Elaboration} (he : e.Valid) :
    e.library.Consults (Arg.calleesOf args) (arguments line name cell position args e) := by
  cases args with
  | nil =>
    rw [arguments]
    exact .ok _
  | cons arg rest =>
    rw [arguments, Arg.calleesOf]
    apply (consults_argument line _ arg he).seq
    rintro ⟨id, e₁⟩ hargument
    obtain ⟨hcontinues, _, _⟩ := argument_spec line _ arg he hargument
    rw [← hcontinues.grows.library]
    apply (consults_checkWidth e₁ line position name _ id).after
    intro _ _
    apply (consults_arguments line name cell (position + 1) rest hcontinues.valid).before
    exact fun _ _ => .ok _

end

theorem consults_addBinding {e : Elaboration} (he : e.Valid) (b : Binding) :
    e.library.Consults b.callees (e.addBinding b) := by
  apply (consults_callee e b.call.callee b.call.args.length b.line).seq
  intro cell _
  apply (consults_arguments b.line b.call.callee cell 0 b.call.args he).before
  rintro ⟨producers, e₁⟩ _
  apply (consults_rebind e₁ b.name).after
  intro e₂ _
  apply (consults_lift _).after
  rintro ⟨id, added⟩ _
  exact (consults_lift _).after fun _ _ => .ok _

theorem consults_addOutput {l : Library} (e : Elaboration) (line : Nat) (outputs : List Port) :
    l.Consults [] (e.addOutput line outputs) := by
  unfold addOutput
  split
  · apply (consults_resolve e _ _ line).after
    rintro ⟨id, e₁⟩ _
    simp only
    split
    · exact (consults_lift _).after fun _ _ => .ok _
    · split
      · exact .error rfl
      · exact (consults_lift _).after fun _ _ => .ok _
  · exact .error rfl

theorem consults_addProgram (library : Library) (strict : Bool) (p : Program) :
    library.Consults p.callees ((start library strict).addProgram p) := by
  apply Library.Consults.after (Ends.foldlM p.inputs (by simp) fun e _ port _ =>
    (consults_rebind e port.name).after fun _ _ => .ok _)
  intro e₁ hdeclares
  obtain ⟨hproceeds, _, _⟩ := declares_spec p.inputs (start_valid library strict) hdeclares
  apply Library.Consults.before
  · apply Library.Consults.foldlM p.bindings (fun e => e.Valid ∧ e.library = library)
      ⟨hproceeds.valid, hproceeds.grows.library⟩
    rintro e b ⟨he, rfl⟩
    refine ⟨consults_addBinding he b, fun e' hbinding => ?_⟩
    obtain ⟨hproceeds', _, _⟩ := addBinding_spec he hbinding
    exact ⟨hproceeds'.valid, hproceeds'.grows.library⟩
  · intro e₂ _
    apply (consults_addOutput e₂ p.outputLine p.outputs).after
    intro e₃ _
    exact Ends.foldlM _ (by simp) fun e _ index _ =>
      (consults_materialize e index 1).after fun _ _ => (consults_lift _).after fun _ _ => .ok _

def under (e : Elaboration) (l : Library) : Elaboration := { e with library := l }

section Under

variable (e : Elaboration) (l : Library)

@[simp] theorem library_under : (e.under l).library = l := rfl

@[simp] theorem assembly_under : (e.under l).assembly = e.assembly := rfl

@[simp] theorem strict_under : (e.under l).strict = e.strict := rfl

@[simp] theorem lookup?_under (name : String) : (e.under l).lookup? name = e.lookup? name := rfl

@[simp] theorem unbindName_under (name : String) :
    (e.under l).unbindName name = (e.unbindName name).under l := rfl

@[simp] theorem setAliasCount_under (name : String) (k : Nat) :
    (e.under l).setAliasCount name k = (e.setAliasCount name k).under l := rfl

end Under

theorem materialize_under (e : Elaboration) (l : Library) (index width : Nat) :
    (e.under l).materialize index width =
      (e.materialize index width).map fun r => (r.1, r.2.under l) := by
  dsimp only [materialize, under]
  split
  · rfl
  · split
    · rfl
    · rw [bind_then_map]
      rfl

theorem resolve_under (e : Elaboration) (l : Library) (name : String) (width : Option Nat)
    (line : Nat) :
    (e.under l).resolve name width line =
      (e.resolve name width line).map fun r => (r.1, r.2.under l) := by
  unfold resolve
  rw [lookup?_under]
  cases e.lookup? name with
  | none => rfl
  | some value =>
    cases value with
    | made id => rfl
    | input index => exact materialize_under e l index _

theorem freeNumber_under (e : Elaboration) (l : Library) (name : String) (tries k : Nat) :
    (e.under l).freeNumber name tries k = e.freeNumber name tries k := by
  induction tries generalizing k with
  | zero => rfl
  | succ tries ih =>
    rw [freeNumber, freeNumber, ih]
    rfl

theorem renameValue_under (e : Elaboration) (l : Library) (value : Value) (name : String) :
    (e.under l).renameValue value name = (e.renameValue value name).map (·.under l) := by
  cases value with
  | made id =>
    rw [renameValue, renameValue, bind_then_map]
    rfl
  | input index =>
    dsimp only [renameValue, under]
    split
    · rfl
    · rw [bind_then_map]
      rfl

theorem rebind_under (e : Elaboration) (l : Library) (name : String) :
    (e.under l).rebind name = (e.rebind name).map (·.under l) := by
  unfold rebind
  rw [lookup?_under]
  cases e.lookup? name with
  | none => rfl
  | some old =>
    simp only [unbindName_under, setAliasCount_under, freeNumber_under, renameValue_under, map_then_bind,
      bind_then_map]
    rfl

theorem declare_under (e : Elaboration) (l : Library) (port : Port) :
    (e.under l).declare port = (e.declare port).map (·.under l) := by
  unfold declare
  rw [rebind_under, map_then_bind, bind_then_map]
  rfl

theorem addOutput_under (e : Elaboration) (l : Library) (line : Nat) (outputs : List Port) :
    (e.under l).addOutput line outputs = (e.addOutput line outputs).map (·.under l) := by
  unfold addOutput
  split
  · rename_i port
    rw [resolve_under, map_then_bind, bind_then_map]
    refine congrArg (e.resolve port.name port.width line >>= ·) (funext fun r => ?_)
    dsimp only
    split
    · rw [bind_then_map]
      rfl
    · rename_i declared _
      rw [strict_under, assembly_under]
      by_cases hwidth : (r.2.strict && declared != r.2.assembly.outputWidth r.1) = true
      · rw [if_pos hwidth, if_pos hwidth]
        rfl
      · rw [if_neg hwidth, if_neg hwidth]
        rw [bind_then_map]
        rfl
  · rfl

theorem designate_under (e : Elaboration) (l : Library) (index : Nat) :
    (e.under l).designate index = (e.designate index).map (·.under l) := by
  unfold designate
  rw [materialize_under, map_then_bind, bind_then_map]
  simp only [bind_then_map]
  rfl

end Elaboration

/-- With the second library a computation ends as with the first, unless it missed what is there
now. -/
def Library.Stable {α β : Type} (l : Library) (move : α → β) (r : Except CompileError α)
    (r' : Except CompileError β) : Prop :=
  r' = r.map move ∨ ∃ name line, r = .error (.missingDependency name line) ∧ l.get? name ≠ none

namespace Library.Stable

variable {l : Library} {α β γ δ : Type}

theorem bind {move : α → β} {move' : γ → δ} {r : Except CompileError α}
    {r' : Except CompileError β} {f : α → Except CompileError γ} {f' : β → Except CompileError δ}
    (h : l.Stable move r r') (hf : ∀ a, r = .ok a → l.Stable move' (f a) (f' (move a))) :
    l.Stable move' (r >>= f) (r' >>= f') := by
  rcases h with rfl | ⟨name, line, rfl, hget⟩
  · cases r with
    | error err => exact .inl rfl
    | ok a => exact hf a rfl
  · exact .inr ⟨name, line, rfl, hget⟩

theorem foldlM {move : α → β} {f : α → γ → Except CompileError α}
    {f' : β → γ → Except CompileError β} (cs : List γ) (good : α → Prop) {a : α} (ha : good a)
    (hf : ∀ a c, good a → l.Stable move (f a c) (f' (move a) c) ∧ ∀ a', f a c = .ok a' → good a') :
    l.Stable move (cs.foldlM f a) (cs.foldlM f' (move a)) := by
  induction cs generalizing a with
  | nil => exact .inl rfl
  | cons c cs ih =>
    rw [List.foldlM_cons, List.foldlM_cons]
    obtain ⟨hstable, hgood⟩ := hf a c ha
    exact hstable.bind fun a' ha' => ih (hgood a' ha')

end Library.Stable

namespace Elaboration

variable {l : Library}

theorem stable_callee {e : Elaboration} (hle : e.library ≤ l) (name : String) (args line : Nat) :
    l.Stable id (e.callee name args line) ((e.under l).callee name args line) := by
  unfold callee
  rw [library_under, strict_under]
  cases hget : e.library.get? name with
  | none =>
    cases hget' : l.get? name with
    | none => exact .inl rfl
    | some cell =>
      refine .inr ⟨name, line, rfl, ?_⟩
      rw [hget']
      exact Option.some_ne_none cell
  | some cell =>
    rw [hle name cell hget]
    exact .inl (by rw [Except.map_id]; rfl)

theorem stable_checkWidth (e : Elaboration) (line position : Nat) (callee : String)
    (expected : Option Nat) (producer : Nat) :
    l.Stable id (e.checkWidth line position callee expected producer)
      ((e.under l).checkWidth line position callee expected producer) :=
  .inl (by rw [Except.map_id]; rfl)

mutual

theorem stable_argument (line : Nat) (expected : Option Nat) (arg : Arg) {e : Elaboration}
    (he : e.Valid) (hle : e.library ≤ l) :
    l.Stable (fun r => (r.1, r.2.under l)) (argument line expected arg e)
      (argument line expected arg (e.under l)) := by
  cases arg with
  | name n =>
    rw [argument, argument]
    exact .inl (resolve_under e l n expected line)
  | call callee args =>
    rw [argument, argument]
    apply (stable_callee hle callee args.length line).bind
    intro cell _
    apply (stable_arguments line callee cell 0 args he hle).bind
    rintro ⟨producers, e₁⟩ _
    exact .inl (by rw [bind_then_map]; rfl)

theorem stable_arguments (line : Nat) (name : String) (cell : Cell) (position : Nat)
    (args : List Arg) {e : Elaboration} (he : e.Valid) (hle : e.library ≤ l) :
    l.Stable (fun r => (r.1, r.2.under l)) (arguments line name cell position args e)
      (arguments line name cell position args (e.under l)) := by
  cases args with
  | nil =>
    rw [arguments, arguments]
    exact .inl rfl
  | cons arg rest =>
    rw [arguments, arguments]
    apply (stable_argument line _ arg he hle).bind
    rintro ⟨producer, e₁⟩ hargument
    obtain ⟨hcontinues, _, _⟩ := argument_spec line _ arg he hargument
    have hle₁ : e₁.library ≤ l := hcontinues.grows.library ▸ hle
    apply Library.Stable.bind (stable_checkWidth e₁ line position name _ producer)
    intro _ _
    apply (stable_arguments line name cell (position + 1) rest hcontinues.valid hle₁).bind
    rintro ⟨ids, e₂⟩ _
    exact .inl rfl

end

theorem stable_addBinding {e : Elaboration} (he : e.Valid) (hle : e.library ≤ l) (b : Binding) :
    l.Stable (·.under l) (e.addBinding b) ((e.under l).addBinding b) := by
  unfold addBinding
  apply (stable_callee hle b.call.callee b.call.args.length b.line).bind
  intro cell _
  apply (stable_arguments b.line b.call.callee cell 0 b.call.args he hle).bind
  rintro ⟨producers, e₁⟩ _
  apply Library.Stable.bind (.inl (rebind_under e₁ l b.name))
  intro e₂ _
  exact .inl (by simp only [bind_then_map]; rfl)

theorem stable_addProgram {library : Library} (hle : library ≤ l) (strict : Bool) (p : Program) :
    l.Stable (·.under l) ((start library strict).addProgram p) ((start l strict).addProgram p) := by
  apply Library.Stable.bind (Library.Stable.foldlM p.inputs (fun _ => True) trivial
    fun e port _ => ⟨.inl (declare_under e l port), fun _ _ => trivial⟩)
  intro e₁ hdeclares
  obtain ⟨hproceeds, _, _⟩ := declares_spec p.inputs (start_valid library strict) hdeclares
  apply Library.Stable.bind (Library.Stable.foldlM p.bindings
    (fun e => e.Valid ∧ e.library = library) ⟨hproceeds.valid, hproceeds.grows.library⟩ ?_)
  · intro e₂ _
    apply Library.Stable.bind (.inl (addOutput_under e₂ l p.outputLine p.outputs))
    intro e₃ _
    exact Library.Stable.foldlM _ (fun _ => True) trivial
      fun e index _ => ⟨.inl (designate_under e l index), fun _ _ => trivial⟩
  · rintro e b ⟨he, rfl⟩
    refine ⟨stable_addBinding he hle b, fun e' hbinding => ?_⟩
    obtain ⟨hproceeds', _, _⟩ := addBinding_spec he hbinding
    exact ⟨hproceeds'.valid, hproceeds'.grows.library⟩

end Elaboration

theorem Program.consults_toAssembly (p : Program) (library : Library) (strict : Bool) :
    library.Consults p.callees (p.toAssembly library strict) :=
  (Elaboration.consults_addProgram library strict p).before fun _ _ => .ok _

theorem Program.stable_toAssembly (p : Program) {library l : Library} (hle : library ≤ l)
    (strict : Bool) : l.Stable id (p.toAssembly library strict) (p.toAssembly l strict) := by
  apply (Elaboration.stable_addProgram hle strict p).bind
  exact fun _ _ => .inl rfl

/-- Compiles a text and makes of its assembly what is wanted. -/
def compileTo {α : Type} (use : Assembly → Except CircuitError α) (source : String)
    (library : Library) (strict : Bool) : Except CompileError α := do
  let a ← (← Program.parse source).toAssembly library strict
  (use a).mapError .circuit

section CompileTo

variable {α : Type} (use : Assembly → Except CircuitError α) {source : String} {library : Library}
  {strict : Bool}

theorem consults_compileTo {p : Program} (h : Program.parse source = .ok p) :
    library.Consults p.callees (compileTo use source library strict) := by
  unfold compileTo
  rw [h]
  exact (p.consults_toAssembly library strict).before fun _ _ => Elaboration.consults_lift _

theorem compileTo_missing {err : CompileError} {name : String}
    (h : compileTo use source library strict = .error err) (hname : err.missing? = some name) :
    library.get? name = none ∧ ∃ p, Program.parse source = .ok p ∧ name ∈ p.callees := by
  cases hparse : Program.parse source with
  | error err' =>
    have herr : compileTo use source library strict = .error err' := by
      unfold compileTo
      rw [hparse]
      rfl
    obtain rfl : err = err' := Except.error.inj (h.symm.trans herr)
    have hform := (Program.forms_parse source).of_error hparse
    rw [CompileError.missing?_of_isOfForm hform] at hname
    cases hname
  | ok p =>
    obtain ⟨hmem, hnone⟩ := (consults_compileTo use hparse).of_error h name hname
    exact ⟨hnone, p, rfl, hmem⟩

/-- With more cells a text is compiled as before, unless it missed one of them. -/
theorem compileTo_stable {l : Library} (hle : library ≤ l) :
    l.Stable id (compileTo use source library strict) (compileTo use source l strict) := by
  unfold compileTo
  cases Program.parse source with
  | error err => exact .inl rfl
  | ok p =>
    apply (p.stable_toAssembly hle strict).bind
    exact fun a _ => .inl (by rw [Except.map_id]; rfl)

end CompileTo

theorem compileProbed_missing {source : String} {library : Library} {strict : Bool}
    {err : CompileError} {name : String} (h : compileProbed source library strict = .error err)
    (hname : err.missing? = some name) :
    library.get? name = none ∧ ∃ p, Program.parse source = .ok p ∧ name ∈ p.callees :=
  compileTo_missing Assembly.flattenProbed h hname

theorem compileProbed_callees {source : String} {library : Library} {strict : Bool}
    {d : ProbedCell} (h : compileProbed source library strict = .ok d) {p : Program}
    (hparse : Program.parse source = .ok p) : ∀ name ∈ p.callees, library.get? name ≠ none :=
  (consults_compileTo Assembly.flattenProbed hparse).of_ok h

theorem compileProbed_stable (source : String) {library l : Library} (hle : library ≤ l)
    (strict : Bool) :
    l.Stable id (compileProbed source library strict) (compileProbed source l strict) :=
  compileTo_stable Assembly.flattenProbed hle

theorem compileProbed_of_le {source : String} {library l : Library} {strict : Bool}
    {d : ProbedCell} (hle : library ≤ l) (h : compileProbed source library strict = .ok d) :
    compileProbed source l strict = .ok d := by
  rcases compileProbed_stable source hle strict with heq | ⟨_, _, hmissing, _⟩
  · rw [heq, h]
    rfl
  · rw [h] at hmissing
    cases hmissing

end WireLogic
