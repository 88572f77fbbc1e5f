import WireLogic.Proofs.Naming
import WireLogic.Proofs.Ordered

/-!
# What compilation can complain about

Every check of the assembly that a program is turned into has been made before, on the program
itself. So with sound cells in the library, an error of compilation is always one that the text of
the program has, and an assembly that comes out of a program can be flattened.
-/

namespace WireLogic

set_option autoImplicit false

/-- The error is in the text of a program, not in how circuits are put together. -/
def CompileError.isOfSource : CompileError → Bool
  | invalidToken .. | malformed .. | missingDependency .. | unboundName .. | mismatch ..
  | outputCount .. => true
  | duplicateRegistration .. | standardCell .. | circuit .. => false

abbrev Reports {α : Type} (good : α → Prop) : Except CompileError α → Prop :=
  Outcome.Ends (fun err : CompileError => err.isOfSource = true) good

theorem reports_lift {α : Type} {r : Except CircuitError α} {a : α} (hr : r = .ok a) :
    Reports (· = a) (Elaboration.lift r) := by
  rw [hr]
  rfl

def CompileError.isOfForm : CompileError → Bool
  | invalidToken .. | malformed .. => true
  | _ => false

theorem CompileError.isOfSource_of_isOfForm {err : CompileError} (h : err.isOfForm = true) :
    err.isOfSource = true := by
  cases err with
  | invalidToken | malformed => rfl
  | _ => cases h

theorem CompileError.missing?_of_isOfForm {err : CompileError} (h : err.isOfForm = true) :
    err.missing? = none := by
  cases err with
  | missingDependency => cases h
  | _ => rfl

abbrev Forms {α : Type} : Except CompileError α → Prop :=
  Outcome.Ends (fun err : CompileError => err.isOfForm = true) fun _ => True

namespace Parse

theorem forms_fault {α : Type} (r : Except Fault α) (l : Line) : Forms (r.mapError (·.at l)) := by
  cases r with
  | error f => cases f <;> rfl
  | ok a => trivial

theorem forms_body (last : Nat) (lines : List Line) : Forms (body last lines) := by
  induction lines with
  | nil => rfl
  | cons l rest ih =>
    unfold body
    split
    · apply (forms_fault _ l).bind
      intro c _ _
      exact ih.bind fun _ _ _ => trivial
    · apply (forms_fault _ l).bind
      intro outputs _ _
      split
      · trivial
      · rfl

theorem forms_program (last : Nat) (lines : List Line) : Forms (program last lines) := by
  unfold program
  split
  · rfl
  · split
    · rfl
    · apply (forms_fault _ _).bind
      intro inputs _ _
      exact (forms_body last _).bind fun _ _ _ => trivial

end Parse

theorem Program.forms_parse (source : String) : Forms (parse source) := by
  unfold parse
  split
  · rfl
  · exact Parse.forms_program _ _

namespace Assembly

theorem addNamed_of_free {a : Assembly} {name : String} (h : a.named? name = none) (cell : Cell) :
    a.addNamed cell name = .ok (a.add cell (some name)) := by
  unfold addNamed
  rw [h]

theorem markInput_of_lt {a : Assembly} {id : Nat} (h : id < a.size) :
    a.markInput id = .ok { a with inputs := a.inputs ++ [id] } :=
  Outcome.bind_eq_ok.mpr ⟨(), check_eq_ok.mpr h, rfl⟩

theorem markOutput_of_lt {a : Assembly} {id : Nat} (h : id < a.size) :
    a.markOutput id = .ok { a with outputs := a.outputs ++ [id] } :=
  Outcome.bind_eq_ok.mpr ⟨(), check_eq_ok.mpr h, rfl⟩

theorem exists_plugAll {a : Assembly} {consumer : Nat} {target : Instance} (producers : List Nat)
    (htarget : a.instances[consumer]? = some target) (hproducers : ∀ p ∈ producers, p < a.size)
    (hwidths : a.strict = true → ∀ (j p : Nat), producers[j]? = some p →
      target.cell.groupWidth? .input (target.plugs.length + j) = some (a.outputWidth p)) :
    ∃ b, a.plugAll consumer producers = .ok b := by
  induction producers generalizing a target with
  | nil => exact ⟨a, rfl⟩
  | cons producer rest ih =>
    obtain ⟨hproducer, hrest⟩ := List.forall_mem_cons.mp hproducers
    let b : Assembly := { a with
      instances := a.instances.modify consumer fun i => { i with plugs := i.plugs ++ [producer] } }
    have hplug : a.plug consumer producer = .ok b := by
      unfold plug
      rw [htarget]
      refine Outcome.bind_eq_ok.mpr ⟨(), check_eq_ok.mpr hproducer, ?_⟩
      split
      · rename_i hstrict
        refine Outcome.bind_eq_ok.mpr ⟨(), ?_, rfl⟩
        unfold checkPlug
        have hgroup := hwidths hstrict 0 producer rfl
        rw [Nat.add_zero] at hgroup
        rw [hgroup]
        exact if_pos rfl
      · rfl
    have htarget' : b.instances[consumer]? =
        some { target with plugs := target.plugs ++ [producer] } := by
      rw [Array.getElem?_modify, if_pos rfl, htarget]
      rfl
    have hwidth : ∀ p, b.outputWidth p = a.outputWidth p := by
      intro p
      unfold outputWidth cell?
      rw [Array.getElem?_modify]
      split <;> simp [Function.comp_def]
    obtain ⟨c, hc⟩ := ih htarget' (by simpa [b, size] using hrest) (by
      intro hstrict j p hj
      rw [List.length_append, List.length_singleton, Nat.add_right_comm, hwidth]
      exact hwidths hstrict (j + 1) p hj)
    exact ⟨c, Outcome.bind_eq_ok.mpr ⟨b, hplug, hc⟩⟩

theorem exists_install {a : Assembly} {cell : Cell} {producers : List Nat} (name : Option String)
    (hproducers : ∀ p ∈ producers, p < a.shape.length)
    (hwidths : a.strict = true → ∀ (j p : Nat), producers[j]? = some p →
      cell.groupWidth? .input j = some (a.outputWidth p)) :
    ∃ b, (a.add cell name).2.plugAll a.size producers = .ok b := by
  have htarget : (a.add cell name).2.instances[a.size]? = some ⟨cell, [], name⟩ := by
    simp [add, size]
  rw [length_shape] at hproducers
  refine exists_plugAll producers htarget (fun p hp => ?_) fun hstrict j p hj => ?_
  · have := hproducers p hp
    simp [add, size] at this ⊢
    omega
  · have hp : p < a.shape.length := by
      rw [length_shape]
      exact hproducers p (List.mem_of_getElem? hj)
    rw [outputWidth_eq_shape, shape_add, List.getElem?_append_left hp, ← outputWidth_eq_shape]
    simpa using hwidths hstrict j p hj

end Assembly

namespace Elaboration

theorem Grows.outputWidth {e e' : Elaboration} (h : e.Grows e') {id : Nat}
    (hid : id < e.assembly.shape.length) : e'.assembly.outputWidth id = e.assembly.outputWidth id := by
  rw [Assembly.outputWidth_eq_shape, Assembly.outputWidth_eq_shape,
    h.getElem?_shape (List.getElem?_eq_getElem hid), List.getElem?_eq_getElem hid]

theorem reports_materialize {e : Elaboration} (he : e.Valid) (hnamed : e.Named) {index : Nat}
    (hindex : index < e.inputs.size) (width : Nat) :
    Reports (fun r => r.2.Named) (e.materialize index width) := by
  unfold materialize
  split
  · rename_i hnone
    have := Array.getElem?_eq_none_iff.mp hnone
    omega
  · rename_i d hd
    split
    · exact hnamed
    · rename_i hid
      apply (reports_lift (Assembly.addNamed_of_free (hnamed.named?_of_open hd hid) _)).bind
      rintro _ _ rfl
      exact hnamed.materialize he hd hid _ _

theorem reports_resolve {e : Elaboration} (he : e.Valid) (hnamed : e.Named) (name : String)
    (width : Option Nat) (line : Nat) :
    Reports (fun r => r.2.Named) (e.resolve name width line) := by
  unfold resolve
  split
  · exact hnamed
  · rename_i index hlookup
    exact reports_materialize he hnamed (hnamed.index_lt (mem_of_lookup? hlookup)) _
  · rfl

theorem reports_callee (e : Elaboration) (name : String) (args line : Nat) :
    Reports (fun _ => True) (e.callee name args line) := by
  unfold callee
  split
  · rfl
  · split
    · rfl
    · trivial

theorem reports_checkWidth (e : Elaboration) (line position : Nat) (callee : String)
    (expected : Option Nat) (id : Nat) :
    Reports (fun _ => e.strict = true → expected = some (e.assembly.outputWidth id))
      (e.checkWidth line position callee expected id) := by
  unfold checkWidth
  split
  · rfl
  · rename_i hwidth
    intro hstrict
    simpa [hstrict] using hwidth

mutual

theorem reports_argument (line : Nat) (expected : Option Nat) (arg : Arg) {e : Elaboration}
    (he : e.Valid) (hnamed : e.Named) :
    Reports (fun r => r.2.Named) (argument line expected arg e) := by
  cases arg with
  | name n =>
    rw [argument]
    exact reports_resolve he hnamed n expected line
  | call callee args =>
    rw [argument]
    apply (reports_callee e callee args.length line).bind
    intro cell _ _
    apply (reports_arguments line callee cell 0 args he hnamed).bind
    rintro ⟨producers, e₁⟩ harguments ⟨hnamed₁, hwidths⟩
    obtain ⟨hcontinues, hlt, _⟩ := arguments_spec line callee cell 0 args he harguments
    obtain ⟨b, hplug⟩ := Assembly.exists_install none hlt fun hstrict j p hj => by
      simpa using hwidths hstrict j p hj
    apply (reports_lift hplug).bind
    rintro _ _ rfl
    apply hnamed₁.install hcontinues.valid
    rw [Assembly.names_of_plugAll producers hplug, Assembly.names_add]

theorem reports_arguments (line : Nat) (name : String) (cell : Cell) (position : Nat)
    (args : List Arg) {e : Elaboration} (he : e.Valid) (hnamed : e.Named) :
    Reports (fun r => r.2.Named ∧ (r.2.strict = true → ∀ (j id : Nat), r.1[j]? = some id →
        cell.groupWidth? .input (position + j) = some (r.2.assembly.outputWidth id)))
      (arguments line name cell position args e) := by
  cases args with
  | nil =>
    rw [arguments]
    exact ⟨hnamed, by simp⟩
  | cons arg rest =>
    rw [arguments]
    apply (reports_argument line _ arg he hnamed).bind
    rintro ⟨id, e₁⟩ hargument hnamed₁
    obtain ⟨hcontinues, hid, _⟩ := argument_spec line _ arg he hargument
    apply (reports_checkWidth e₁ line position name _ id).bind
    intro _ _ hwidth
    apply (reports_arguments line name cell (position + 1) rest hcontinues.valid hnamed₁).bind
    rintro ⟨ids, e₂⟩ harguments ⟨hnamed₂, hwidths⟩
    obtain ⟨hcontinues', _, _⟩ :=
      arguments_spec line name cell (position + 1) rest hcontinues.valid harguments
    refine ⟨hnamed₂, fun hstrict j id' hj => ?_⟩
    cases j with
    | zero =>
      obtain rfl := Option.some.inj hj
      have hstrict₁ : e₁.strict = true := hcontinues'.grows.strict ▸ hstrict
      exact (hwidth hstrict₁).trans (congrArg some (hcontinues'.grows.outputWidth hid).symm)
    | succ j =>
      have hgroup := hwidths hstrict j id' hj
      rwa [Nat.add_right_comm] at hgroup

end

/-- An elaboration that no line of a program can confuse. -/
structure Ready (e : Elaboration) : Prop where
  valid : e.Valid
  named : e.Named

theorem reports_declare {e : Elaboration} (he : e.Ready) (port : Port) :
    Reports Ready (e.declare port) := by
  obtain ⟨e₁, hrebind, hnamed, hfree⟩ := he.named.exists_rebind he.valid port.name
  obtain ⟨hrenames, _, _⟩ := rebind_spec he.valid hrebind
  have hsize : e.inputs.size = e₁.inputs.size := by
    have hlength := congrArg List.length hrenames.ports
    simpa [ports] using hlength.symm
  have hdeclare : e.declare port = .ok
      (({ e₁ with inputs := e₁.inputs.push ⟨port.name, port.width, none⟩ } : Elaboration).bindName
        port.name (.input e₁.inputs.size)) := by
    unfold declare
    rw [hrebind, ← hsize]
    rfl
  rw [hdeclare]
  exact ⟨(declare_spec he.valid hdeclare).1.valid, hnamed.declare hfree port.width⟩

theorem reports_addBinding {e : Elaboration} (he : e.Ready) (b : Binding) :
    Reports Ready (e.addBinding b) := by
  suffices hnamed : Reports Named (e.addBinding b) from
    hnamed.imp fun e' hbinding => .mk (addBinding_spec he.valid hbinding).1.valid
  unfold addBinding
  apply (reports_callee e b.call.callee b.call.args.length b.line).bind
  intro cell _ _
  apply (reports_arguments b.line b.call.callee cell 0 b.call.args he.valid he.named).bind
  rintro ⟨producers, e₁⟩ harguments ⟨hnamed₁, hwidths⟩
  obtain ⟨hcontinues, hlt, _⟩ :=
    arguments_spec b.line b.call.callee cell 0 b.call.args he.valid harguments
  obtain ⟨e₂, hrebind, hnamed₂, hfree⟩ := hnamed₁.exists_rebind hcontinues.valid b.name
  obtain ⟨hrenames, he₂, _⟩ := rebind_spec hcontinues.valid hrebind
  obtain ⟨assembly, hplug⟩ := Assembly.exists_install (some b.name) (hrenames.shape.symm ▸ hlt)
    fun hstrict j p hj => by
      have hp := hlt p (List.mem_of_getElem? hj)
      rw [hrenames.grows.outputWidth hp]
      simpa using hwidths (hrenames.strict ▸ hstrict) j p hj
  simp only [hrebind]
  apply (reports_lift (Assembly.addNamed_of_free (hnamed₂.named?_of_free hfree) cell)).bind
  rintro _ _ rfl
  apply (reports_lift hplug).bind
  rintro _ _ rfl
  apply hnamed₂.installBound hfree
  rw [Assembly.names_of_plugAll producers hplug, Assembly.names_add]

theorem reports_addOutput {e : Elaboration} (he : e.Ready) (line : Nat) (outputs : List Port) :
    Reports Ready (e.addOutput line outputs) := by
  suffices hnamed : Reports Named (e.addOutput line outputs) from hnamed.imp fun e' houtput => by
    obtain ⟨_, _, _, hvalid, _⟩ := addOutput_spec he.valid houtput
    exact .mk hvalid
  unfold addOutput
  split
  · rename_i port
    apply (reports_resolve he.valid he.named port.name port.width line).bind
    rintro ⟨id, e₁⟩ hresolve hnamed₁
    obtain ⟨_, hid, _⟩ := resolve_spec he.valid hresolve
    rw [Assembly.length_shape] at hid
    have hmark : Reports Named
        (do return { e₁ with assembly := ← lift (e₁.assembly.markOutput id) }) := by
      apply (reports_lift (Assembly.markOutput_of_lt hid)).bind
      rintro _ _ rfl
      exact hnamed₁.congr rfl rfl rfl rfl
    simp only
    split
    · exact hmark
    · split
      · rfl
      · exact hmark
  · rfl

theorem reports_designate {e : Elaboration} (he : e.Ready) {index : Nat}
    (hindex : index < e.inputs.size) : Reports Ready (e.designate index) := by
  suffices hnamed : Reports Named (e.designate index) from
    hnamed.imp fun e' hdesignate => .mk (designate_spec he.valid hdesignate).1
  unfold designate
  apply (reports_materialize he.valid he.named hindex 1).bind
  rintro ⟨id, e₁⟩ hmaterialize hnamed₁
  obtain ⟨hcontinues, w, hport⟩ := materialize_spec he.valid hmaterialize
  have hid := hcontinues.valid.portIds_lt (mem_portIds_iff.mpr ⟨index, some w, hport⟩)
  rw [Assembly.length_shape] at hid
  apply (reports_lift (Assembly.markInput_of_lt hid)).bind
  rintro _ _ rfl
  exact hnamed₁.congr rfl rfl rfl rfl

theorem reports_addProgram (library : Library) (strict : Bool) (p : Program) :
    Reports Ready ((start library strict).addProgram p) := by
  have hstart : (start library strict).Ready := ⟨start_valid library strict, start_named library strict⟩
  apply (Outcome.Ends.foldlM p.inputs hstart fun e he port _ => reports_declare he port).bind
  intro e₁ _ he₁
  apply (Outcome.Ends.foldlM p.bindings he₁ fun e he b _ => reports_addBinding he b).bind
  intro e₂ _ he₂
  apply (reports_addOutput he₂ p.outputLine p.outputs).bind
  intro e₃ _ he₃
  have hloop : Reports (fun e => e.Ready ∧ e.ports.length = e₃.ports.length)
      ((List.range e₃.inputs.size).foldlM designate e₃) := by
    refine Outcome.Ends.foldlM _ ⟨he₃, rfl⟩ ?_
    rintro e ⟨he, hcount⟩ index hindex
    have hsize : e₃.inputs.size = e.inputs.size := by simpa [ports] using hcount.symm
    rw [List.mem_range, hsize] at hindex
    refine (reports_designate he hindex).imp fun e' hdesignate he' => ⟨he', ?_⟩
    obtain ⟨_, _, hcount', _⟩ := designate_spec he.valid hdesignate
    exact hcount'.trans hcount
  exact hloop.imp fun e _ he => he.1

end Elaboration

theorem Elaboration.Valid.ordered {e : Elaboration} (he : e.Valid) : e.assembly.Ordered :=
  fun i inst hinst => he.plugs i inst.cell inst.plugs (Assembly.shape_of_instance hinst)

theorem Cell.identity_covers (width : Nat) (side : Side) :
    span ((identity width).groups side) ≡ ((identity width).ports side).length
      [MOD UInt64.size] := by
  have hwidth : span ((identity width).groups side) = width := by
    cases side <;> simp [identity, groups]
  rw [length_ports_identity, hwidth]

/-- The assembly that a program describes can be flattened. -/
theorem Program.exists_flatten {library : Library}
    (hlibrary : ∀ name cell, library.get? name = some cell →
      cell.Accepted ∧ cell.circuit.InputsFree)
    {p : Program} {strict : Bool} {a : Assembly} (h : p.toAssembly library strict = .ok a) :
    ∃ cell, a.flatten = .ok cell := by
  obtain ⟨e, hprogram, he⟩ := Outcome.bind_eq_ok.mp h
  obtain rfl := Outcome.pure_eq_ok.mp he
  have hready := (Elaboration.reports_addProgram library strict p).of_ok hprogram
  obtain ⟨hvalid, hlib, _, _, hinputs, id, houtputs, hid, _⟩ :=
    Elaboration.addProgram_valid hprogram
  have hcells : ∀ cell plugs, (cell, plugs) ∈ e.assembly.shape → cell.circuit.WellFormed ∧
      cell.circuit.InputsFree ∧
      ∀ side, Cell.span (cell.groups side) ≡ (cell.ports side).length [MOD UInt64.size] := by
    intro cell plugs hmem
    rcases hvalid.cells cell plugs hmem with ⟨width, rfl⟩ | ⟨name, hget⟩
    · exact ⟨Circuit.wires_wellFormed width, Circuit.wires_inputsFree width,
        Cell.identity_covers width⟩
    · rw [hlib] at hget
      obtain ⟨haccepted, hfree⟩ := hlibrary name cell hget
      exact ⟨haccepted.1.wellFormed, hfree, haccepted.covers⟩
  have hinstance : ∀ (i : Nat) (inst : Instance), e.assembly.instances[i]? = some inst →
      (inst.cell, inst.plugs) ∈ e.assembly.shape := fun i inst hinst =>
    List.mem_of_getElem? (Assembly.shape_of_instance hinst)
  have ha := hvalid.wellFormed (fun cell plugs hmem => (hcells cell plugs hmem).1) hinputs houtputs
    hid
  refine hvalid.ordered.exists_flatten ha ?_ (hready.named.designated_nodup hinputs) ?_
  · intro i cell hcell
    obtain ⟨inst, hinst, rfl⟩ := Option.map_eq_some_iff.mp hcell
    exact (hcells _ _ (hinstance i inst hinst)).2.1
  · exact fun i inst hinst => (hcells _ _ (hinstance i inst hinst)).2.2

/-- With cells that have no edges into their inputs, all that can go wrong in compilation is an
error in the text: one that parsing finds, or one that running through the program finds. What
passes both can be flattened. -/
theorem compile_reports_source (library : Library)
    (hlibrary : ∀ name cell, library.get? name = some cell →
      cell.Accepted ∧ cell.circuit.InputsFree)
    (source : String) (strict : Bool) :
    (∀ err, compile source library strict = .error err → err.isOfSource = true) ∧
      ∀ p a, Program.parse source = .ok p → p.toAssembly library strict = .ok a →
        ∃ cell, a.flatten = .ok cell ∧ compile source library strict = .ok cell := by
  constructor
  · intro err herr
    have hreports : Reports (fun _ => True) (compile source library strict) := by
      apply ((Program.forms_parse source).imp_bad
        fun _ => CompileError.isOfSource_of_isOfForm).bind
      intro p _ _
      have hassembly : Reports (fun _ => True) (p.toAssembly library strict) :=
        (Elaboration.reports_addProgram library strict p).bind fun _ _ _ => trivial
      apply hassembly.bind
      intro a ha _
      obtain ⟨cell, hcell⟩ := Program.exists_flatten hlibrary ha
      rw [hcell]
      trivial
    rw [herr] at hreports
    exact hreports
  · intro p a hparse hassembly
    obtain ⟨cell, hcell⟩ := Program.exists_flatten hlibrary hassembly
    refine ⟨cell, hcell, Outcome.bind_eq_ok.mpr ⟨p, hparse, ?_⟩⟩
    exact Outcome.bind_eq_ok.mpr ⟨a, hassembly, Outcome.mapError_eq_ok.mpr hcell⟩

theorem Library.pairs_accepted : ∀ name cell, pairs.get? name = some cell →
    cell.Accepted ∧ cell.circuit.InputsFree := by
  intro name cell hget
  obtain ⟨haccepted, hfree⟩ := pairs_sound name cell hget
  have hcovers : pairs.entries.all (fun entry => decide (Cell.make entry.2.circuit
      entry.2.inputGroups entry.2.outputGroups = .ok entry.2)) = true := by cbv
  obtain ⟨before, after, hentries, _⟩ := List.lookup_eq_some_iff.mp hget
  have hmem : (name, cell) ∈ pairs.entries := by simp [hentries]
  exact ⟨⟨haccepted, of_decide_eq_true (List.all_eq_true.mp hcovers (name, cell) hmem)⟩, hfree⟩

/-- The alias of a name that is bound again is taken by an input, and a nested call stands between
instances with names. A call with an argument too wide is an error of the text. -/
theorem pairs_compile_reports_source :
    (∃ p a cell, Program.parse "a a_0\na = nand a a_0\na = cat a (nand a_0 a_1)\n2:a" = .ok p ∧
      p.toAssembly .pairs true = .ok a ∧ a.flatten = .ok cell ∧
      compile "a a_0\na = nand a a_0\na = cat a (nand a_0 a_1)\n2:a" .pairs true = .ok cell) ∧
    ∃ err, compile "a\nb = cat a a\nc = nand b a\nc" .pairs true = .error err ∧
      err.isOfSource = true := by
  constructor
  · obtain ⟨_, hsource⟩ := compile_reports_source .pairs Library.pairs_accepted
      "a a_0\na = nand a a_0\na = cat a (nand a_0 a_1)\n2:a" true
    have hfacts : (Program.parse "a a_0\na = nand a a_0\na = cat a (nand a_0 a_1)\n2:a").map
        (fun p => (p.toAssembly .pairs true).isOk) = .ok true := by cbv
    cases hparse : Program.parse "a a_0\na = nand a a_0\na = cat a (nand a_0 a_1)\n2:a" with
    | error err => simp [hparse, Except.map] at hfacts
    | ok p =>
      rw [hparse] at hfacts
      cases hassembly : p.toAssembly .pairs true with
      | error err => simp [hassembly, Except.map, Except.isOk, Except.toBool] at hfacts
      | ok a =>
        obtain ⟨cell, hflatten, hcompile⟩ := hsource p a hparse hassembly
        exact ⟨p, a, cell, rfl, hassembly, hflatten, hcompile⟩
  · have herror : compile "a\nb = cat a a\nc = nand b a\nc" .pairs true =
        .error (.mismatch 3 (.argumentWidth 1 "nand" 2 1)) := by cbv
    exact ⟨_, herror, (compile_reports_source .pairs Library.pairs_accepted _ true).1 _ herror⟩

/-- The plugs that a program makes lead to earlier instances, so that every site of its assembly can
be resolved. -/
theorem Program.ordered_of_toAssembly {library : Library}
    (hlibrary : ∀ name cell, library.get? name = some cell → cell.circuit.Accepted)
    {p : Program} {strict : Bool} {a : Assembly} (h : p.toAssembly library strict = .ok a) :
    a.WellFormed ∧ a.Ordered := by
  obtain ⟨e, hprogram, he⟩ := Outcome.bind_eq_ok.mp h
  obtain rfl := Outcome.pure_eq_ok.mp he
  obtain ⟨hvalid, rfl, _, _, hinputs, id, houtputs, hid, _⟩ := Elaboration.addProgram_valid hprogram
  refine ⟨hvalid.wellFormed (fun cell plugs hmem => ?_) hinputs houtputs hid, hvalid.ordered⟩
  exact (hvalid.cells cell plugs hmem).good Circuit.wires_wellFormed
    fun name cell hget => (hlibrary name cell hget).wellFormed

/-- Compiling with probes ends as compiling without does: with the same cell, or with the same
error. This is so for any accepted cells, with edges into their inputs or not. -/
theorem compile_eq_compileProbed (library : Library)
    (hlibrary : ∀ name cell, library.get? name = some cell → cell.circuit.Accepted)
    (source : String) (strict : Bool) :
    compile source library strict = (compileProbed source library strict).map (·.cell) ∧
      ∀ p a, Program.parse source = .ok p → p.toAssembly library strict = .ok a →
        a.Ordered ∧ ∀ s ∈ a.sites, ∃ k, (Layout.ofAssembly a).resolve a s = .ok k := by
  constructor
  · unfold compile compileProbed
    cases Program.parse source with
    | error err => rfl
    | ok p =>
      change (p.toAssembly library strict >>= fun a => a.flatten.mapError .circuit) =
        (p.toAssembly library strict >>= fun a => a.flattenProbed.mapError .circuit).map (·.cell)
      cases hassembly : p.toAssembly library strict with
      | error err => rfl
      | ok a =>
        obtain ⟨ha, hordered⟩ := Program.ordered_of_toAssembly hlibrary hassembly
        change a.flatten.mapError CompileError.circuit =
          (a.flattenProbed.mapError CompileError.circuit).map (·.cell)
        rw [hordered.flatten_eq ha]
        cases a.flattenProbed <;> rfl
  · intro p a _ hassembly
    obtain ⟨ha, hordered⟩ := Program.ordered_of_toAssembly hlibrary hassembly
    obtain ⟨flat, hflat, _⟩ := hordered.exists_placement ha
    exact ⟨hordered, fun s hs => ⟨flat s, hflat s hs⟩⟩

/-- A cell with an edge into an input. -/
def Library.linked : Library where
  entries := [("linked", ⟨.linkedNand, [⟨"in0", 1⟩, ⟨"in1", 1⟩], [⟨"out0", 2⟩]⟩)]

/-- The edge into an input is kept when two inputs are given, and becomes a loop when one input is
given twice. -/
theorem linked_compile_eq_compileProbed :
    (∃ d, compileProbed "a b\nc = linked a b\nc" .linked true = .ok d ∧
      compile "a b\nc = linked a b\nc" .linked true = .ok d.cell) ∧
    compile "a\nc = linked a a\nc" .linked true = .error (.circuit (.selfLoop 0)) ∧
    compileProbed "a\nc = linked a a\nc" .linked true = .error (.circuit (.selfLoop 0)) := by
  have hlinked : ∀ name cell, Library.linked.get? name = some cell → cell.circuit.Accepted := by
    intro name cell hget
    obtain ⟨before, after, hentries, _⟩ := List.lookup_eq_some_iff.mp hget
    have hmem : (name, cell) ∈ Library.linked.entries := by simp [hentries]
    rw [(Prod.mk.inj (List.mem_singleton.mp hmem)).2]
    cbv
  have hloop : compile "a\nc = linked a a\nc" .linked true = .error (.circuit (.selfLoop 0)) := by
    cbv
  refine ⟨?_, hloop, ?_⟩
  · have hok : (compileProbed "a b\nc = linked a b\nc" .linked true).isOk = true := by cbv
    obtain ⟨hcompile, _⟩ := compile_eq_compileProbed .linked hlinked "a b\nc = linked a b\nc" true
    cases hprobed : compileProbed "a b\nc = linked a b\nc" .linked true with
    | error err => simp [hprobed, Except.isOk, Except.toBool] at hok
    | ok d =>
      rw [hprobed] at hcompile
      exact ⟨d, rfl, hcompile⟩
  · obtain ⟨hcompile, _⟩ := compile_eq_compileProbed .linked hlinked "a\nc = linked a a\nc" true
    rw [hloop] at hcompile
    cases hprobed : compileProbed "a\nc = linked a a\nc" .linked true with
    | error err =>
      rw [hprobed] at hcompile
      have herr : CompileError.circuit (.selfLoop 0) = err := Except.error.inj hcompile
      rw [herr]
    | ok d =>
      rw [hprobed] at hcompile
      cases hcompile

end WireLogic
