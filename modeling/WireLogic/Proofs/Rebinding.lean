import WireLogic.Proofs.Diagnostics

/-!
# Binding a name again loses nothing

What is put under which name is kept in a log. A value that has to give up its name is put under the
first alias of the name that is free, so every value that was ever bound keeps a name, and the name
of its instance is that name. Inputs are no exception, even if they get an instance only after they
have been moved.
-/

namespace WireLogic

set_option autoImplicit false

theorem lookup_cons_eq {β : Type} (l : List (String × β)) (name other : String) (value : β) :
    ((name, value) :: l).lookup other = if other = name then some value else l.lookup other := by
  rw [List.lookup_cons]
  by_cases h : other = name
  · simp [h]
  · rw [beq_false_of_ne h, if_neg h]

theorem lookup_filter_ne {β : Type} (l : List (String × β)) {name other : String}
    (h : other ≠ name) : (l.filter fun b => b.1 != name).lookup other = l.lookup other := by
  induction l with
  | nil => rfl
  | cons b l ih =>
    obtain ⟨key, value⟩ := b
    by_cases hkey : key = name
    · rw [List.filter_cons_of_neg (by simp [hkey]), ih, lookup_cons_eq, if_neg (hkey ▸ h)]
    · rw [List.filter_cons_of_pos (by simp [hkey]), lookup_cons_eq, lookup_cons_eq, ih]

theorem perm_cons_filter_ne {β : Type} {l : List (String × β)} {name : String} {value : β}
    (hkeys : (l.map (·.1)).Nodup) (h : l.lookup name = some value) :
    l.Perm ((name, value) :: l.filter fun b => b.1 != name) := by
  obtain ⟨before, after, rfl, hbefore⟩ := List.lookup_eq_some_iff.mp h
  have hafter : ∀ b ∈ after, b.1 ≠ name := by
    intro b hb heq
    rw [List.map_append, List.map_cons] at hkeys
    have hnot := (List.nodup_cons.mp (List.nodup_append.mp hkeys).2.1).1
    exact hnot (List.mem_map.mpr ⟨b, hb, heq⟩)
  have hrest : (before ++ (name, value) :: after).filter (fun b => b.1 != name) = before ++ after := by
    rw [List.filter_append, List.filter_cons_of_neg (by simp)]
    congr 1
    · apply List.filter_eq_self.mpr
      intro b hb
      have hne := hbefore b hb
      grind
    · apply List.filter_eq_self.mpr
      intro b hb
      exact bne_iff_ne.mpr (hafter b hb)
  rw [hrest]
  exact List.perm_middle

namespace Elaboration

/-- What has been put under which name, the latest first. -/
abbrev Log := List (String × Value)

/-- A value is put under a name. What is under the name already is first put under the first alias
of the name that is free. -/
inductive Put (log : Log) (name : String) (value : Value) : Log → Prop where
  | free : log.lookup name = none → Put log name value ((name, value) :: log)
  | taken {old : Value} {k : Nat} : log.lookup name = some old →
      log.lookup (numberedName name k) = none →
      (∀ j < k, log.lookup (numberedName name j) ≠ none) →
      Put log name value ((name, value) :: (numberedName name k, old) :: log)

inductive Logs : List (String × Value) → Log → Prop where
  | nil : Logs [] []
  | put {puts log log' : Log} {name : String} {value : Value} : Logs puts log →
      Put log name value log' → Logs (puts ++ [(name, value)]) log'

/-- Names stand for what was put under them last, and aliases that are not tried any more are
taken. -/
structure Records (e : Elaboration) (log : Log) : Prop where
  lookup : ∀ name, e.lookup? name = log.lookup name
  counts : ∀ name j, j < (e.aliases.lookup name).getD 0 → e.lookup? (numberedName name j) ≠ none

theorem Records.congr {e e' : Elaboration} {log : Log} (h : e.Records log)
    (hscope : e'.scope = e.scope) (haliases : e'.aliases = e.aliases) : e'.Records log := by
  have hlookup : ∀ name, e'.lookup? name = e.lookup? name := by
    intro name
    rw [lookup?, hscope]
    rfl
  constructor
  · intro name
    rw [hlookup, h.lookup]
  · intro name j hj
    rw [hlookup]
    exact h.counts name j (haliases ▸ hj)

theorem bound_of_lt_freeNumber {e : Elaboration} {name : String} {tries k j : Nat} (hkj : k ≤ j)
    (hj : j < e.freeNumber name tries k) : e.lookup? (numberedName name j) ≠ none := by
  induction tries generalizing k with
  | zero =>
    rw [freeNumber] at hj
    omega
  | succ tries ih =>
    rw [freeNumber] at hj
    split at hj
    · rename_i hbound
      rcases Nat.eq_or_lt_of_le hkj with rfl | hlt
      · exact Option.isSome_iff_ne_none.mp hbound
      · exact ih hlt hj
    · omega

theorem lookup?_unbindName {e : Elaboration} {name other : String} (h : other ≠ name) :
    (e.unbindName name).lookup? other = e.lookup? other := lookup_filter_ne e.scope h

theorem rebind_cases {e e' : Elaboration} {name : String} (h : e.rebind name = .ok e') :
    (e.lookup? name = none ∧ e' = e) ∨ ∃ old k, e.lookup? name = some old ∧
      e.lookup? (numberedName name k) = none ∧
      (∀ j, (e.aliases.lookup name).getD 0 ≤ j → j < k → e.lookup? (numberedName name j) ≠ none) ∧
      e'.scope = (numberedName name k, old) :: e.scope.filter (fun b => b.1 != name) ∧
      e'.aliases = (name, k + 1) :: e.aliases.filter fun b => b.1 != name := by
  unfold rebind at h
  split at h
  · rename_i hfree
    exact .inl ⟨hfree, (Except.ok.inj h).symm⟩
  · rename_i old hold
    simp only at h
    obtain ⟨e₁, hrename, h⟩ := Outcome.bind_eq_ok.mp h
    obtain rfl := Outcome.pure_eq_ok.mp h
    obtain ⟨_, hscope, haliases⟩ := renameValue_spec hrename
    have hfree := freeNumber_free (e.unbindName name) name
    rw [lookup?_unbindName (numberedName_ne name _)] at hfree
    refine .inr ⟨old, _, hold, hfree, ?_, congrArg (_ :: ·) hscope, haliases⟩
    intro j hfrom hj
    have hbound := bound_of_lt_freeNumber hfrom hj
    rwa [lookup?_unbindName (numberedName_ne name j)] at hbound

theorem values_of_rebind {e e' : Elaboration} {name : String} (hkeys : (e.scope.map (·.1)).Nodup)
    (h : e.rebind name = .ok e') : (e'.scope.map (·.2)).Perm (e.scope.map (·.2)) := by
  rcases rebind_cases h with ⟨_, rfl⟩ | ⟨old, k, hold, _, _, hscope, _⟩
  · exact .refl _
  · rw [hscope]
    exact ((perm_cons_filter_ne hkeys hold).map (·.2)).symm

theorem Records.counts_of_moved {e e' : Elaboration} {log : Log} (h : e.Records log) {name : String}
    {old value : Value} {k : Nat} (hbound : ∀ j < k, e.lookup? (numberedName name j) ≠ none)
    (hlookup : ∀ other, e'.lookup? other = if other = name then some value else
      if other = numberedName name k then some old else e.lookup? other)
    (hcount : e'.aliases = (name, k + 1) :: e.aliases.filter fun b => b.1 != name)
    (other : String) (j : Nat) (hj : j < (e'.aliases.lookup other).getD 0) :
    e'.lookup? (numberedName other j) ≠ none := by
  rw [hlookup]
  split
  · simp
  · split
    · simp
    · rename_i hne
      rw [hcount, lookup_cons_eq] at hj
      split at hj
      · rename_i heq
        subst heq
        have hjk : j ≠ k := fun heq => hne (heq ▸ rfl)
        rw [Option.getD_some] at hj
        exact hbound j (by omega)
      · rename_i heq
        rw [lookup_filter_ne e.aliases heq] at hj
        exact h.counts other j hj

theorem Records.bind {e e₁ e' : Elaboration} {log : Log} (h : e.Records log) {name : String}
    {value : Value} (hrebind : e.rebind name = .ok e₁)
    (hscope : e'.scope = (name, value) :: e₁.scope) (haliases : e'.aliases = e₁.aliases) :
    ∃ log', Put log name value log' ∧ e'.Records log' := by
  have hbind : ∀ other, e'.lookup? other =
      if other = name then some value else e₁.lookup? other := by
    intro other
    rw [lookup?, hscope, lookup_cons_eq]
    rfl
  rcases rebind_cases hrebind with ⟨hfree, rfl⟩ | ⟨old, k, hold, hfresh, htried, hmoved, hcount⟩
  · refine ⟨_, .free ((h.lookup name).symm.trans hfree), ?_, ?_⟩
    · intro other
      rw [hbind, lookup_cons_eq, h.lookup]
    · intro other j hj
      rw [hbind]
      split
      · simp
      · exact h.counts other j (haliases ▸ hj)
  · have hbound : ∀ j < k, e.lookup? (numberedName name j) ≠ none := by
      intro j hj
      by_cases hfrom : (e.aliases.lookup name).getD 0 ≤ j
      · exact htried j hfrom hj
      · exact h.counts name j (by omega)
    have hlookup : ∀ other, e'.lookup? other = if other = name then some value else
        if other = numberedName name k then some old else e.lookup? other := by
      intro other
      rw [hbind]
      split
      · rfl
      · rename_i hne
        rw [lookup?, hmoved, lookup_cons_eq, lookup_filter_ne e.scope hne]
        rfl
    refine ⟨_, .taken ((h.lookup name).symm.trans hold) ((h.lookup _).symm.trans hfresh) ?_, ?_,
      h.counts_of_moved hbound hlookup (haliases.trans hcount)⟩
    · intro j hj
      rw [← h.lookup]
      exact hbound j hj
    · intro other
      rw [hlookup, lookup_cons_eq, lookup_cons_eq, h.lookup]

/-- What the first inputs and the first bindings of a program put under which name, the bindings
given the instances that they made. -/
def putsOf (p : Program) (inputs : Nat) (ids : List Nat) : List (String × Value) :=
  (p.inputs.take inputs).zipIdx.map (fun b => (b.1.name, .input b.2)) ++
    (p.bindings.zip ids).map fun b => (b.1.name, .made b.2)

theorem putsOf_declare {p : Program} {k : Nat} {port : Port} (h : p.inputs[k]? = some port) :
    putsOf p (k + 1) [] = putsOf p k [] ++ [(port.name, .input k)] := by
  have hlength : (p.inputs.take k).length = k := by
    have hlt := (List.getElem?_eq_some_iff.mp h).1
    rw [List.length_take]
    omega
  simp [putsOf, List.take_add_one, h, List.zipIdx_append, hlength]

theorem zip_append_singleton {α β : Type} (l : List α) (m : List β) {a : α} (b : β)
    (h : l[m.length]? = some a) : l.zip (m ++ [b]) = l.zip m ++ [(a, b)] := by
  induction m generalizing l with
  | nil =>
    cases l with
    | nil => simp at h
    | cons c l => simpa using h
  | cons d m ih =>
    cases l with
    | nil => simp at h
    | cons c l => simpa using ih l (by simpa using h)

theorem putsOf_bind {p : Program} {k id : Nat} {ids : List Nat} {b : Binding}
    (h : p.bindings[ids.length]? = some b) :
    putsOf p k (ids ++ [id]) = putsOf p k ids ++ [(b.name, .made id)] := by
  simp [putsOf, zip_append_singleton p.bindings ids id h]

/-- A run through the program passes through `e` when it has declared so many inputs and its
bindings have made these instances, each of them the last one that its line adds. -/
inductive Point (library : Library) (strict : Bool) (p : Program) :
    Nat → List Nat → Elaboration → Prop where
  | start : Point library strict p 0 [] (start library strict)
  | declare {k : Nat} {port : Port} {e e' : Elaboration} : Point library strict p k [] e →
      p.inputs[k]? = some port → e.declare port = .ok e' → Point library strict p (k + 1) [] e'
  | argument {k id line : Nat} {ids : List Nat} {expected : Option Nat} {arg : Arg}
      {e e' : Elaboration} : Point library strict p k ids e →
      argument line expected arg e = .ok (id, e') → Point library strict p k ids e'
  | bind {id : Nat} {ids : List Nat} {b : Binding} {e e' : Elaboration} :
      Point library strict p p.inputs.length ids e → p.bindings[ids.length]? = some b →
      e.addBinding b = .ok e' → e'.assembly.size = id + 1 →
      Point library strict p p.inputs.length (ids ++ [id]) e'
  | output {ids : List Nat} {e e' : Elaboration} : Point library strict p p.inputs.length ids e →
      ids.length = p.bindings.length → e.addOutput p.outputLine p.outputs = .ok e' →
      Point library strict p p.inputs.length ids e'
  | designate {index : Nat} {ids : List Nat} {e e' : Elaboration} :
      Point library strict p p.inputs.length ids e → ids.length = p.bindings.length →
      index < p.inputs.length → e.designate index = .ok e' →
      Point library strict p p.inputs.length ids e'

/-- The names in force stand for so many inputs and these instances, for each of them one, and as
the log has it. -/
structure Keeps (inputs : Nat) (ids : List Nat) (log : Log) (e : Elaboration) : Prop where
  ready : e.Ready
  count : e.inputs.size = inputs
  within : ∀ id ∈ ids, id < e.assembly.size
  distinct : ids.Nodup
  values : (e.scope.map (·.2)).Perm ((List.range inputs).map .input ++ ids.map .made)
  records : e.Records log

namespace Keeps

variable {k : Nat} {ids : List Nat} {log : Log} {e e' : Elaboration}

theorem of_same_scope (h : Keeps k ids log e) (hready : e'.Ready) (hgrows : e.Grows e')
    (hcount : e'.ports.length = e.ports.length) (hscope : e'.scope = e.scope)
    (haliases : e'.aliases = e.aliases) : Keeps k ids log e' where
  ready := hready
  count := by
    rw [← h.count]
    simpa [ports] using hcount
  within := by
    intro id hid
    have hlt := h.within id hid
    have hle := hgrows.length_le
    rw [Assembly.length_shape, Assembly.length_shape] at hle
    omega
  distinct := h.distinct
  values := hscope ▸ h.values
  records := h.records.congr hscope haliases

theorem declare (h : Keeps k [] log e) {port : Port} (hdeclare : e.declare port = .ok e') :
    ∃ log', Put log port.name (.input k) log' ∧ Keeps (k + 1) [] log' e' := by
  have hready := (reports_declare h.ready port).of_ok hdeclare
  have hports := (declare_spec h.ready.valid hdeclare).2.1
  obtain ⟨e₁, hrebind, hdone⟩ := Outcome.bind_eq_ok.mp hdeclare
  have hdone := Outcome.pure_eq_ok.mp hdone
  have hscope : e'.scope = (port.name, .input k) :: e₁.scope := by
    rw [← hdone, ← h.count]
    rfl
  have haliases : e'.aliases = e₁.aliases := by
    rw [← hdone]
    rfl
  obtain ⟨log', hput, hrecords⟩ := h.records.bind hrebind hscope haliases
  refine ⟨log', hput, hready, ?_, by simp, List.nodup_nil, ?_, hrecords⟩
  · have hlength := congrArg List.length hports
    simp [ports, h.count] at hlength
    exact hlength
  · have hvalues := (values_of_rebind h.ready.named.keys hrebind).trans h.values
    rw [hscope, List.range_succ, List.map_append]
    simp only [List.map_nil, List.append_nil, List.map_cons] at hvalues ⊢
    exact (hvalues.cons _).trans (List.perm_append_singleton _ _).symm

theorem bind (h : Keeps k ids log e) {b : Binding} (hbind : e.addBinding b = .ok e') :
    ∃ id log', e'.assembly.size = id + 1 ∧ Put log b.name (.made id) log' ∧
      Keeps k (ids ++ [id]) log' e' := by
  have hready := (reports_addBinding h.ready b).of_ok hbind
  obtain ⟨hproceeds, hcount, _⟩ := addBinding_spec h.ready.valid hbind
  obtain ⟨cell, producers, e₁, e₂, assembly, _, harguments, hrebind, hplug, hdone⟩ :=
    addBinding_eq_ok hbind
  obtain ⟨hcontinues, _, _⟩ :=
    arguments_spec b.line b.call.callee cell 0 b.call.args h.ready.valid harguments
  obtain ⟨hrenames, _, _⟩ := rebind_spec hcontinues.valid hrebind
  have hscope : e'.scope = (b.name, .made e₂.assembly.size) :: e₂.scope := by
    rw [hdone]
    rfl
  have haliases : e'.aliases = e₂.aliases := by
    rw [hdone]
    rfl
  have hsize : e'.assembly.size = e₂.assembly.size + 1 := by
    have hnames := congrArg List.length (Assembly.names_of_plugAll producers hplug)
    rw [Assembly.names_add, List.length_append, Assembly.length_names, Assembly.length_names] at hnames
    rw [hdone]
    exact hnames
  have hle : e.assembly.size ≤ e₂.assembly.size := by
    rw [← Assembly.length_shape, ← Assembly.length_shape, hrenames.shape]
    exact hcontinues.grows.length_le
  have hkeys : (e₁.scope.map (·.1)).Nodup := hcontinues.scope ▸ h.ready.named.keys
  have hrecords := h.records.congr hcontinues.scope hcontinues.aliases
  obtain ⟨log', hput, hrecords'⟩ := hrecords.bind hrebind hscope haliases
  refine ⟨e₂.assembly.size, log', hsize, hput, hready, ?_, ?_, ?_, ?_, hrecords'⟩
  · rw [← h.count]
    simpa [ports] using hcount
  · intro id hid
    rcases List.mem_append.mp hid with hid | hid
    · have hlt := h.within id hid
      omega
    · obtain rfl := List.mem_singleton.mp hid
      omega
  · apply List.nodup_append.mpr
    refine ⟨h.distinct, List.nodup_singleton _, ?_⟩
    intro id hid id' hid'
    have hlt := h.within id hid
    rw [List.mem_singleton.mp hid']
    omega
  · have hvalues := (values_of_rebind hkeys hrebind).trans (hcontinues.scope ▸ h.values)
    rw [hscope, List.map_cons, List.map_append, ← List.append_assoc]
    exact (hvalues.cons _).trans (List.perm_append_singleton _ _).symm

end Keeps

theorem resolve_stands {e e' : Elaboration} {name : String} {width : Option Nat} {line id : Nat}
    (he : e.Valid) (h : e.resolve name width line = .ok (id, e')) :
    ∃ v, e.lookup? name = some v ∧ e'.Stands v id := by
  unfold resolve at h
  split at h
  · rename_i made hv
    obtain ⟨rfl, rfl⟩ := Prod.mk.inj (Except.ok.inj h)
    exact ⟨_, hv, .inl rfl⟩
  · rename_i index hv
    obtain ⟨_, w, hport⟩ := materialize_spec he h
    exact ⟨_, hv, .inr ⟨index, rfl, by rw [portId?, hport, Option.bind_some]⟩⟩
  · simp at h

theorem Stands.grows {e e' : Elaboration} {v : Value} {id : Nat} (h : e.Stands v id)
    (hgrows : e.Grows e') : e'.Stands v id := by
  rcases h with hmade | ⟨k, hk, hport⟩
  · exact .inl hmade
  · exact .inr ⟨k, hk, hgrows.portId? hport⟩

theorem addOutput_stands {e e' : Elaboration} {line : Nat} {outputs : List Port} (he : e.Valid)
    (h : e.addOutput line outputs = .ok e') :
    e'.scope = e.scope ∧ e'.aliases = e.aliases ∧ ∃ port id v, outputs = [port] ∧
      e'.assembly.outputs = e.assembly.outputs ++ [id] ∧ e.lookup? port.name = some v ∧
      e'.Stands v id := by
  obtain ⟨port, id, e₁, rfl, hresolve, rfl⟩ := addOutput_eq_ok h
  obtain ⟨hcontinues, _, _⟩ := resolve_spec he hresolve
  obtain ⟨v, hv, hstands⟩ := resolve_stands he hresolve
  exact ⟨hcontinues.scope, hcontinues.aliases, port, id, v, rfl,
    congrArg (· ++ [id]) hcontinues.outputs, hv, hstands⟩

theorem designate_scope {e e' : Elaboration} {index : Nat} (he : e.Valid)
    (h : e.designate index = .ok e') : e'.scope = e.scope ∧ e'.aliases = e.aliases := by
  obtain ⟨⟨id, e₁⟩, hmaterialize, h⟩ := Outcome.bind_eq_ok.mp h
  obtain ⟨assembly, _, h⟩ := Outcome.bind_eq_ok.mp h
  obtain rfl := Outcome.pure_eq_ok.mp h
  obtain ⟨hcontinues, _⟩ := materialize_spec he hmaterialize
  exact ⟨hcontinues.scope, hcontinues.aliases⟩

section Run

variable {library : Library} {strict : Bool} {p : Program}

/-- Whatever a run has come to, it has kept all that was bound. -/
theorem Point.keeps {k : Nat} {ids : List Nat} {e : Elaboration}
    (h : Point library strict p k ids e) :
    ∃ log, Logs (putsOf p k ids) log ∧ Keeps k ids log e := by
  induction h with
  | start =>
    have hready : (Elaboration.start library strict).Ready :=
      ⟨start_valid library strict, start_named library strict⟩
    have hrecords : (Elaboration.start library strict).Records [] := by
      constructor <;> simp [Elaboration.start, lookup?]
    exact ⟨[], by simpa [putsOf] using Logs.nil,
      hready, rfl, by simp, List.nodup_nil, .refl _, hrecords⟩
  | declare _ hport hdeclare ih =>
    obtain ⟨log, hlogs, hkeeps⟩ := ih
    obtain ⟨log', hput, hkeeps'⟩ := hkeeps.declare hdeclare
    exact ⟨log', putsOf_declare hport ▸ hlogs.put hput, hkeeps'⟩
  | @argument k id line ids expected arg e e' _ hargument ih =>
    obtain ⟨log, hlogs, hkeeps⟩ := ih
    obtain ⟨hcontinues, _, _⟩ := argument_spec line expected arg hkeeps.ready.valid hargument
    have hnamed := (reports_argument line expected arg hkeeps.ready.valid hkeeps.ready.named).of_ok
      hargument
    exact ⟨log, hlogs, hkeeps.of_same_scope ⟨hcontinues.valid, hnamed⟩ hcontinues.grows
      hcontinues.count hcontinues.scope hcontinues.aliases⟩
  | bind _ hb hbind hsize ih =>
    obtain ⟨log, hlogs, hkeeps⟩ := ih
    obtain ⟨id', log', hsize', hput, hkeeps'⟩ := hkeeps.bind hbind
    obtain rfl := Nat.succ.inj (hsize'.symm.trans hsize)
    exact ⟨log', putsOf_bind hb ▸ hlogs.put hput, hkeeps'⟩
  | output _ _ houtput ih =>
    obtain ⟨log, hlogs, hkeeps⟩ := ih
    obtain ⟨_, _, _, _, hgrows, hcount, _⟩ := addOutput_spec hkeeps.ready.valid houtput
    obtain ⟨hscope, haliases, _⟩ := addOutput_stands hkeeps.ready.valid houtput
    exact ⟨log, hlogs, hkeeps.of_same_scope ((reports_addOutput hkeeps.ready _ _).of_ok houtput)
      hgrows hcount hscope haliases⟩
  | designate _ _ hindex hdesignate ih =>
    obtain ⟨log, hlogs, hkeeps⟩ := ih
    obtain ⟨_, hgrows, hcount, _⟩ := designate_spec hkeeps.ready.valid hdesignate
    obtain ⟨hscope, haliases⟩ := designate_scope hkeeps.ready.valid hdesignate
    have hready := (reports_designate hkeeps.ready (hkeeps.count.symm ▸ hindex)).of_ok hdesignate
    exact ⟨log, hlogs, hkeeps.of_same_scope hready hgrows hcount hscope haliases⟩

theorem Point.declares (before rest : List Port) {e e' : Elaboration}
    (hinputs : p.inputs = before ++ rest) (h : Point library strict p before.length [] e)
    (hrun : rest.foldlM Elaboration.declare e = .ok e') :
    Point library strict p p.inputs.length [] e' := by
  induction rest generalizing before e with
  | nil =>
    obtain rfl := Except.ok.inj hrun
    rwa [hinputs, List.append_nil]
  | cons port rest ih =>
    rw [List.foldlM_cons] at hrun
    obtain ⟨e₁, hdeclare, hrun⟩ := Outcome.bind_eq_ok.mp hrun
    apply ih (before ++ [port]) (by simp [hinputs]) _ hrun
    rw [List.length_append]
    exact h.declare (by simp [hinputs]) hdeclare

theorem Point.binds (before rest : List Binding) (ids : List Nat) {e e' : Elaboration}
    (hbindings : p.bindings = before ++ rest) (hlength : ids.length = before.length)
    (h : Point library strict p p.inputs.length ids e)
    (hrun : rest.foldlM addBinding e = .ok e') :
    ∃ ids', ids'.length = p.bindings.length ∧ Point library strict p p.inputs.length ids' e' := by
  induction rest generalizing before ids e with
  | nil =>
    obtain rfl := Except.ok.inj hrun
    exact ⟨ids, by simp [hbindings, hlength], h⟩
  | cons b rest ih =>
    rw [List.foldlM_cons] at hrun
    obtain ⟨e₁, hbind, hrun⟩ := Outcome.bind_eq_ok.mp hrun
    obtain ⟨_, _, hkeeps⟩ := h.keeps
    obtain ⟨id, _, hsize, _⟩ := hkeeps.bind hbind
    apply ih (before ++ [b]) (ids ++ [id]) (by simp [hbindings]) (by simp [hlength]) _ hrun
    exact h.bind (by simp [hbindings, hlength]) hbind hsize

theorem Point.designates (indices : List Nat) {ids : List Nat} {e e' : Elaboration}
    (hindices : ∀ index ∈ indices, index < p.inputs.length)
    (hlength : ids.length = p.bindings.length) (h : Point library strict p p.inputs.length ids e)
    (hrun : indices.foldlM Elaboration.designate e = .ok e') :
    Point library strict p p.inputs.length ids e' ∧ e'.scope = e.scope := by
  induction indices generalizing e with
  | nil =>
    obtain rfl := Except.ok.inj hrun
    exact ⟨h, rfl⟩
  | cons index indices ih =>
    rw [List.foldlM_cons] at hrun
    obtain ⟨hindex, hindices⟩ := List.forall_mem_cons.mp hindices
    obtain ⟨e₁, hdesignate, hrun⟩ := Outcome.bind_eq_ok.mp hrun
    obtain ⟨_, _, hkeeps⟩ := h.keeps
    obtain ⟨hpoint, hscope⟩ := ih hindices (h.designate hlength hindex hdesignate) hrun
    exact ⟨hpoint, hscope.trans (designate_scope hkeeps.ready.valid hdesignate).1⟩

theorem point_of_addProgram {e : Elaboration}
    (h : (Elaboration.start library strict).addProgram p = .ok e) :
    ∃ ids, ids.length = p.bindings.length ∧ Point library strict p p.inputs.length ids e ∧
      ∃ port id v, p.outputs = [port] ∧ e.assembly.outputs = [id] ∧
        e.lookup? port.name = some v ∧ e.Stands v id := by
  obtain ⟨_, _, _, _, _, only, honly, _⟩ := addProgram_valid h
  obtain ⟨e₁, hdeclares, h⟩ := Outcome.bind_eq_ok.mp h
  obtain ⟨e₂, hbindings, h⟩ := Outcome.bind_eq_ok.mp h
  obtain ⟨e₃, houtput, hdesignates⟩ := Outcome.bind_eq_ok.mp h
  have hpoint₁ := Point.declares [] p.inputs rfl .start hdeclares
  obtain ⟨ids, hlength, hpoint₂⟩ := hpoint₁.binds [] p.bindings [] rfl rfl hbindings
  obtain ⟨_, _, hkeeps₂⟩ := hpoint₂.keeps
  obtain ⟨hscope₃, _, port, id, v, hport, houtputs, hv, hstands⟩ :=
    addOutput_stands hkeeps₂.ready.valid houtput
  have hpoint₃ := hpoint₂.output hlength houtput
  obtain ⟨_, _, hkeeps₃⟩ := hpoint₃.keeps
  obtain ⟨hpoint, hscope⟩ := hpoint₃.designates _
    (fun index hindex => hkeeps₃.count ▸ List.mem_range.mp hindex) hlength hdesignates
  obtain ⟨_, hgrows, _, hkept, _⟩ := designates_spec _ hkeeps₃.ready.valid hdesignates
  refine ⟨ids, hlength, hpoint, port, id, v, hport, ?_, ?_, hstands.grows hgrows⟩
  · rw [hkept, houtputs] at honly
    rw [hkept, houtputs, honly]
    have hlast := congrArg List.getLast? honly
    simpa using hlast.symm
  · rw [lookup?, hscope, hscope₃]
    exact hv

end Run

def instance? (e : Elaboration) : Value → Option Nat
  | .input k => e.assembly.inputs[k]?
  | .made id => some id

theorem Stands.unique {e : Elaboration} {v : Value} {i j : Nat} (hi : e.Stands v i)
    (hj : e.Stands v j) : i = j := by
  rcases hi with rfl | ⟨k, rfl, hk⟩
  · rcases hj with heq | ⟨k, heq, _⟩
    · exact Value.made.inj heq
    · cases heq
  · rcases hj with heq | ⟨k', heq, hk'⟩
    · cases heq
    · rw [← Value.input.inj heq] at hk'
      exact Option.some.inj (hk.symm.trans hk')

section Named

variable {e : Elaboration} (h : e.Named)
include h

theorem Named.lookup?_iff {name : String} {v : Value} :
    e.lookup? name = some v ↔ (name, v) ∈ e.scope := by
  refine ⟨mem_of_lookup?, ?_⟩
  intro hmem
  cases hlookup : e.lookup? name with
  | none => exact absurd hmem (not_mem_scope_of_lookup? hlookup v)
  | some w => rw [h.value_unique hmem (mem_of_lookup? hlookup)]

theorem Named.names_iff {name : String} {id : Nat} : e.assembly.names[id]? = some (some name) ↔
    ∃ v, e.lookup? name = some v ∧ e.Stands v id := by
  simp only [h.instances name id, h.lookup?_iff]

theorem Named.instance_unique {name : String} {i j : Nat}
    (hi : e.assembly.names[i]? = some (some name)) (hj : e.assembly.names[j]? = some (some name)) :
    i = j := by
  obtain ⟨v, hv, hi⟩ := h.names_iff.mp hi
  obtain ⟨w, hw, hj⟩ := h.names_iff.mp hj
  obtain rfl := Option.some.inj (hv.symm.trans hw)
  exact hi.unique hj

variable (hinputs : e.assembly.inputs.map some = (List.range e.inputs.size).map e.portId?)
include hinputs

omit h in
theorem portId?_eq_of_designated {k : Nat} (hk : k < e.inputs.size) :
    e.portId? k = e.assembly.inputs[k]? ∧ e.portId? k ≠ none := by
  have hmap := congrArg (·[k]?) hinputs
  simp only [List.getElem?_map, List.getElem?_range hk, Option.map_some] at hmap
  obtain ⟨id, hid, hport⟩ := Option.map_eq_some_iff.mp hmap
  rw [← hport, hid]
  simp

theorem Named.stands_iff {name : String} {v : Value} (hv : (name, v) ∈ e.scope) {id : Nat} :
    e.Stands v id ↔ e.instance? v = some id := by
  cases v with
  | made i => simp [Stands, instance?]
  | input k =>
    have hk := (portId?_eq_of_designated hinputs (h.index_lt hv)).1
    simp [Stands, instance?, hk]

theorem Named.exists_instance {name : String} {v : Value} (hv : (name, v) ∈ e.scope) :
    ∃ id, e.Stands v id := by
  cases v with
  | made i => exact ⟨i, .inl rfl⟩
  | input k =>
    have hk := (portId?_eq_of_designated hinputs (h.index_lt hv)).2
    obtain ⟨id, hid⟩ := Option.ne_none_iff_exists'.mp hk
    exact ⟨id, .inr ⟨k, rfl, hid⟩⟩

end Named

end Elaboration

namespace ProbedCell

theorem mem_namedInstances_iff {d : ProbedCell} {name : String} {id : Nat} :
    (name, id) ∈ d.namedInstances ↔ d.names[id]? = some (some name) := by
  simp only [namedInstances, List.mem_filterMap, List.mem_zipIdx_iff_getElem?]
  constructor
  · intro h
    obtain ⟨⟨found, i⟩, hi, heq⟩ := h
    obtain ⟨other, rfl, heq⟩ := Option.map_eq_some_iff.mp heq
    obtain ⟨rfl, rfl⟩ := Prod.mk.inj heq
    exact hi
  · intro h
    exact ⟨(some name, id), h, rfl⟩

theorem namedInstances_nodup (d : ProbedCell) : d.namedInstances.Nodup := by
  apply List.Nodup.filterMap
  · intro a b c ha hb
    obtain ⟨other, hother, heq⟩ := Option.map_eq_some_iff.mp ha
    obtain ⟨other', hother', heq'⟩ := Option.map_eq_some_iff.mp hb
    obtain ⟨rfl, hid⟩ := Prod.mk.inj (heq.trans heq'.symm)
    exact Prod.ext (hother.trans hother'.symm) hid
  · exact (List.nodup_zipIdx_map_snd d.names).of_map

section Distinct

variable {d : ProbedCell} (h : ∀ (name : String) (i j : Nat), d.names[i]? = some (some name) →
  d.names[j]? = some (some name) → i = j)
include h

theorem named?_eq_some_iff {name : String} {id : Nat} :
    d.named? name = some id ↔ d.names[id]? = some (some name) := by
  rw [named?, List.idxOf?_eq_some_iff, List.getElem?_eq_some_iff]
  constructor
  · intro hid
    obtain ⟨hlt, hname, _⟩ := hid
    exact ⟨hlt, hname⟩
  · intro hid
    obtain ⟨hlt, hname⟩ := hid
    refine ⟨hlt, hname, ?_⟩
    intro j hj hother
    have hsame := h name j id (List.getElem?_eq_some_iff.mpr ⟨by omega, hother⟩)
      (List.getElem?_eq_some_iff.mpr ⟨hlt, hname⟩)
    omega

theorem names_nodup : (d.namedInstances.map (·.1)).Nodup := by
  apply d.namedInstances_nodup.map_on
  intro a ha b hb hname
  obtain ⟨name, i⟩ := a
  obtain ⟨other, j⟩ := b
  obtain rfl : name = other := hname
  rw [h name i j (mem_namedInstances_iff.mp ha) (mem_namedInstances_iff.mp hb)]

end Distinct

end ProbedCell

theorem Assembly.names_of_flattenProbed {a : Assembly} {d : ProbedCell}
    (h : a.flattenProbed = .ok d) : a.flatten = .ok d.cell ∧ d.names = a.names := by
  obtain ⟨hflatten, hnames, _⟩ := flattenProbed_eq_ok h
  exact ⟨hflatten, by simp [hnames, names]⟩

namespace Elaboration

section Groups

variable {e : Elaboration} (he : e.Ready)
include he

theorem Ready.lent_input {k id : Nat} (h : e.portId? k = some id) :
    ∃ name w, e.inputs[k]? = some ⟨name, some w, some id⟩ ∧ e.lookup? name = some (.input k) ∧
      (e.assembly.instances[id]?).map (·.lentGroups .input) = some [⟨name, w⟩] := by
  obtain ⟨w, inst, hport, hinst, hcell⟩ := he.valid.port_instance h
  rw [getElem?_ports] at hport
  obtain ⟨⟨name, width, id'⟩, hd, heq⟩ := Option.map_eq_some_iff.mp hport
  obtain ⟨rfl, rfl⟩ := Prod.mk.inj heq
  have hinput : e.inputNames[k]? = some name := by rw [getElem?_inputNames, hd, Option.map_some]
  have hlookup := he.named.lookup?_iff.mpr ((he.named.input name k).mpr hinput)
  have hname := he.named.names_iff.mpr ⟨.input k, hlookup, .inr ⟨k, rfl, h⟩⟩
  rw [Assembly.getElem?_names, hinst, Option.map_some] at hname
  refine ⟨name, w, hd, hlookup, ?_⟩
  rw [hinst, Option.map_some, Instance.lentGroups, Option.some.inj hname, hcell]
  rfl

variable (hinputs : e.assembly.inputs.map some = (List.range e.inputs.size).map e.portId?)
include hinputs

theorem Ready.inputGroups :
    (e.assembly.designatedGroups .input e.assembly.inputs).length = e.inputs.size ∧
      ∀ k < e.inputs.size, ∃ name w, e.inputs[k]? = some ⟨name, some w, e.assembly.inputs[k]?⟩ ∧
        e.lookup? name = some (.input k) ∧
        (e.assembly.designatedGroups .input e.assembly.inputs)[k]? = some ⟨name, w⟩ := by
  let lent : Nat → List PortGroup := fun id =>
    ((e.assembly.instances[id]?).map (·.lentGroups .input)).getD []
  have hgroups : e.assembly.designatedGroups .input e.assembly.inputs =
      e.assembly.inputs.map fun id => (lent id).headD ⟨"", 0⟩ := by
    apply flatMap_eq_map_of_singletons
    intro id hid
    have hmem : some id ∈ (List.range e.inputs.size).map e.portId? := by
      rw [← hinputs]
      exact List.mem_map_of_mem hid
    obtain ⟨k, _, hk⟩ := List.mem_map.mp hmem
    obtain ⟨name, w, _, _, hlent⟩ := he.lent_input hk
    simp [lent, hlent]
  constructor
  · rw [hgroups, List.length_map]
    simpa using congrArg List.length hinputs
  · intro k hk
    obtain ⟨hdesignated, hsome⟩ := portId?_eq_of_designated hinputs hk
    obtain ⟨id, hid⟩ := Option.ne_none_iff_exists'.mp hsome
    obtain ⟨name, w, hd, hlookup, hlent⟩ := he.lent_input hid
    rw [hgroups, List.getElem?_map, ← hdesignated, hid]
    exact ⟨name, w, hd, hlookup, by simp [lent, hlent]⟩

end Groups

theorem outputGroups_of_name {e : Elaboration} {id : Nat} {name : String} {cell : Cell}
    {group : PortGroup} (hname : e.assembly.names[id]? = some (some name))
    (hcell : e.assembly.cell? id = some cell) (hgroup : cell.outputGroups = [group]) :
    e.assembly.designatedGroups .output [id] = [⟨name, group.width⟩] := by
  obtain ⟨inst, hinst, rfl⟩ := Option.map_eq_some_iff.mp hcell
  rw [Assembly.getElem?_names, hinst, Option.map_some] at hname
  have hlent : inst.lentGroups .output = [⟨name, group.width⟩] := by
    simp only [Instance.lentGroups, Option.some.inj hname, Cell.groups, hgroup]
  simp [Assembly.designatedGroups, hinst, hlent]

/-- The names in force at a point of a run: they stand, one to one, for the inputs and for the
instances of the bindings so far, each for what was put under it last, and they are the names of the
instances of what they stand for. -/
structure Tabled (p : Program) (inputs : Nat) (ids : List Nat) (log : Log) (e : Elaboration) :
    Prop where
  logs : Logs (putsOf p inputs ids) log
  names : (e.scope.map (·.1)).Nodup
  values : (e.scope.map (·.2)).Perm ((List.range inputs).map .input ++ ids.map .made)
  distinct : ids.Nodup
  latest : ∀ name, e.lookup? name = log.lookup name
  instances : ∀ (name : String) (id : Nat), e.assembly.names[id]? = some (some name) ↔
    ∃ v, e.lookup? name = some v ∧ e.Stands v id

structure Probed (p : Program) (e : Elaboration) (log : Log) (d : ProbedCell) : Prop where
  count : d.namedInstances.length = p.inputs.length + p.bindings.length
  distinct : (d.namedInstances.map (·.1)).Nodup
  addressable : ∀ name id, (name, id) ∈ d.namedInstances → d.named? name = some id
  latest : ∀ name, d.named? name = (log.lookup name).bind e.instance?
  groups : d.cell.inputGroups.length = p.inputs.length
  inputs : ∀ (k : Nat) (port : Port), p.inputs[k]? = some port → ∃ name w,
    e.inputs[k]? = some ⟨name, some w, e.assembly.inputs[k]?⟩ ∧ log.lookup name = some (.input k) ∧
      d.cell.inputGroups[k]? = some ⟨name, w⟩ ∧ ∀ declared, port.width = some declared → w = declared
  output : ∃ port id, p.outputs = [port] ∧ e.assembly.outputs = [id] ∧
    d.named? port.name = some id ∧ ∀ cell group, e.assembly.cell? id = some cell →
      cell.outputGroups = [group] → d.cell.outputGroups = [⟨port.name, group.width⟩]

theorem Point.tabled {library : Library} {strict : Bool} {p : Program} {k : Nat} {ids : List Nat}
    {e : Elaboration} (h : Point library strict p k ids e) :
    ∃ log, Tabled p k ids log e ∧ Keeps k ids log e := by
  obtain ⟨log, hlogs, hkeeps⟩ := h.keeps
  refine ⟨log, ⟨hlogs, hkeeps.ready.named.keys, hkeeps.values, hkeeps.distinct,
    hkeeps.records.lookup, ?_⟩, hkeeps⟩
  intro name id
  exact hkeeps.ready.named.names_iff

theorem Keeps.length_namedInstances {k : Nat} {ids : List Nat} {log : Log} {e : Elaboration}
    {d : ProbedCell} (h : Keeps k ids log e)
    (hinputs : e.assembly.inputs.map some = (List.range e.inputs.size).map e.portId?)
    (hnames : d.names = e.assembly.names) (hnodup : (d.namedInstances.map (·.1)).Nodup) :
    d.namedInstances.length = k + ids.length := by
  have hperm : (d.namedInstances.map (·.1)).Perm (e.scope.map (·.1)) := by
    apply (List.perm_ext_iff_of_nodup hnodup h.ready.named.keys).mpr
    intro name
    simp only [List.mem_map, Prod.exists, exists_and_right, exists_eq_right,
      ProbedCell.mem_namedInstances_iff, hnames, h.ready.named.instances name]
    constructor
    · intro hid
      obtain ⟨id, v, hv, _⟩ := hid
      exact ⟨v, hv⟩
    · intro hv
      obtain ⟨v, hv⟩ := hv
      obtain ⟨id, hid⟩ := h.ready.named.exists_instance hinputs hv
      exact ⟨id, v, hv, hid⟩
  have hkeys := hperm.length_eq
  have hvalues := h.values.length_eq
  simp only [List.length_map, List.length_append, List.length_range] at hkeys hvalues
  omega

theorem probed_of_addProgram {library : Library} {strict : Bool} {p : Program} {e : Elaboration}
    (h : (start library strict).addProgram p = .ok e) {ids : List Nat} {log : Log}
    (hlength : ids.length = p.bindings.length) (hkeeps : Keeps p.inputs.length ids log e)
    (houtput : ∃ port id v, p.outputs = [port] ∧ e.assembly.outputs = [id] ∧
      e.lookup? port.name = some v ∧ e.Stands v id)
    {d : ProbedCell} (hd : e.assembly.flattenProbed = .ok d) : Probed p e log d := by
  obtain ⟨_, _, _, hwidths, hinputs, _⟩ := addProgram_valid h
  obtain ⟨hflatten, hnames⟩ := Assembly.names_of_flattenProbed hd
  obtain ⟨hinputGroups, houtputGroups⟩ := Assembly.groups_of_flatten hflatten
  rw [← hkeeps.count] at hinputs
  have hnamed := hkeeps.ready.named
  have hunique : ∀ (name : String) (i j : Nat), d.names[i]? = some (some name) →
      d.names[j]? = some (some name) → i = j := by
    rw [hnames]
    intro name i j
    exact hnamed.instance_unique
  have hnodup := ProbedCell.names_nodup hunique
  have haddress : ∀ {name : String} {id : Nat}, d.named? name = some id ↔
      ∃ v, e.lookup? name = some v ∧ e.Stands v id := by
    intro name id
    rw [ProbedCell.named?_eq_some_iff hunique, hnames, hnamed.names_iff]
  obtain ⟨hcount, hgroups⟩ := hkeeps.ready.inputGroups hinputs
  refine ⟨?_, hnodup, ?_, ?_, ?_, ?_, ?_⟩
  · rw [hkeeps.length_namedInstances hinputs hnames hnodup, hlength]
  · intro name id hid
    exact (ProbedCell.named?_eq_some_iff hunique).mpr (ProbedCell.mem_namedInstances_iff.mp hid)
  · intro name
    apply Option.ext
    intro id
    rw [haddress, ← hkeeps.records.lookup, Option.bind_eq_some_iff]
    apply exists_congr
    intro v
    apply and_congr_right
    intro hv
    exact hnamed.stands_iff hinputs (hnamed.lookup?_iff.mp hv)
  · rw [hinputGroups, hcount, hkeeps.count]
  · intro k port hport
    have hk : k < e.inputs.size := hkeeps.count.symm ▸ (List.getElem?_eq_some_iff.mp hport).1
    obtain ⟨name, w, hinput, hlookup, hgroup⟩ := hgroups k hk
    refine ⟨name, w, hinput, ?_, hinputGroups ▸ hgroup, ?_⟩
    · rw [← hkeeps.records.lookup]
      exact hlookup
    · intro declared hdeclared
      obtain ⟨id, hid⟩ := hwidths k port declared hport hdeclared
      rw [getElem?_ports, hinput, Option.map_some] at hid
      exact Option.some.inj (Prod.mk.inj (Option.some.inj hid)).1
  · obtain ⟨port, id, v, hport, houtputs, hv, hstands⟩ := houtput
    refine ⟨port, id, hport, houtputs, haddress.mpr ⟨v, hv, hstands⟩, ?_⟩
    intro cell group hcell hgroup
    rw [houtputGroups, houtputs]
    exact outputGroups_of_name (hnamed.names_iff.mpr ⟨v, hv, hstands⟩) hcell hgroup

/-- At every point of a run through a program, every input and every binding so far has just one
name, and its instance has that name. When the run is through, the probed cell of the program has all
of these names and no others. -/
theorem rebinding_loses_nothing (library : Library) (strict : Bool) (p : Program) :
    (∀ k ids e, Point library strict p k ids e → ∃ log, Tabled p k ids log e) ∧
    ∀ e, (start library strict).addProgram p = .ok e →
      ∃ ids log, ids.length = p.bindings.length ∧ Point library strict p p.inputs.length ids e ∧
        Tabled p p.inputs.length ids log e ∧
        (∀ d, e.assembly.flattenProbed = .ok d → Probed p e log d) ∧
        ((∀ name cell, library.get? name = some cell →
          cell.Accepted ∧ cell.circuit.InputsFree) → ∃ d, e.assembly.flattenProbed = .ok d) := by
  constructor
  · intro k ids e hpoint
    obtain ⟨log, htabled, _⟩ := hpoint.tabled
    exact ⟨log, htabled⟩
  · intro e h
    obtain ⟨ids, hlength, hpoint, houtput⟩ := point_of_addProgram h
    obtain ⟨log, htabled, hkeeps⟩ := hpoint.tabled
    refine ⟨ids, log, hlength, hpoint, htabled, ?_, ?_⟩
    · intro d hd
      exact probed_of_addProgram h hlength hkeeps houtput hd
    · intro hlibrary
      have hassembly : p.toAssembly library strict = .ok e.assembly :=
        Outcome.bind_eq_ok.mpr ⟨e, h, rfl⟩
      obtain ⟨cell, hcell⟩ := Program.exists_flatten hlibrary hassembly
      obtain ⟨ha, hordered⟩ := Program.ordered_of_toAssembly
        (fun name cell hget => (hlibrary name cell hget).1.1) hassembly
      rw [hordered.flatten_eq ha] at hcell
      obtain ⟨d, hd, _⟩ := Outcome.map_eq_ok.mp hcell
      exact ⟨d, hd⟩

/-- An input that is declared twice, another that has the first alias of the first, and both of
their names bound again. -/
def entangled : Program where
  inputs := [⟨"a", none⟩, ⟨"a_0", some 1⟩, ⟨"a", none⟩]
  bindings := [⟨"a", ⟨"nand", [.name "a", .name "a_0"]⟩, 2⟩,
    ⟨"a_0", ⟨"cat", [.name "a", .call "nand" [.name "a_1", .name "a_2"]]⟩, 3⟩]
  outputs := [⟨"a_0", none⟩]
  outputLine := 4

/-- The nested call has no name, and the inputs end up under names that none was declared with. -/
theorem entangled_loses_nothing :
    ∃ e d ids log, (start .pairs true).addProgram entangled = .ok e ∧
      e.assembly.flattenProbed = .ok d ∧
      d.names = [some "a_2", some "a_0_0", some "a", some "a_1", none, some "a_0"] ∧
      d.cell.inputGroups = [⟨"a_1", 1⟩, ⟨"a_0_0", 1⟩, ⟨"a_2", 1⟩] ∧
      d.cell.outputGroups = [⟨"a_0", 2⟩] ∧
      Tabled entangled 3 ids log e ∧ Probed entangled e log d := by
  have hfacts : ((start .pairs true).addProgram entangled).map
      (fun e => e.assembly.flattenProbed.map fun d =>
        (d.names, d.cell.inputGroups, d.cell.outputGroups)) =
      .ok (.ok ([some "a_2", some "a_0_0", some "a", some "a_1", none, some "a_0"],
        [⟨"a_1", 1⟩, ⟨"a_0_0", 1⟩, ⟨"a_2", 1⟩], [⟨"a_0", 2⟩])) := by cbv
  obtain ⟨e, he, hd⟩ := Outcome.map_eq_ok.mp hfacts
  obtain ⟨d, hd, hnames⟩ := Outcome.map_eq_ok.mp hd
  obtain ⟨hnames, hgroups⟩ := Prod.mk.inj hnames
  obtain ⟨hinputs, houtputs⟩ := Prod.mk.inj hgroups
  obtain ⟨_, hrun⟩ := rebinding_loses_nothing .pairs true entangled
  obtain ⟨ids, log, _, _, htabled, hprobed, _⟩ := hrun e he
  exact ⟨e, d, ids, log, he, hd, hnames, hinputs, houtputs, htabled, hprobed d hd⟩

end Elaboration

end WireLogic
