import WireLogic.Proofs.Flatten

/-!
# Consumers and their producers

An instance that is added behind all others and plugged takes no part in what the others do, unless
an edge of its circuit goes into one of its own inputs. Such an edge becomes an edge into whatever
feeds this input, and so it can change a producer. It does no harm where the input has a node of its
own or draws on an input of the whole.
-/

namespace WireLogic

set_option autoImplicit false

namespace Circuit

/-- `c'` has further nodes. The ports are those of `c`, and so are the predecessors of all nodes of
`c` but its inputs. -/
structure Embeds (c c' : Circuit) : Prop where
  size_le : c.size ≤ c'.size
  inputs : c'.inputs = c.inputs
  outputs : c'.outputs = c.outputs
  feeds : ∀ u v, v < c.size → v ∉ c.inputs →
    (u ∈ c'.graph.predecessors v ↔ u ∈ c.graph.predecessors v)

namespace Embeds

variable {c c' : Circuit} {values : List Bool} {val : Nat → Bool}

theorem valuation (h : c.Embeds c') (hval : c'.Valuation values val) : c.Valuation values val where
  inputs := h.inputs ▸ hval.inputs
  consistent := by
    intro n hn hin
    have hlt : n < c'.size := Nat.lt_of_lt_of_le hn h.size_le
    have hin' : n ∉ c'.inputs := by rwa [h.inputs]
    have hpred : c'.graph.predecessors n = c.graph.predecessors n :=
      NodeSet.ext fun u => h.feeds u n hn hin
    rw [hval.consistent n hlt hin', hpred]

theorem simulations (h : c.Embeds c') (hc : c.WellFormed) (hc' : c'.WellFormed)
    (hlen : values.length = c.inputs.length) :
    ∃ s s', c.simulation values = .ok s ∧ c'.simulation values = .ok s' ∧
      ∀ n < c.size, s'.level n = s.level n := by
  obtain ⟨val, hval⟩ := exists_valuation hc' (h.inputs ▸ hlen)
  obtain ⟨s, hs, _, _, hlevel⟩ := simulationWith_of_valuation hc (h.valuation hval) .ascending
  obtain ⟨s', hs', _, _, hlevel'⟩ := simulationWith_of_valuation hc' hval .ascending
  refine ⟨s, s', hs, hs', fun n hn => ?_⟩
  rw [hlevel n hn, hlevel' n (Nat.lt_of_lt_of_le hn h.size_le)]

theorem simulate_eq (h : c.Embeds c') (hc : c.WellFormed) (hc' : c'.WellFormed)
    (values : List Bool) : c'.simulate values = c.simulate values := by
  by_cases hlen : values.length = c.inputs.length
  · obtain ⟨val, hval⟩ := exists_valuation hc' (h.inputs ▸ hlen)
    rw [simulate_of_valuation hc (h.valuation hval), simulate_of_valuation hc' hval, h.outputs]
  · have hlen' : values.length ≠ c'.inputs.length := by rwa [h.inputs]
    unfold simulate
    rw [simulateWith_of_length_ne hlen, simulateWith_of_length_ne hlen', h.inputs]

end Embeds

end Circuit

namespace Assembly

/-- `b` has further instances behind those of `a`. -/
structure Begins (a b : Assembly) : Prop where
  shape : ∃ more, b.shape = a.shape ++ more
  inputs : b.inputs = a.inputs
  outputs : b.outputs = a.outputs

theorem cell?_eq_shape (a : Assembly) (i : Nat) : a.cell? i = a.shape[i]?.map (·.1) := by
  rw [getElem?_shape, Option.map_map]
  rfl

theorem source?_eq_shape (a : Assembly) (s : Site) :
    a.source? s = if s.id ∈ a.inputs then none else a.shape[s.id]?.bind fun inst =>
      (inst.1.circuit.inputs.idxOf? s.node).bind (a.feed inst.2) := by
  unfold source?
  rw [getElem?_shape]
  split
  · rfl
  · cases a.instances[s.id]? with
    | none => rfl
    | some inst => cases hpos : inst.cell.circuit.inputs.idxOf? s.node <;> simp [hpos]

theorem id_lt_of_mem_sites {a : Assembly} {s : Site} (h : s ∈ a.sites) : s.id < a.size := by
  obtain ⟨cell, hcell, _⟩ := mem_sites_iff.mp h
  exact lt_of_cell? hcell

namespace Begins

variable {a b : Assembly} (h : a.Begins b)
include h

theorem size_le : a.size ≤ b.size := by
  obtain ⟨more, hmore⟩ := h.shape
  rw [← length_shape, ← length_shape, hmore, List.length_append]
  omega

theorem getElem?_shape {i : Nat} (hi : i < a.size) : b.shape[i]? = a.shape[i]? := by
  obtain ⟨more, hmore⟩ := h.shape
  rw [← length_shape] at hi
  rw [hmore, List.getElem?_append_left hi]

theorem cell?_eq {i : Nat} (hi : i < a.size) : b.cell? i = a.cell? i := by
  rw [cell?_eq_shape, cell?_eq_shape, h.getElem?_shape hi]

theorem feed_eq {plugs : List Nat} (hplugs : ∀ p ∈ plugs, p < a.size) (position : Nat) :
    b.feed plugs position = a.feed plugs position := by
  induction plugs generalizing position with
  | nil => rfl
  | cons p rest ih =>
    obtain ⟨hp, hrest⟩ := List.forall_mem_cons.mp hplugs
    have hwidth : b.outputWidth p = a.outputWidth p := by
      unfold outputWidth
      rw [h.cell?_eq hp]
    unfold feed
    rw [hwidth, ih hrest]

variable (ha : a.WellFormed)
include ha

theorem source?_eq {s : Site} (hs : s.id < a.size) : b.source? s = a.source? s := by
  rw [source?_eq_shape, source?_eq_shape, h.inputs, h.getElem?_shape hs, Assembly.getElem?_shape]
  cases hinst : a.instances[s.id]? with
  | none => rfl
  | some inst =>
    have hfeed : b.feed inst.plugs = a.feed inst.plugs :=
      funext fun k => h.feed_eq (ha.plugs s.id inst hinst) k
    simp only [Option.map_some, Option.bind_some, hfeed]

theorem trail {s t : Site} {via : List Site} (hs : s.id < a.size) (htrail : a.Trail s via t) :
    b.Trail s via t := by
  induction htrail with
  | here hsource => exact .here ((h.source?_eq ha hs).trans hsource)
  | @step s next t via hdraws _ ih =>
    obtain ⟨bit, cell, hsource, hcell, hnode⟩ := hdraws
    have hnext : next.id < a.size := lt_of_cell? hcell
    refine .step ⟨bit, cell, ?_, ?_, hnode⟩ (ih hnext)
    · rw [h.source?_eq ha hs, hsource]
    · rw [h.cell?_eq hnext, hcell]

omit ha in
theorem sites_eq : ∃ rest, b.sites = a.sites ++ rest := by
  obtain ⟨k, hk⟩ := Nat.exists_eq_add_of_le h.size_le
  have hold : ∀ i ∈ List.range a.size, b.sitesOf i = a.sitesOf i := by
    intro i hi
    unfold sitesOf
    rw [h.cell?_eq (List.mem_range.mp hi)]
  refine ⟨((List.range k).map (a.size + ·)).flatMap b.sitesOf, ?_⟩
  unfold sites
  rw [hk, List.range_add, List.flatMap_append, List.flatMap_def, List.map_congr_left hold,
    ← List.flatMap_def]

theorem placed_eq : ∃ rest, b.placed = a.placed ++ rest := by
  obtain ⟨rest, hrest⟩ := h.sites_eq
  refine ⟨rest.filter fun s => !b.isPlugged s, ?_⟩
  have hold : ∀ s ∈ a.sites, (!b.isPlugged s) = !a.isPlugged s := by
    intro s hs
    unfold isPlugged
    rw [h.source?_eq ha (id_lt_of_mem_sites hs)]
  unfold placed unplugged
  rw [hrest, List.filter_append, List.filter_congr hold]

theorem position?_eq_some_iff {s : Site} {k : Nat} :
    (Layout.ofAssembly a).position? s = some k ↔
      (Layout.ofAssembly b).position? s = some k ∧ k < (Layout.ofAssembly a).size := by
  obtain ⟨rest, hrest⟩ := h.placed_eq ha
  have happend : (Layout.ofAssembly b).position? s =
      ((Layout.ofAssembly a).position? s).or
        ((rest.idxOf? s).map (· + (Layout.ofAssembly a).size)) := by
    simp only [Layout.position?_eq, Layout.size_eq, hrest, Layout.idxOf?_append]
  rw [happend]
  cases hs : (Layout.ofAssembly a).position? s with
  | none =>
    simp only [Option.none_or, Option.map_eq_some_iff]
    refine iff_of_false (by simp) ?_
    intro hlater
    obtain ⟨⟨m, _, hm⟩, hlt⟩ := hlater
    omega
  | some m =>
    have hm := Layout.lt_of_position? hs
    simp only [Option.some_or, Option.some.injEq]
    constructor
    · intro heq
      exact ⟨heq, heq ▸ hm⟩
    · exact fun hand => hand.1

variable (hb : b.WellFormed)
include hb

theorem resolve_eq {s t : Site} {via : List Site} (hs : s ∈ a.sites) (htrail : a.Trail s via t) :
    (Layout.ofAssembly b).resolve b s = (Layout.ofAssembly a).resolve a s := by
  obtain ⟨rest, hrest⟩ := h.sites_eq
  have hs' : s ∈ b.sites := hrest ▸ List.mem_append_left rest hs
  obtain ⟨k, hk, hposition⟩ := Layout.resolve_of_trail ha hs htrail
  obtain ⟨k', hk', hposition'⟩ :=
    Layout.resolve_of_trail hb hs' (h.trail ha (id_lt_of_mem_sites hs) htrail)
  have hsame := ((h.position?_eq_some_iff ha).mp hposition).1
  rw [hk, hk', Option.some.inj (hsame.symm.trans hposition')]

end Begins

/-- The flat circuit of an assembly, with the nodes that the sites resolve to. -/
structure Resolved (a : Assembly) (flat : Site → Nat) (c : Circuit) : Prop
    extends a.Flattened flat c where
  trails : ∀ s ∈ a.sites, ∃ via t, a.Trail s via t
  resolve : ∀ s ∈ a.sites, (Layout.ofAssembly a).resolve a s = .ok (flat s)
  size : c.size = (Layout.ofAssembly a).size

theorem exists_resolved {a : Assembly} (ha : a.WellFormed) {d : ProbedCell}
    (h : a.flattenProbed = .ok d) :
    ∃ flat, a.Resolved flat d.cell.circuit ∧ ∀ id < a.size,
      d.probes[id]? = some (((a.portsOf .output id).map fun n => flat ⟨id, n⟩).map some) := by
  obtain ⟨hflatten, htrails⟩ := trails_of_flattenProbed ha h
  obtain ⟨flat, hflat, _⟩ := exists_placement ha htrails
  obtain ⟨hflattened, hsize⟩ := flattened_of_flatten ha hflat hflatten
  refine ⟨flat, ⟨hflattened, htrails, hflat, hsize⟩, ?_⟩
  obtain ⟨_, _, probes, hprobes, hd⟩ := flattenProbed_eq_ok h
  rw [Outcome.mapM_of_forall fun i _ => flatPorts_eq ha hflat .output i] at hprobes
  obtain rfl := Except.ok.inj hprobes
  intro id hid
  simp [hd, hid]

/-- An edge of an instance goes into an input of its own that draws on another instance, and not on
an input of the whole. -/
def Backdrives (a : Assembly) (id : Nat) : Prop :=
  ∃ cell x y via t, a.cell? id = some cell ∧ x ∈ cell.circuit.graph.predecessors y ∧
    a.Trail ⟨id, y⟩ via t ∧ t.id ≠ id ∧ ¬ (t.id ∈ a.inputs ∧ t.node ∈ a.portsOf .input t.id)

theorem Backdrives.lt {a : Assembly} {id : Nat} (h : a.Backdrives id) : id < a.size := by
  obtain ⟨_, _, _, _, _, hcell, _⟩ := h
  exact lt_of_cell? hcell

theorem Resolved.position?_eq {a : Assembly} {flat : Site → Nat} {c : Circuit}
    (h : a.Resolved flat c) (ha : a.WellFormed) {s t : Site} {via : List Site} (hs : s ∈ a.sites)
    (htrail : a.Trail s via t) : (Layout.ofAssembly a).position? t = some (flat s) := by
  obtain ⟨k, hk, hposition⟩ := Layout.resolve_of_trail ha hs htrail
  rw [hposition, Except.ok.inj (hk.symm.trans (h.resolve s hs))]

namespace Begins

variable {a b : Assembly} {flat flat' : Site → Nat} {c c' : Circuit} (h : a.Begins b)
  (ha : a.WellFormed) (hr : a.Resolved flat c) (hr' : b.Resolved flat' c')

include h in
theorem portsOf_eq {i : Nat} (hi : i < a.size) (side : Side) :
    b.portsOf side i = a.portsOf side i := by
  unfold portsOf
  rw [h.cell?_eq hi]

include h ha hr hr'

theorem mem_inputs_of_further (hb : b.WellFormed)
    (hquiet : ∀ id, a.size ≤ id → ¬ b.Backdrives id) {i x y : Nat} {cell : Cell} (hi : a.size ≤ i)
    (hcell : b.cell? i = some cell) (hxy : x ∈ cell.circuit.graph.predecessors y)
    (hold : flat' ⟨i, y⟩ < c.size) : flat' ⟨i, y⟩ ∈ c.inputs := by
  have hsite := (mem_sites_of_feeds hcell hxy).2
  obtain ⟨via, t, htrail⟩ := hr'.trails _ hsite
  have hposition := (h.position?_eq_some_iff ha).mpr
    ⟨hr'.position?_eq hb hsite htrail, hr.size ▸ hold⟩
  obtain ⟨ht, hown⟩ := Layout.mem_placed_iff.mp
    (Layout.isSome_position?_iff.mp (Option.isSome_of_eq_some hposition))
  have hid := id_lt_of_mem_sites ht
  have hport : t.id ∈ b.inputs ∧ t.node ∈ b.portsOf .input t.id := by
    apply Classical.byContradiction
    intro hport
    refine hquiet i hi ⟨cell, x, y, via, t, hcell, hxy, htrail, ?_, hport⟩
    omega
  rw [h.inputs, h.portsOf_eq hid] at hport
  have hflat : flat t = flat' ⟨i, y⟩ :=
    Option.some.inj ((hr.position?_eq ha ht (.here hown)).symm.trans hposition)
  rw [hr.inputs]
  exact List.mem_flatMap.mpr ⟨t.id, hport.1, List.mem_map.mpr ⟨t.node, hport.2, hflat⟩⟩

variable (hb : b.WellFormed)
include hb

theorem flat_eq {s : Site} (hs : s ∈ a.sites) : flat' s = flat s := by
  obtain ⟨via, t, htrail⟩ := hr.trails s hs
  obtain ⟨rest, hrest⟩ := h.sites_eq
  have hs' : s ∈ b.sites := hrest ▸ List.mem_append_left rest hs
  have hresolve := h.resolve_eq ha hb hs htrail
  rw [hr.resolve s hs, hr'.resolve s hs'] at hresolve
  exact Except.ok.inj hresolve

theorem flatPorts_eq {ids : List Nat} (hids : ∀ i ∈ ids, i < a.size) (side : Side) :
    (ids.flatMap fun i => (b.portsOf side i).map fun n => flat' ⟨i, n⟩) =
      ids.flatMap fun i => (a.portsOf side i).map fun n => flat ⟨i, n⟩ := by
  rw [List.flatMap_def, List.flatMap_def]
  refine congrArg List.flatten (List.map_congr_left fun i hi => ?_)
  rw [h.portsOf_eq (hids i hi)]
  exact List.map_congr_left fun n hn => h.flat_eq ha hr hr' hb (ha.mem_sites_of_port hn)

theorem feeds_iff (hquiet : ∀ id, a.size ≤ id → ¬ b.Backdrives id) {u v : Nat} (hv : v < c.size)
    (hin : v ∉ c.inputs) : u ∈ c'.graph.predecessors v ↔ u ∈ c.graph.predecessors v := by
  rw [hr.feeds, hr'.feeds]
  constructor
  · intro hedge
    obtain ⟨i, cell, x, y, hcell, hxy, hx, hy⟩ := hedge
    by_cases hi : i < a.size
    · rw [h.cell?_eq hi] at hcell
      obtain ⟨hsx, hsy⟩ := mem_sites_of_feeds hcell hxy
      rw [h.flat_eq ha hr hr' hb hsx] at hx
      rw [h.flat_eq ha hr hr' hb hsy] at hy
      exact ⟨i, cell, x, y, hcell, hxy, hx, hy⟩
    · subst hy
      have hle := Nat.le_of_not_lt hi
      exact absurd (h.mem_inputs_of_further ha hr hr' hb hquiet hle hcell hxy hv) hin
  · intro hedge
    obtain ⟨i, cell, x, y, hcell, hxy, hx, hy⟩ := hedge
    obtain ⟨hsx, hsy⟩ := mem_sites_of_feeds hcell hxy
    rw [← h.flat_eq ha hr hr' hb hsx] at hx
    rw [← h.flat_eq ha hr hr' hb hsy] at hy
    refine ⟨i, cell, x, y, ?_, hxy, hx, hy⟩
    rw [h.cell?_eq (lt_of_cell? hcell), hcell]

theorem embeds (hquiet : ∀ id, a.size ≤ id → ¬ b.Backdrives id) : c.Embeds c' where
  size_le := by
    obtain ⟨rest, hrest⟩ := h.placed_eq ha
    rw [hr.size, hr'.size, Layout.size_eq, Layout.size_eq, hrest, List.length_append]
    omega
  inputs := by
    rw [hr.inputs, hr'.inputs, h.inputs, h.flatPorts_eq ha hr hr' hb ha.inputs]
  outputs := by
    rw [hr.outputs, hr'.outputs, h.outputs, h.flatPorts_eq ha hr hr' hb ha.outputs]
  feeds := fun _ _ hv hin => h.feeds_iff ha hr hr' hb hquiet hv hin

end Begins

theorem WellFormed.plugAll {consumer : Nat} (producers : List Nat) {a b : Assembly}
    (h : a.WellFormed) (hplug : a.plugAll consumer producers = .ok b) : b.WellFormed := by
  induction producers generalizing a with
  | nil =>
    obtain rfl := Except.ok.inj hplug
    exact h
  | cons producer rest ih =>
    obtain ⟨a₁, hfirst, hrest⟩ := Outcome.bind_eq_ok.mp hplug
    exact ih (h.plug hfirst) hrest

/-- An instance is added and plugged. If none of its edges goes into an input of its own that draws
on another instance, inputs of the whole apart, then both assemblies give the same outputs, and on
every input vector the probes of the old instances are where they were and show the same levels. -/
theorem consumer_keeps_producers (a : Assembly) (ha : a.Reachable) (cell : Cell)
    (hcell : cell.circuit.Accepted) (name : Option String) (producers : List Nat) (b : Assembly)
    (hadded : (a.add cell name).2.plugAll a.size producers = .ok b)
    (hquiet : ¬ b.Backdrives a.size) (d e : ProbedCell) (hd : a.flattenProbed = .ok d)
    (he : b.flattenProbed = .ok e) :
    (∀ values, e.cell.circuit.simulate values = d.cell.circuit.simulate values) ∧
      ∀ values, values.length = d.cell.circuit.inputs.length →
        ∃ s t, d.cell.circuit.simulation values = .ok s ∧
          e.cell.circuit.simulation values = .ok t ∧
          ∀ id < a.size, ∃ nodes : List Nat, d.probes[id]? = some (nodes.map some) ∧
            e.probes[id]? = some (nodes.map some) ∧ nodes.map t.level = nodes.map s.level := by
  have hwf := ha.wellFormed
  have hwf' : b.WellFormed := (hwf.add hcell.wellFormed name).plugAll producers hadded
  obtain ⟨hshape, hinputs, houtputs, _⟩ := shape_of_install hadded
  have hbegins : a.Begins b := ⟨⟨_, hshape⟩, hinputs, houtputs⟩
  have hquiet' : ∀ id, a.size ≤ id → ¬ b.Backdrives id := by
    intro id hid hdrives
    have hlt := hdrives.lt
    rw [← length_shape, hshape, List.length_append, length_shape, List.length_singleton] at hlt
    obtain rfl : id = a.size := by omega
    exact hquiet hdrives
  obtain ⟨flat, hr, hprobes⟩ := exists_resolved hwf hd
  obtain ⟨flat', hr', hprobes'⟩ := exists_resolved hwf' he
  have hembeds := hbegins.embeds hwf hr hr' hwf' hquiet'
  have hc := hr.accepted.wellFormed
  have hc' := hr'.accepted.wellFormed
  refine ⟨hembeds.simulate_eq hc hc', fun values hlen => ?_⟩
  obtain ⟨s, t, hs, ht, hlevels⟩ := hembeds.simulations hc hc' hlen
  refine ⟨s, t, hs, ht, fun id hid => ?_⟩
  have hsame : (a.portsOf .output id).map (fun n => flat' ⟨id, n⟩) =
      (a.portsOf .output id).map fun n => flat ⟨id, n⟩ :=
    List.map_congr_left fun n hn => hbegins.flat_eq hwf hr hr' hwf' (hwf.mem_sites_of_port hn)
  refine ⟨(a.portsOf .output id).map fun n => flat ⟨id, n⟩, hprobes id hid, ?_, ?_⟩
  · rw [hprobes' id (Nat.lt_of_lt_of_le hid hbegins.size_le), hbegins.portsOf_eq hid, hsame]
  · refine List.map_congr_left fun k hk => hlevels k ?_
    obtain ⟨n, hn, rfl⟩ := List.mem_map.mp hk
    obtain ⟨via, site, htrail⟩ := hr.trails _ (hwf.mem_sites_of_port hn)
    rw [hr.size]
    exact Layout.lt_of_position? (hr.position?_eq hwf (hwf.mem_sites_of_port hn) htrail)

def negated : Assembly where
  instances := #[⟨.identity 1, [], none⟩, ⟨⟨.inverter, [⟨"in", 1⟩], [⟨"out", 1⟩]⟩, [0], none⟩]
  inputs := [0]
  outputs := [1]
  strict := false

theorem negated_reachable : negated.Reachable := by
  have hadded := ((Reachable.empty false).add (.identity 1) (by cbv)).add
    ⟨.inverter, [⟨"in", 1⟩], [⟨"out", 1⟩]⟩ (by cbv)
  exact ((hadded.plug 1 0 rfl).markInput 0 rfl).markOutput 1 rfl

/-- An input into which a node without predecessors has an edge. -/
def leak : Cell where
  circuit := ⟨.ofEdgesWithin 2 [(1, 0)] (by decide), [0], []⟩
  inputGroups := [⟨"in", 1⟩]
  outputGroups := []

def leaking : Assembly :=
  { negated with instances := negated.instances.push ⟨leak, [0], none⟩ }

theorem leaking_quiet : ¬ leaking.Backdrives 2 := by
  intro hdrives
  obtain ⟨cell, x, y, via, t, hcell, hxy, htrail, _, hport⟩ := hdrives
  obtain rfl : leak = cell := Option.some.inj hcell
  obtain ⟨_, rfl⟩ : x = 1 ∧ y = 0 := by
    rw [← Graph.mem_successors_iff] at hxy
    simpa [leak, Graph.successors_ofEdgesWithin] using hxy
  have hleads : leaking.Trail ⟨2, 0⟩ [⟨2, 0⟩] ⟨0, 0⟩ :=
    .step ⟨0, .identity 1, rfl, rfl, rfl⟩ (.here rfl)
  obtain ⟨_, rfl⟩ := hleads.unique htrail
  exact hport (by decide)

/-- A leak into the input of the whole goes unheeded. -/
theorem leak_keeps_producers :
    (negated.add leak none).2.plugAll negated.size [0] = .ok leaking ∧ ¬ leaking.Backdrives 2 ∧
      ∃ d e, negated.flattenProbed = .ok d ∧ leaking.flattenProbed = .ok e ∧
        d.cell.circuit.simulate [true] = .ok [false] ∧
        e.cell.circuit.simulate [true] = .ok [false] := by
  have hadded : (negated.add leak none).2.plugAll negated.size [0] = .ok leaking := rfl
  have hbits : negated.flattenProbed.map (fun d => d.cell.circuit.simulate [true]) =
      .ok (.ok [false]) := by
    cbv
  obtain ⟨d, hd, hsimulate⟩ := Outcome.map_eq_ok.mp hbits
  have hflattens : leaking.flattenProbed.map (fun e => e.cell.circuit.size) = .ok 3 := by cbv
  obtain ⟨e, he, _⟩ := Outcome.map_eq_ok.mp hflattens
  have hsame := (consumer_keeps_producers negated negated_reachable leak (by cbv) none [0] leaking
    hadded leaking_quiet d e hd he).1 [true]
  exact ⟨hadded, leaking_quiet, d, e, hd, he, hsimulate, hsame.trans hsimulate⟩

/-- The leak on the negation is a further predecessor of its node. -/
theorem leak_changes_producer :
    negated.Reachable ∧ leak.circuit.Accepted ∧
      (negated.flattenProbed.map fun d => (d.probes, d.cell.circuit.simulate [true])) =
        .ok ([[some 0], [some 1]], .ok [false]) ∧
      (((negated.add leak none).2.plugAll negated.size [1] >>= flattenProbed).map fun e =>
        (e.probes, e.cell.circuit.simulate [true])) =
          .ok ([[some 0], [some 1], []], .ok [true]) :=
  ⟨negated_reachable, by cbv, by cbv, by cbv⟩

end Assembly

end WireLogic
