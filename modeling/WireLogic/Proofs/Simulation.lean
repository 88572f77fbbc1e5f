import WireLogic.Proofs.Propagation
import WireLogic.Simulation.Basic

/-!
# Simulation is total and exact

On as many values as there are inputs, a simulation ends and every node has the value that the
inputs determine. It fails on any other number of values, and only then. The order in which nodes
set aside are looked at makes no difference.
-/

namespace WireLogic.Circuit

set_option autoImplicit false

def assigned (pairs : List (Nat × Bool)) (node : Nat) : Level :=
  match pairs.lookup node with
  | some b => .known b
  | none => .unknown

theorem assigned_of_mem {pairs : List (Nat × Bool)} (hkeys : (pairs.map (·.1)).Nodup) {n : Nat}
    {b : Bool} (h : (n, b) ∈ pairs) : assigned pairs n = .known b := by
  have hlookup : pairs.lookup n = some b := by
    induction pairs with
    | nil => simp at h
    | cons a pairs ih =>
      obtain ⟨ha, hkeys⟩ := List.nodup_cons.mp hkeys
      rcases List.mem_cons.mp h with rfl | h
      · simp
      · have hne : n ≠ a.1 := by
          rintro rfl
          exact ha (List.mem_map.mpr ⟨(a.1, b), h, rfl⟩)
        rw [List.lookup_cons, beq_eq_false_iff_ne.mpr hne]
        exact ih hkeys h
  simp [assigned, hlookup]

theorem assignAll_ends {c : Circuit} {forced bad : Nat → Prop} {holds : Propagation → Prop}
    (hstable : Propagation.Stable c forced bad holds) (pairs : List (Nat × Bool))
    (hdue : ∀ n b, (n, b) ∈ pairs → ∀ p : Propagation, holds p →
      holds { p with pending := (n, b) :: p.pending }) {p : Propagation} (h : holds p) :
    Outcome.Ends bad (fun q => holds q ∧ (∀ n b, p.level n = .known b → q.level n = .known b) ∧
      ∀ n b, (n, b) ∈ pairs → q.level n = .known b) (assignAll p pairs) := by
  induction pairs generalizing p with
  | nil => exact ⟨h, fun _ _ hn => hn, by simp⟩
  | cons a pairs ih =>
    obtain ⟨node, value⟩ := a
    have hfirst := hdue node value List.mem_cons_self p h
    refine (hstable.assign p node value hfirst).bind fun q hassign hq => ?_
    obtain ⟨_, hadvances, hset⟩ := (hstable.coherent _ hfirst).assign.of_ok hassign
    have hrest := ih (fun n b hn => hdue n b (List.mem_cons_of_mem _ hn)) hq
    refine hrest.imp fun p' _ hp' => ?_
    obtain ⟨hp', hkeeps, hall⟩ := hp'
    refine ⟨hp', fun n b hn => hkeeps n b (hadvances.keeps n b hn), ?_⟩
    intro n b hn
    rcases List.mem_cons.mp hn with heq | hn
    · obtain ⟨rfl, rfl⟩ := Prod.mk.inj heq
      exact hkeeps n b hset
    · exact hall n b hn

section

variable {c : Circuit} {given lev : Nat → Level}

theorem assignAll_spec (hlev : c.Leveling given lev) (pairs : List (Nat × Bool))
    (hpairs : ∀ n b, (n, b) ∈ pairs → n < c.size ∧ lev n = .known b) {p : Propagation}
    (h : p.Tracks c lev) :
    ∃ p', assignAll p pairs = .ok p' ∧ p'.Tracks c lev ∧
      (∀ n b, p.level n = .known b → p'.level n = .known b) ∧
      ∀ n b, (n, b) ∈ pairs → p'.level n = .known b := by
  apply (assignAll_ends (Propagation.tracks_kept hlev).toStable pairs ?_ h).exists_ok
  intro n b hn q hq
  obtain ⟨hlt, hvalue⟩ := hpairs n b hn
  exact Propagation.Tracks.cons hq hlt hvalue

theorem exists_valuation (hc : c.WellFormed) {values : List Bool}
    (hlen : values.length = c.inputs.length) : ∃ val, c.Valuation values val := by
  obtain ⟨lev, hlev⟩ := Leveling.exists_of_acyclic hc.acyclic (assigned (c.inputs.zip values))
  have hkeys : ((c.inputs.zip values).map (·.1)).Nodup := by
    rw [List.map_fst_zip (by omega)]
    exact hc.inputs_nodup
  have hinput : ∀ k (hk : k < c.inputs.length),
      lev c.inputs[k] = .known (values.get ⟨k, by omega⟩) := by
    intro k hk
    rw [hlev.input _ (List.getElem_mem hk)]
    refine assigned_of_mem hkeys (List.mem_iff_getElem.mpr ⟨k, by simp [hlen, hk], by simp⟩)
  have hknown : ∀ n, n < c.size → ∃ b, lev n = .known b := by
    refine hlev.known hc fun n hn => ?_
    obtain ⟨k, hk, rfl⟩ := List.mem_iff_getElem.mp hn
    exact ⟨_, (hlev.input _ hn).symm.trans (hinput k hk)⟩
  refine ⟨_, ?_, hlev.consistent hknown⟩
  refine List.ext_getElem (by simp [hlen]) fun k hk _ => ?_
  have hk' : k < c.inputs.length := by simpa using hk
  cases hb : values.get ⟨k, by omega⟩ <;> simp_all

theorem Valuation.zip_inputs {values : List Bool} {val : Nat → Bool}
    (hval : c.Valuation values val) :
    c.inputs.zip values = c.inputs.map fun n => (n, val n) := by
  rw [← hval.inputs]
  simpa using List.zip_map' (f := id) (g := val) (l := c.inputs)

/-- A run on the values of the inputs finds the values of all nodes, in whatever order it looks at
the nodes set aside, and leaves nothing undone. -/
theorem run_of_valuation (hc : c.WellFormed) {values : List Bool} {val : Nat → Bool}
    (hval : c.Valuation values val) (drain : Drain) :
    ∃ p₀ p, assignAll (.start c) (c.inputs.zip values) = .ok p₀ ∧ p₀.runWith drain = .ok p ∧
      p.Done ∧ p.levels.size = c.size ∧ ∀ n, n < c.size → p.level n = .known (val n) := by
  have hlev := hval.consistent.leveling
  have hpairs := hval.zip_inputs
  have hagree : ∀ n b, (n, b) ∈ c.inputs.zip values → n < c.size ∧ Level.known (val n) = .known b := by
    intro n b hn
    rw [hpairs] at hn
    obtain ⟨m, hm, heq⟩ := List.mem_map.mp hn
    obtain ⟨rfl, rfl⟩ := Prod.mk.inj heq
    exact ⟨hc.inputs_lt m hm, rfl⟩
  obtain ⟨p₀, hassign, hp₀, _, hset⟩ :=
    assignAll_spec hlev _ hagree (Propagation.start_tracks hlev)
  obtain ⟨p, hrun, hp, hkeeps, hdone⟩ := Propagation.runWith_spec hlev drain hp₀
  refine ⟨p₀, p, hassign, hrun, hdone, hp.size, hp.level_eq hlev hc hdone ?_⟩
  intro n hn
  refine hkeeps n _ (hset n _ ?_)
  rw [hpairs]
  exact List.mem_map_of_mem hn

theorem simulationWith_of_valuation (hc : c.WellFormed) {values : List Bool} {val : Nat → Bool}
    (hval : c.Valuation values val) (drain : Drain) :
    ∃ s, c.simulationWith drain values = .ok s ∧ s.outputs = c.outputs ∧
      s.levels.size = c.size ∧ ∀ n, n < c.size → s.level n = .known (val n) := by
  obtain ⟨p₀, p, hassign, hrun, _, hsize, hlevel⟩ := run_of_valuation hc hval drain
  refine ⟨⟨p.levels, c.outputs⟩, ?_, rfl, hsize, hlevel⟩
  simp [simulationWith, hval.length_eq, conclude, hassign, hrun]

theorem outputBits_of_known {s : Simulation} {val : Nat → Bool}
    (h : ∀ n ∈ s.outputs, s.level n = .known (val n)) :
    s.outputBits = .ok (s.outputs.map val) := by
  have hfrom : ∀ (nodes : List Nat) (index : Nat), (∀ n ∈ nodes, s.level n = .known (val n)) →
      s.outputBitsFrom index nodes = .ok (nodes.map val) := by
    intro nodes
    induction nodes with
    | nil => exact fun _ _ => rfl
    | cons node rest ih =>
      intro index hnodes
      unfold Simulation.outputBitsFrom
      rw [hnodes node List.mem_cons_self,
        ih (index + 1) fun n hn => hnodes n (List.mem_cons_of_mem node hn)]
      rfl
  exact hfrom s.outputs 0 h

theorem simulateWith_of_valuation (hc : c.WellFormed) {values : List Bool} {val : Nat → Bool}
    (hval : c.Valuation values val) (drain : Drain) :
    c.simulateWith drain values = .ok (c.outputs.map val) := by
  obtain ⟨s, hs, houtputs, _, hlevel⟩ := simulationWith_of_valuation hc hval drain
  have hbits : s.outputBits = .ok (c.outputs.map val) := by
    rw [← houtputs]
    refine outputBits_of_known fun n hn => hlevel n (hc.outputs_lt n ?_)
    rwa [← houtputs]
  unfold simulateWith
  rw [hs]
  exact hbits

theorem simulate_of_valuation (hc : c.WellFormed) {values : List Bool} {val : Nat → Bool}
    (hval : c.Valuation values val) : c.simulate values = .ok (c.outputs.map val) :=
  simulateWith_of_valuation hc hval .ascending

theorem simulationWith_of_length_ne {values : List Bool} (h : values.length ≠ c.inputs.length)
    (drain : Drain) :
    c.simulationWith drain values =
      .error (.inputCountMismatch c.inputs.length values.length) := by
  simp [simulationWith, h]

theorem simulateWith_of_length_ne {values : List Bool} (h : values.length ≠ c.inputs.length)
    (drain : Drain) :
    c.simulateWith drain values = .error (.inputCountMismatch c.inputs.length values.length) := by
  unfold simulateWith
  rw [simulationWith_of_length_ne h]
  rfl

/-- Propagating without any assignment finds the levels that follow when no input is known. -/
theorem constants_spec (hc : c.WellFormed) :
    ∃ s, c.constants = .ok s ∧ c.Leveling (fun _ => .unknown) s.level := by
  obtain ⟨lev, hlev⟩ := Leveling.exists_of_acyclic hc.acyclic fun _ => .unknown
  obtain ⟨p, hrun, hp, _, hdone⟩ :=
    Propagation.runWith_spec hlev .ascending (Propagation.start_tracks hlev)
  refine ⟨⟨p.levels, c.outputs⟩, by simp [constants, conclude, hrun], hlev.congr hc ?_⟩
  refine hp.level_eq hlev hc hdone fun n hn => ?_
  rw [hlev.input n hn]
  cases hlevel : p.level n with
  | unknown => rfl
  | known b =>
    have hb := hp.level_sound n b hlevel
    rw [hlev.input n hn] at hb
    simp at hb

end

/-- A simulation fails exactly when the number of values is wrong. Otherwise it stops because
nothing is left to do, every node is at the one value that the inputs determine, and so are the
outputs, in whatever order nodes set aside are looked at. -/
theorem simulation_total_exact (c : Circuit) (hc : c.Accepted) (values : List Bool)
    (drain : Drain) :
    (∀ e, c.simulationWith drain values = .error e ↔
      values.length ≠ c.inputs.length ∧ e = .inputCountMismatch c.inputs.length values.length) ∧
    (∀ e, c.simulateWith drain values = .error e ↔
      values.length ≠ c.inputs.length ∧ e = .inputCountMismatch c.inputs.length values.length) ∧
    (values.length = c.inputs.length →
      ∃ val, c.Valuation values val ∧
        (∀ other, c.Valuation values other → ∀ n, n < c.size → other n = val n) ∧
        (∃ p₀ p, assignAll (.start c) (c.inputs.zip values) = .ok p₀ ∧
          p₀.runWith drain = .ok p ∧ p.pending = [] ∧ p.recheck = ∅ ∧
          c.simulationWith drain values = .ok ⟨p.levels, c.outputs⟩ ∧ p.levels.size = c.size ∧
          ∀ n, n < c.size → p.levels[n]? = some (.known (val n))) ∧
        c.simulateWith drain values = .ok (c.outputs.map val)) := by
  have hwf := hc.wellFormed
  by_cases hlen : values.length = c.inputs.length
  · obtain ⟨val, hval⟩ := exists_valuation hwf hlen
    obtain ⟨p₀, p, hassign, hrun, ⟨hpending, hrecheck⟩, hsize, hlevel⟩ :=
      run_of_valuation hwf hval drain
    have hsim : c.simulationWith drain values = .ok ⟨p.levels, c.outputs⟩ := by
      simp [simulationWith, hlen, conclude, hassign, hrun]
    have hbits := simulateWith_of_valuation hwf hval drain
    refine ⟨fun e => by simp [hsim, hlen], fun e => by simp [hbits, hlen], fun _ => ?_⟩
    refine ⟨val, hval, fun other hother => hval.unique hwf hother, ?_, hbits⟩
    refine ⟨p₀, p, hassign, hrun, hpending, NodeSet.eq_empty_of_isEmpty hrecheck, hsim, hsize, ?_⟩
    intro n hn
    have hn' : n < p.levels.size := by omega
    have hlev := hlevel n hn
    simp only [Propagation.level, Array.getD_eq_getD_getElem?] at hlev
    simpa [hn'] using hlev
  · rw [simulationWith_of_length_ne hlen, simulateWith_of_length_ne hlen]
    refine ⟨fun e => ?_, fun e => ?_, fun h => absurd h hlen⟩
    · simp [hlen, eq_comm]
    · simp [hlen, eq_comm]

def inverter : Circuit where
  graph := .ofEdgesWithin 2 [(0, 1)] (by decide)
  inputs := [0]
  outputs := [1]

/-- A NAND of two inputs and its negation. The first input has an edge to the second. -/
def linkedNand : Circuit where
  graph := .ofEdgesWithin 4 [(0, 1), (0, 2), (1, 2), (2, 3)] (by decide)
  inputs := [0, 1]
  outputs := [3, 2]

/-- An edge into an input does not count, and two inputs do not take one value. -/
theorem linkedNand_simulation_exact :
    linkedNand.Accepted ∧ ∀ drain,
      linkedNand.simulateWith drain [true, false] = .ok [false, true] ∧
        linkedNand.simulationWith drain [true] = .error (.inputCountMismatch 2 1) := by
  have hc : linkedNand.Accepted := by cbv
  refine ⟨hc, fun drain => ⟨?_, ?_⟩⟩
  · obtain ⟨_, _, hok⟩ := simulation_total_exact linkedNand hc [true, false] drain
    obtain ⟨val, hval, _, _, hbits⟩ := hok rfl
    have hinputs : [val 0, val 1] = [true, false] := hval.inputs
    have hnand := hval.consistent 2 (by cbv) (by decide)
    have hnot := hval.consistent 3 (by cbv) (by decide)
    rw [show (linkedNand.graph.predecessors 2).toList = [0, 1] by cbv] at hnand
    rw [show (linkedNand.graph.predecessors 3).toList = [2] by cbv] at hnot
    rw [hbits]
    simp_all [linkedNand]
  · obtain ⟨hfail, _⟩ := simulation_total_exact linkedNand hc [true] drain
    exact (hfail _).mpr ⟨by decide, rfl⟩

end WireLogic.Circuit
