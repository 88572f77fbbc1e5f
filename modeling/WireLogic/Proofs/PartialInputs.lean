import WireLogic.Proofs.Simulation

/-!
# Propagation from some of the inputs

Inputs are assigned one by one, in any order and with runs in between. After a last run every node
is at the level that follows from the inputs assigned, with all others unknown, and a known level is
one that no values of the other inputs can change.
-/

namespace WireLogic

set_option autoImplicit false

namespace Propagation

inductive Call where
  | assign (node : Nat) (value : Bool)
  | run (drain : Drain)

/-- What a call gives; `none` if it names a node that the circuit does not have. -/
def Call.apply (p : Propagation) : Call → Option (Except Nat Propagation)
  | assign node value => p.assign? node value
  | run drain => some (p.runWith drain)

def callAll : Propagation → List Call → Option (Except Nat Propagation)
  | p, [] => some (.ok p)
  | p, call :: calls =>
    match call.apply p with
    | some (.ok p) => callAll p calls
    | failed => failed

def Call.assignment? : Call → Option (Nat × Bool)
  | assign node value => some (node, value)
  | run _ => none

def assignments (calls : List Call) : List (Nat × Bool) := calls.filterMap Call.assignment?

section Calls

variable {c : Circuit} {given lev : Nat → Level}

theorem Tracks.call (hlev : c.Leveling given lev) {p : Propagation} (h : Tracks c lev p)
    {call : Call}
    (hcall : ∀ n b, call.assignment? = some (n, b) → n < c.size ∧ lev n = .known b) :
    ∃ p', call.apply p = some (.ok p') ∧ Tracks c lev p' ∧
      (∀ n b, p.level n = .known b → p'.level n = .known b) ∧
      ∀ n b, call.assignment? = some (n, b) → p'.level n = .known b := by
  cases call with
  | assign node value =>
    obtain ⟨hnode, hvalue⟩ := hcall node value rfl
    obtain ⟨p', hassign, hp', hadvances, hset⟩ := (h.cons hnode hvalue).assign hlev
    refine ⟨p', ?_, hp', hadvances.keeps, ?_⟩
    · have hnode' : node < p.circuit.size := h.circuit ▸ hnode
      simp [Call.apply, assign?, hnode', hassign]
    · intro n b hn
      obtain ⟨rfl, rfl⟩ := Prod.mk.inj (Option.some.inj hn)
      exact hset
  | run drain =>
    obtain ⟨p', hrun, hp', hkeeps, _⟩ := runWith_spec hlev drain h
    exact ⟨p', congrArg some hrun, hp', hkeeps, fun n b hn => by simp [Call.assignment?] at hn⟩

theorem Tracks.callAll (hlev : c.Leveling given lev) (calls : List Call) {p : Propagation}
    (h : Tracks c lev p)
    (hcalls : ∀ n b, (n, b) ∈ assignments calls → n < c.size ∧ lev n = .known b) :
    ∃ p', p.callAll calls = some (.ok p') ∧ Tracks c lev p' ∧
      (∀ n b, p.level n = .known b → p'.level n = .known b) ∧
      ∀ n b, (n, b) ∈ assignments calls → p'.level n = .known b := by
  induction calls generalizing p with
  | nil => exact ⟨p, rfl, h, fun _ _ hn => hn, by simp [assignments]⟩
  | cons call calls ih =>
    have hmem : ∀ n b, (n, b) ∈ assignments (call :: calls) ↔
        call.assignment? = some (n, b) ∨ (n, b) ∈ assignments calls := by
      intro n b
      simp only [assignments, List.mem_filterMap, List.mem_cons, exists_eq_or_imp]
    obtain ⟨q, hcall, hq, hkeeps, hset⟩ :=
      h.call hlev fun n b hn => hcalls n b ((hmem n b).mpr (.inl hn))
    obtain ⟨p', hrest, hp', hkeeps', hset'⟩ :=
      ih hq fun n b hn => hcalls n b ((hmem n b).mpr (.inr hn))
    refine ⟨p', ?_, hp', fun n b hn => hkeeps' n b (hkeeps n b hn), ?_⟩
    · unfold Propagation.callAll
      rw [hcall]
      exact hrest
    · intro n b hn
      rcases (hmem n b).mp hn with hn | hn
      · exact hkeeps' n b (hset n b hn)
      · exact hset' n b hn

theorem callAll_append {p q : Propagation} {calls : List Call}
    (h : p.callAll calls = some (.ok q)) (more : List Call) :
    p.callAll (calls ++ more) = q.callAll more := by
  induction calls generalizing p with
  | nil =>
    obtain rfl : p = q := Except.ok.inj (Option.some.inj h)
    rfl
  | cons call calls ih =>
    rw [List.cons_append, callAll]
    rw [callAll] at h
    split at h
    · exact ih h
    · rename_i hfailed
      exact absurd h (hfailed q)

end Calls

end Propagation

namespace Circuit

theorem mem_of_assigned {pairs : List (Nat × Bool)} {n : Nat} {b : Bool}
    (h : assigned pairs n = .known b) : (n, b) ∈ pairs := by
  unfold assigned at h
  split at h
  · rename_i value hlookup
    obtain rfl := Level.known.inj h
    obtain ⟨before, after, rfl, _⟩ := List.lookup_eq_some_iff.mp hlookup
    simp
  · simp at h

/-- On these values, all nodes that are at known levels have them. -/
def Foretells (c : Circuit) (lev : Nat → Level) (values : List Bool) : Prop :=
  ∀ drain, ∃ s, c.simulationWith drain values = .ok s ∧
    ∀ n b, lev n = .known b → s.level n = .known b

theorem Leveling.foretells {c : Circuit} (hc : c.WellFormed) {given lev : Nat → Level}
    (h : c.Leveling given lev) (hlt : ∀ n b, lev n = .known b → n < c.size) {values : List Bool}
    (hlen : values.length = c.inputs.length)
    (hgiven : ∀ n b, given n = .known b → (n, b) ∈ c.inputs.zip values) :
    c.Foretells lev values := by
  intro drain
  obtain ⟨val, hval⟩ := exists_valuation hc hlen
  obtain ⟨s, hs, _, _, hlevel⟩ := simulationWith_of_valuation hc hval drain
  have hinputs : ∀ n ∈ c.inputs, ∀ b, given n = .known b → val n = b := by
    intro n _ b hb
    have hmem := hgiven n b hb
    rw [hval.zip_inputs] at hmem
    obtain ⟨m, _, heq⟩ := List.mem_map.mp hmem
    obtain ⟨rfl, rfl⟩ := Prod.mk.inj heq
    rfl
  refine ⟨s, hs, ?_⟩
  intro n b hb
  rw [hlevel n (hlt n b hb), h.sound hc hval.consistent hinputs n (hlt n b hb) b hb]

end Circuit

namespace Propagation

theorem lt_of_level {p : Propagation} {n : Nat} {b : Bool} (h : p.level n = .known b) :
    n < p.levels.size := by
  by_contra hn
  simp [level, Array.getD_eq_getD_getElem?, hn] at h

theorem callAll_spec {c : Circuit} (hc : c.WellFormed) (calls : List Call)
    (hinputs : ∀ n b, (n, b) ∈ assignments calls → n ∈ c.inputs)
    (hdistinct : ((assignments calls).map (·.1)).Nodup) (drain : Drain) :
    ∃ p, (start c).callAll (calls ++ [.run drain]) = some (.ok p) ∧ p.Done ∧
      p.levels.size = c.size ∧ c.Leveling (Circuit.assigned (assignments calls)) p.level := by
  obtain ⟨lev, hlev⟩ :=
    Circuit.Leveling.exists_of_acyclic hc.acyclic (Circuit.assigned (assignments calls))
  have hcalls : ∀ n b, (n, b) ∈ assignments calls → n < c.size ∧ lev n = .known b := by
    intro n b hn
    have hin := hinputs n b hn
    exact ⟨hc.inputs_lt n hin, (hlev.input n hin).trans (Circuit.assigned_of_mem hdistinct hn)⟩
  obtain ⟨q, hq, htracks, _, hset⟩ := (start_tracks hlev).callAll hlev calls hcalls
  obtain ⟨p, hrun, hp, hkeeps, hdone⟩ := runWith_spec hlev drain htracks
  refine ⟨p, ?_, hdone, hp.size, hlev.congr hc (hp.level_eq hlev hc hdone ?_)⟩
  · rw [callAll_append hq]
    simp [Propagation.callAll, Call.apply, hrun]
  · intro n hn
    apply Level.eq_of_known_iff
    intro b
    refine ⟨hp.level_sound n b, ?_⟩
    intro hb
    rw [hlev.input n hn] at hb
    exact hkeeps n b (hset n b (Circuit.mem_of_assigned hb))

/-- Assigning distinct inputs, with runs anywhere in between and one at the end, never fails. The
levels it leads to are the only ones at which the assigned inputs have their values, the other
inputs are unknown, and all other nodes follow from their predecessors. They foretell every
simulation in which the assigned inputs have these values; the levels found without any assignment
foretell all simulations. -/
theorem callAll_exact (c : Circuit) (hc : c.Accepted) (calls : List Call)
    (hinputs : ∀ n b, (n, b) ∈ assignments calls → n ∈ c.inputs)
    (hdistinct : ((assignments calls).map (·.1)).Nodup) (drain : Drain) :
    (∃ p, (start c).callAll (calls ++ [.run drain]) = some (.ok p) ∧ p.Done ∧
      p.levels.size = c.size ∧ c.Leveling (Circuit.assigned (assignments calls)) p.level ∧
      (∀ lev, c.Leveling (Circuit.assigned (assignments calls)) lev →
        ∀ n, n < c.size → lev n = p.level n) ∧
      ∀ values, values.length = c.inputs.length →
        (∀ n b, (n, b) ∈ assignments calls → (n, b) ∈ c.inputs.zip values) →
        c.Foretells p.level values) ∧
    ∃ s, c.constants = .ok s ∧ c.Leveling (fun _ => .unknown) s.level ∧
      ∀ values, values.length = c.inputs.length → c.Foretells s.level values := by
  have hwf := hc.wellFormed
  constructor
  · obtain ⟨p, hp, hdone, hsize, hlev⟩ := callAll_spec hwf calls hinputs hdistinct drain
    refine ⟨p, hp, hdone, hsize, hlev, ?_, ?_⟩
    · exact fun lev hlev' => hlev.unique hwf hlev' fun _ _ => rfl
    · intro values hlen hextends
      apply hlev.foretells hwf (fun n b hb => hsize ▸ lt_of_level hb) hlen
      exact fun n b hb => hextends n b (Circuit.mem_of_assigned hb)
  · obtain ⟨p, hp, _, hsize, hlev⟩ := callAll_spec hwf [] (by simp [assignments])
      (by simp [assignments]) .ascending
    have hrun : (start c).runWith .ascending = .ok p := by
      cases hstart : (start c).runWith .ascending with
      | error n => simp [Propagation.callAll, Call.apply, hstart] at hp
      | ok q => simpa [Propagation.callAll, Call.apply, hstart] using hp
    refine ⟨⟨p.levels, c.outputs⟩, by simp [Circuit.constants, Circuit.conclude, hrun], hlev, ?_⟩
    intro values hlen
    apply hlev.foretells hwf (fun n b hb => hsize ▸ lt_of_level hb) hlen
    exact fun n b hb => absurd (Circuit.mem_of_assigned hb) List.not_mem_nil

/-- One false input is enough to tell the level of a NAND and of its negation. -/
theorem linkedNand_callAll_exact :
    Circuit.linkedNand.Accepted ∧ ∃ p,
      (start Circuit.linkedNand).callAll
        [.run .ascending, .assign 1 false, .run .ascending, .run .ascending] = some (.ok p) ∧
      p.level 0 = .unknown ∧ p.level 3 = .known false ∧
      Circuit.linkedNand.Foretells p.level [true, false] := by
  have hc : Circuit.linkedNand.Accepted := by cbv
  obtain ⟨⟨p, hp, _, _, _, _, hforetells⟩, _⟩ := callAll_exact Circuit.linkedNand hc
    [.run .ascending, .assign 1 false, .run .ascending]
    (by simp [assignments, Call.assignment?, Circuit.linkedNand]) (by decide) .ascending
  have hlevels : ((start Circuit.linkedNand).callAll
      [.run .ascending, .assign 1 false, .run .ascending, .run .ascending]).map
        (·.map fun p => (p.level 0, p.level 3)) = some (.ok (.unknown, .known false)) := by
    cbv
  rw [List.cons_append, List.cons_append, List.cons_append, List.nil_append] at hp
  rw [hp] at hlevels
  obtain ⟨hopen, hfalse⟩ := Prod.mk.inj (Except.ok.inj (Option.some.inj hlevels))
  refine ⟨hc, p, hp, hopen, hfalse, hforetells [true, false] rfl ?_⟩
  simp [assignments, Call.assignment?, Circuit.linkedNand]

end Propagation

end WireLogic
