import WireLogic.Proofs.Wiring

/-!
# Layouts are exact

The flat nodes of a layout are the sites that are not plugged, one after the other, and resolving a
site finds the end of its chain of plugs. A chain may come back to an instance at another bit, even
many times, so only the number of plugged sites bounds it. Resolving gives up after one step more
than that, which is just when the chain goes on for ever.
-/

namespace WireLogic

set_option autoImplicit false

/-- By instance and then by node. -/
def Site.Before (s t : Site) : Prop := s.id < t.id ∨ s.id = t.id ∧ s.node < t.node

theorem Site.Before.asymm {s t : Site} (h : s.Before t) : ¬ t.Before s := by
  unfold Site.Before at *
  omega

theorem Site.Before.ne {s t : Site} (h : s.Before t) : s ≠ t := by
  rintro rfl
  exact h.asymm h

namespace Assembly

variable {a : Assembly} {s t : Site}

theorem sites_ascending (a : Assembly) : a.sites.Pairwise Site.Before := by
  have hid : ∀ {i : Nat} {s : Site}, s ∈ a.sitesOf i → s.id = i := by
    intro i s hs
    unfold sitesOf at hs
    split at hs
    · cases hs
    · obtain ⟨n, _, rfl⟩ := List.mem_map.mp hs
      rfl
  refine List.pairwise_flatMap.mpr ⟨fun i _ => ?_, ?_⟩
  · unfold sitesOf
    split
    · exact List.Pairwise.nil
    · exact List.pairwise_map.mpr (List.pairwise_lt_range.imp fun hlt => .inr ⟨rfl, hlt⟩)
  · refine List.pairwise_lt_range.imp fun hij s hs t ht => .inl ?_
    rwa [hid hs, hid ht]

/-- The chain of plugs from a site goes on for ever. -/
def Endless (a : Assembly) (s : Site) : Prop :=
  ∃ chain : Nat → Site, chain 0 = s ∧ ∀ k, a.Draws (chain k) (chain (k + 1))

theorem Draws.source?_isSome (h : a.Draws s t) : a.source? s ≠ none := by
  obtain ⟨bit, cell, hsource, _⟩ := h
  rw [hsource]
  exact Option.some_ne_none _

theorem Trail.not_endless {via : List Site} (h : a.Trail s via t) : ¬ a.Endless s := by
  induction h with
  | here hs =>
    rintro ⟨chain, rfl, hchain⟩
    exact (hchain 0).source?_isSome hs
  | step hdraws _ ih =>
    rintro ⟨chain, rfl, hchain⟩
    refine ih ⟨fun k => chain (k + 1), ?_, fun k => hchain (k + 1)⟩
    exact (hchain 0).unique hdraws

theorem WellFormed.exists_next (ha : a.WellFormed) (h : ¬ ∃ via t, a.Trail s via t) :
    ∃ next, a.Draws s next ∧ ¬ ∃ via t, a.Trail next via t := by
  cases hsource : a.source? s with
  | none => exact absurd ⟨[], s, .here hsource⟩ h
  | some fed =>
    obtain ⟨producer, bit⟩ := fed
    obtain ⟨_, _, node, _, _, hdraws, _⟩ := ha.exists_draws hsource
    refine ⟨_, hdraws, ?_⟩
    rintro ⟨via, t, htrail⟩
    exact h ⟨s :: via, t, .step hdraws htrail⟩

theorem WellFormed.endless_iff (ha : a.WellFormed) :
    a.Endless s ↔ ¬ ∃ via t, a.Trail s via t := by
  constructor
  · rintro hendless ⟨via, t, htrail⟩
    exact htrail.not_endless hendless
  · intro hnone
    choose! next hdraws hnext using fun s (h : ¬ ∃ via t, a.Trail s via t) => ha.exists_next h
    have hchain : ∀ k, ¬ ∃ via t, a.Trail (next^[k] s) via t := by
      intro k
      induction k with
      | zero => exact hnone
      | succ k ih =>
        rw [Function.iterate_succ_apply']
        exact hnext _ ih
    refine ⟨fun k => next^[k] s, rfl, fun k => ?_⟩
    simp only [Function.iterate_succ_apply']
    exact hdraws _ (hchain k)

end Assembly

namespace Layout

variable {a : Assembly} {s : Site}

/-- The flat nodes go one-to-one to the sites that are not plugged, in their order. -/
structure Enumerates (l : Layout) (a : Assembly) : Prop where
  domain : ∀ s, (∃ k, l.position? s = some k) ↔ s ∈ a.sites ∧ a.source? s = none
  range : ∀ k, (∃ s, l.position? s = some k) ↔ k < l.size
  injective : ∀ s t k, l.position? s = some k → l.position? t = some k → s = t
  ascending : ∀ s t j k, l.position? s = some j → l.position? t = some k → (j < k ↔ s.Before t)

theorem placed_ascending (a : Assembly) : a.placed.Pairwise Site.Before :=
  a.sites_ascending.filter _

theorem position?_eq_some_iff {k : Nat} :
    (ofAssembly a).position? s = some k ↔ a.placed[k]? = some s := by
  rw [position?_eq]
  exact idxOf?_eq_some_iff_of_nodup (List.Pairwise.imp (fun h => h.ne) (placed_ascending a))

theorem before_of_lt {t : Site} {j k : Nat} (hs : a.placed[j]? = some s)
    (ht : a.placed[k]? = some t) (hjk : j < k) : s.Before t := by
  obtain ⟨hj, rfl⟩ := List.getElem?_eq_some_iff.mp hs
  obtain ⟨hk, rfl⟩ := List.getElem?_eq_some_iff.mp ht
  exact List.pairwise_iff_getElem.mp (placed_ascending a) j k hj hk hjk

theorem enumerates_ofAssembly (a : Assembly) : (ofAssembly a).Enumerates a := by
  refine ⟨fun s => ?_, fun k => ?_, fun s t k => eq_of_position?, fun s t j k hs ht => ?_⟩
  · rw [← mem_placed_iff, List.mem_iff_getElem?]
    exact exists_congr fun k => position?_eq_some_iff
  · simp only [position?_eq_some_iff, size_eq]
    exact ⟨fun ⟨s, hs⟩ => (List.getElem?_eq_some_iff.mp hs).1,
      fun hk => ⟨_, List.getElem?_eq_getElem hk⟩⟩
  · rw [position?_eq_some_iff] at hs ht
    refine ⟨before_of_lt hs ht, fun hbefore => ?_⟩
    rcases Nat.lt_trichotomy j k with hjk | rfl | hkj
    · exact hjk
    · exact absurd (Option.some.inj (hs.symm.trans ht)) hbefore.ne
    · exact absurd (before_of_lt ht hs hkj) hbefore.asymm

/-- Following the plugs of a site can only fail by running out of steps. -/
theorem resolveWithin_error (ha : a.WellFormed) {steps : Nat} {e : CircuitError}
    (hs : s ∈ a.sites) (h : (ofAssembly a).resolveWithin a steps s = .error e) :
    ∃ id, e = .plugCycle id := by
  induction steps generalizing s with
  | zero => exact ⟨s.id, (Except.error.inj h).symm⟩
  | succ steps ih =>
    cases hsource : a.source? s with
    | none =>
      obtain ⟨k, hk⟩ := exists_position? (mem_placed_iff.mpr ⟨hs, hsource⟩)
      simp [resolveWithin, hk] at h
    | some fed =>
      obtain ⟨producer, bit⟩ := fed
      obtain ⟨_, cell, node, hcell, hnode, _, hnext⟩ := ha.exists_draws hsource
      simp only [resolveWithin, position?_eq_none hsource, hsource, hcell, Option.bind_some,
        hnode] at h
      exact ih hnext h

theorem resolve_eq_ok_iff (ha : a.WellFormed) (hs : s ∈ a.sites) {k : Nat} :
    (ofAssembly a).resolve a s = .ok k ↔
      ∃ via t, a.Trail s via t ∧ (ofAssembly a).position? t = some k := by
  constructor
  · intro h
    obtain ⟨via, t, htrail⟩ := trail_of_resolveWithin ha h
    obtain ⟨k', hk', hposition⟩ := resolve_of_trail ha hs htrail
    obtain rfl := Except.ok.inj (hk'.symm.trans h)
    exact ⟨via, t, htrail, hposition⟩
  · rintro ⟨via, t, htrail, hposition⟩
    exact resolveWithin_of_trail htrail hposition (Nat.lt_succ_of_le (htrail.length_le ha))

theorem resolve_eq_plugCycle_iff (ha : a.WellFormed) (hs : s ∈ a.sites) :
    (∃ id, (ofAssembly a).resolve a s = .error (.plugCycle id)) ↔ a.Endless s := by
  rw [ha.endless_iff]
  constructor
  · rintro ⟨id, herror⟩ ⟨via, t, htrail⟩
    obtain ⟨k, hk, _⟩ := resolve_of_trail ha hs htrail
    rw [hk] at herror
    cases herror
  · intro hnone
    cases hresolve : (ofAssembly a).resolve a s with
    | ok k => exact absurd (trail_of_resolveWithin ha hresolve) hnone
    | error e =>
      obtain ⟨id, rfl⟩ := resolveWithin_error ha hs hresolve
      exact ⟨id, rfl⟩

end Layout

namespace Assembly

/-- Every assembly that can be built has a layout. Its flat nodes are the sites that are not
plugged, by instance and then by node, as many as there are nodes less the plugged inputs. An input
is plugged when the output widths of the plugs of its instance, summed up in turn, come to its
position, unless the instance is a designated input; the output bit that it then draws on is always
there. Resolving a site gives the flat node at the end of its chain of plugs, and fails with a cycle
just when the chain has no end; it never fails otherwise. -/
theorem layout_exact (a : Assembly) (ha : a.Reachable) :
    ∃ l, Layout.make a = .ok l ∧ l.Enumerates a ∧ l.plugged ≤ a.nodeCount ∧
      l.size = a.nodeCount - l.plugged ∧ l.plugged = a.wireCount ∧
      (∀ id node producer bit, a.source? ⟨id, node⟩ = some (producer, bit) ↔
        id ∉ a.inputs ∧ ∃ inst k, a.instances[id]? = some inst ∧
          inst.plugs[k]? = some producer ∧ a.PlugFeeds inst k bit node) ∧
      (∀ s producer bit, a.source? s = some (producer, bit) →
        ∃ cell node, a.cell? producer = some cell ∧ cell.circuit.outputs[bit]? = some node ∧
          a.Draws s ⟨producer, node⟩ ∧ ⟨producer, node⟩ ∈ a.sites) ∧
      ∀ s ∈ a.sites,
        (∀ k, l.resolve a s = .ok k ↔ ∃ via t, a.Trail s via t ∧ l.position? t = some k) ∧
        ((∃ id, l.resolve a s = .error (.plugCycle id)) ↔ a.Endless s) ∧
        ∀ e, l.resolve a s = .error e → ∃ id, e = .plugCycle id := by
  have hwf := ha.wellFormed
  have hcount := Layout.size_add_wireCount hwf
  have hplugged := Layout.plugged_eq_wireCount hwf
  refine ⟨.ofAssembly a, Layout.make_of_wellFormed hwf, Layout.enumerates_ofAssembly a, by omega,
    by omega, hplugged, fun id node producer bit => ?_,
    fun s producer bit hsource => (hwf.exists_draws hsource).2, fun s hs => ⟨fun k => ?_, ?_, ?_⟩⟩
  · exact hwf.source?_iff_plugFeeds
  · exact Layout.resolve_eq_ok_iff hwf hs
  · exact Layout.resolve_eq_plugCycle_iff hwf hs
  · exact fun e => Layout.resolveWithin_error hwf hs

def threeWires (outputs : List Nat) (inputGroups outputGroups : List PortGroup) : Cell :=
  ⟨⟨(Cell.identity 3).circuit.graph, [0, 1, 2], outputs⟩, inputGroups, outputGroups⟩

/-- A bus that is fed one wire and, through two selections, its own first and second bit. Its plug
into a single wire runs over. Next to it, two wires are plugged into each other. -/
def weave : Assembly where
  instances := #[⟨.identity 1, [5], none⟩,
    ⟨threeWires [0, 1, 2] [⟨"x", 1⟩, ⟨"y", 1⟩, ⟨"z", 1⟩] [⟨"bus", 3⟩], [0, 2, 3], none⟩,
    ⟨threeWires [0] [⟨"bus", 3⟩] [⟨"x", 1⟩], [1], none⟩,
    ⟨threeWires [1] [⟨"bus", 3⟩] [⟨"y", 1⟩], [1], none⟩,
    ⟨.identity 1, [5], none⟩, ⟨.identity 1, [4], none⟩, ⟨.identity 1, [1], none⟩]
  inputs := [0]
  outputs := [1]
  strict := false

theorem weave_reachable : weave.Reachable := by
  have hbus := ((Reachable.empty false).add (.identity 1) (by cbv)).add
    (threeWires [0, 1, 2] [⟨"x", 1⟩, ⟨"y", 1⟩, ⟨"z", 1⟩] [⟨"bus", 3⟩]) (by cbv)
  have hselects := (hbus.add (threeWires [0] [⟨"bus", 3⟩] [⟨"x", 1⟩]) (by cbv)).add
    (threeWires [1] [⟨"bus", 3⟩] [⟨"y", 1⟩]) (by cbv)
  have hadded := ((hselects.add (.identity 1) (by cbv)).add (.identity 1) (by cbv)).add
    (.identity 1) (by cbv)
  have hwoven := (((hadded.plug 0 5 rfl).plug 1 0 rfl).plug 1 2 rfl).plug 1 3 rfl
  have hplugged := ((((hwoven.plug 2 1 rfl).plug 3 1 rfl).plug 4 5 rfl).plug 5 4 rfl).plug 6 1 rfl
  exact (hplugged.markInput 0 rfl).markOutput 1 rfl

/-- All bits of the bus come from the one wire, which has the only flat node, while the two wires
that are plugged into each other lead nowhere. -/
theorem weave_layout_exact : weave.Reachable ∧ ∃ l, Layout.make weave = .ok l ∧ l.plugged = 12 ∧
    l.size = 1 ∧ (∃ via, weave.Trail ⟨1, 2⟩ via ⟨0, 0⟩) ∧ weave.Endless ⟨4, 0⟩ := by
  obtain ⟨l, hl, henumerates, _, hsize, hplugged, _, _, hresolve⟩ :=
    layout_exact weave weave_reachable
  obtain rfl := Layout.make_eq_ok hl
  have hcount : (Layout.ofAssembly weave).plugged = 12 ∧ weave.nodeCount = 13 := by cbv
  have hbus : (Layout.ofAssembly weave).resolve weave ⟨1, 2⟩ = .ok 0 ∧
      (Layout.ofAssembly weave).position? ⟨0, 0⟩ = some 0 := by
    cbv
  have hpair : (Layout.ofAssembly weave).resolve weave ⟨4, 0⟩ = .error (.plugCycle 5) := by cbv
  obtain ⟨via, t, htrail, ht⟩ := ((hresolve ⟨1, 2⟩ (by decide +kernel)).1 0).mp hbus.1
  obtain rfl := henumerates.injective t ⟨0, 0⟩ 0 ht hbus.2
  exact ⟨weave_reachable, _, hl, hcount.1, by rw [hsize, hcount.1, hcount.2], ⟨via, htrail⟩,
    (hresolve ⟨4, 0⟩ (by decide +kernel)).2.1.mp ⟨5, hpair⟩⟩

end Assembly

end WireLogic
