import WireLogic.Proofs.Coherence
import WireLogic.Proofs.Valuation

/-!
# Propagation reaches the levels that follow

Propagation never leaves levels that obey its rules: as long as what is known and due agrees with
them, no assignment fails and everything stays in agreement. Once nothing is due or set aside, the
known levels are all that follows from the inputs.
-/

namespace WireLogic

set_option autoImplicit false

/-- Every node that is no input is true if a predecessor is false, and false if all predecessors are
true. An exempt node is only held to the first. -/
structure Circuit.Obeys (c : Circuit) (exempt : Nat → Prop) (lev : Nat → Level) : Prop where
  high : ∀ n, n < c.size → n ∉ c.inputs →
    (∃ u ∈ c.graph.predecessors n, lev u = .known false) → lev n = .known true
  low : ∀ n, n < c.size → n ∉ c.inputs → ¬ exempt n →
    (∀ u ∈ c.graph.predecessors n, lev u = .known true) → lev n = .known false

theorem Circuit.Leveling.obeys {c : Circuit} {given lev : Nat → Level} (h : c.Leveling given lev)
    (exempt : Nat → Prop) : c.Obeys exempt lev where
  high := fun _ hn hin => (h.true_iff hn hin).mpr
  low := fun _ hn hin _ => (h.false_iff hn hin).mpr

namespace Propagation

open Outcome

/-- Known levels and due assignments agree with `lev`. -/
structure Agrees (lev : Nat → Level) (p : Propagation) : Prop where
  level_sound : ∀ n b, p.level n = .known b → lev n = .known b
  pending_sound : ∀ n b, (n, b) ∈ p.pending → lev n = .known b

section Agreement

variable {c : Circuit} {exempt forced : Nat → Prop} {lev : Nat → Level}

theorem start_agrees (hlev : c.Obeys exempt lev)
    (hexempt : ∀ n, exempt n → ∃ u, u ∈ c.graph.predecessors n) : Agrees lev (start c) where
  level_sound := fun n b h => by simp [level_start] at h
  pending_sound := by
    intro n b h
    obtain ⟨rfl, hn, hin, hpred⟩ := mem_start_pending.mp h
    apply hlev.low n hn hin
    · intro hn'
      obtain ⟨u, hu⟩ := hexempt n hn'
      exact hpred u hu
    · exact fun u hu => absurd hu (hpred u)

theorem Agrees.cons {p : Propagation} (h : Agrees lev p) {node : Nat} {value : Bool}
    (hvalue : lev node = .known value) :
    Agrees lev { p with pending := (node, value) :: p.pending } where
  level_sound := h.level_sound
  pending_sound := by
    intro n b hn
    rcases List.mem_cons.mp hn with heq | hn
    · obtain ⟨rfl, rfl⟩ := Prod.mk.inj heq
      exact hvalue
    · exact h.pending_sound n b hn

theorem Agrees.of_sets (hlev : c.Obeys exempt lev) {p p' : Propagation} {node : Nat} {value : Bool}
    (h : Agrees lev { p with pending := (node, value) :: p.pending }) (hcircuit : p.circuit = c)
    (hset : p.Sets node value p') : Agrees lev p' where
  level_sound := by
    intro n b hn
    rw [hset.level] at hn
    split at hn
    · rename_i heq
      rw [heq.1, h.pending_sound node value List.mem_cons_self, hn]
    · exact h.level_sound n b hn
  pending_sound := by
    intro n b hn
    rcases (hset.pending n b).mp hn with hn | ⟨rfl, rfl, hn, hin⟩
    · exact h.pending_sound n b (List.mem_cons_of_mem _ hn)
    · rw [hcircuit] at hn hin
      exact hlev.high n (Graph.lt_of_mem_successors hn).2 hin
        ⟨node, (c.graph.mem_successors_iff node n).mp hn,
          h.pending_sound node false List.mem_cons_self⟩

theorem Agrees.assign (hlev : c.Obeys exempt lev) {p : Propagation} {node : Nat} {value : Bool}
    (h : Agrees lev { p with pending := (node, value) :: p.pending }) (hcircuit : p.circuit = c) :
    Ends (fun _ => False) (Agrees lev) (p.assign node value) := by
  have hvalue := h.pending_sound node value List.mem_cons_self
  cases hlevel : p.level node with
  | known current =>
    rw [h.level_sound node current hlevel] at hvalue
    obtain rfl := Level.known.inj hvalue
    rw [assign_of_known hlevel, if_pos rfl]
    exact ⟨h.level_sound, fun n b hn => h.pending_sound n b (List.mem_cons_of_mem _ hn)⟩
  | unknown =>
    obtain ⟨p', hassign, hset⟩ := assign_of_unknown hlevel value
    rw [hassign]
    exact h.of_sets hlev hcircuit hset

theorem Agrees.recheckAll (hlev : c.Obeys exempt lev) {p : Propagation} (h : Agrees lev p)
    (hp : Coherent c forced p) (hknown : ∀ n, exempt n → p.level n ≠ .unknown) {nodes : List Nat}
    (hnodes : nodes.Perm p.recheck.toList) : Agrees lev (p.recheckAll nodes) where
  level_sound := h.level_sound
  pending_sound := by
    intro n b hn
    rcases mem_recheckAll_pending.mp hn with ⟨rfl, hmem, hturns, _⟩ | hn
    · obtain ⟨hin, hopen, hall⟩ := turnsFalse_iff.mp hturns
      rw [hp.circuit] at hin hall
      apply hlev.low n (hp.recheck_lt n (hnodes.mem_iff.mp hmem)) hin
      · exact fun hn => hknown n hn hopen
      · exact fun u hu => h.level_sound u true (hall u hu)
    · exact h.pending_sound n b hn

theorem agrees_stable (hlev : c.Obeys exempt lev) :
    Stable c forced (fun _ => False) (fun p => Coherent c forced p ∧ Agrees lev p) where
  coherent := fun _ h => h.1
  assign := by
    intro p node value h
    refine (h.2.assign hlev h.1.circuit).imp fun p' hassign hp' => ?_
    exact ⟨(h.1.assign.of_ok hassign).1, hp'⟩

/-- Coherent states in agreement with levels that obey the rules, all exempt nodes being known. -/
structure Conforms (c : Circuit) (exempt forced : Nat → Prop) (lev : Nat → Level)
    (p : Propagation) : Prop extends Coherent c forced p, Agrees lev p where
  known : ∀ n, exempt n → p.level n ≠ .unknown

/-- Nothing fails that agrees with levels which obey the rules. -/
theorem conforms_kept (hlev : c.Obeys exempt lev) :
    Kept c forced (fun _ => False) (Conforms c exempt forced lev) where
  coherent := fun _ h => h.toCoherent
  assign := by
    intro p node value h
    have hends := (agrees_stable hlev).assign p node value ⟨h.toCoherent, h.toAgrees⟩
    refine hends.imp fun p' hassign hp' => ⟨hp'.1, hp'.2, fun n hn => ?_⟩
    obtain ⟨_, hadvances, _⟩ := h.toCoherent.assign.of_ok hassign
    cases hlevel : p.level n with
    | unknown => exact absurd hlevel (h.known n hn)
    | known b => simp [hadvances.keeps n b hlevel]
  recheckAll := by
    intro p nodes h _ hnodes
    have hagrees := h.toAgrees.recheckAll hlev h.toCoherent h.known hnodes
    exact ⟨h.toCoherent.recheckAll hnodes, hagrees, h.known⟩

end Agreement

/-- Known levels and due assignments agree with the leveling `lev`. -/
abbrev Tracks (c : Circuit) (lev : Nat → Level) (p : Propagation) : Prop :=
  Conforms c (fun _ => False) (fun n => lev n = .known true) lev p

section Run

variable {c : Circuit} {given lev : Nat → Level}

theorem tracks_kept (hlev : c.Leveling given lev) :
    Kept c (fun n => lev n = .known true) (fun _ => False) (Tracks c lev) :=
  conforms_kept (hlev.obeys _)

theorem start_tracks (hlev : c.Leveling given lev) : Tracks c lev (start c) where
  toCoherent := start_coherent c _
  toAgrees := start_agrees (hlev.obeys fun _ => False) fun _ => False.elim
  known := fun _ => False.elim

theorem Tracks.cons {p : Propagation} (h : Tracks c lev p) {node : Nat} {value : Bool}
    (hnode : node < c.size) (hvalue : lev node = .known value) :
    Tracks c lev { p with pending := (node, value) :: p.pending } :=
  ⟨h.toCoherent.cons hnode fun htrue => htrue ▸ hvalue, h.toAgrees.cons hvalue, h.known⟩

theorem Tracks.assign (hlev : c.Leveling given lev) {p : Propagation} {node : Nat} {value : Bool}
    (h : Tracks c lev { p with pending := (node, value) :: p.pending }) :
    ∃ p', p.assign node value = .ok p' ∧ Tracks c lev p' ∧ Advances p p' ∧
      p'.level node = .known value := by
  obtain ⟨p', hassign, hp'⟩ := ((tracks_kept hlev).assign p node value h).exists_ok
  obtain ⟨_, hadvances, hset⟩ := h.toCoherent.assign.of_ok hassign
  exact ⟨p', hassign, hp', hadvances, hset⟩

theorem runWith_spec (hlev : c.Leveling given lev) (drain : Drain) {p : Propagation}
    (h : Tracks c lev p) :
    ∃ p', p.runWith drain = .ok p' ∧ Tracks c lev p' ∧
      (∀ n b, p.level n = .known b → p'.level n = .known b) ∧ p'.Done :=
  ((tracks_kept hlev).runWith drain h).exists_ok

theorem Tracks.level_eq (hlev : c.Leveling given lev) (hc : c.WellFormed) {p : Propagation}
    (h : Tracks c lev p) (hdone : p.Done) (hinputs : ∀ n ∈ c.inputs, p.level n = lev n) (n : Nat)
    (hn : n < c.size) : p.level n = lev n := by
  obtain ⟨hpending, hrecheck⟩ := hdone
  -- Along the edges: what follows from the predecessors is known, as nothing is due or set aside.
  induction n using hc.acyclic.induction with
  | _ n ih =>
    have below : ∀ u ∈ c.graph.predecessors n, p.level u = lev u :=
      fun u hu => ih u hu (Graph.lt_of_mem_predecessors hu).1
    by_cases hin : n ∈ c.inputs
    · exact hinputs n hin
    · cases hlevel : lev n with
      | unknown =>
        cases hknown : p.level n with
        | unknown => rfl
        | known b =>
          rw [h.level_sound n b hknown] at hlevel
          simp at hlevel
      | known b =>
        cases b with
        | true =>
          obtain ⟨u, hu, hfalse⟩ := (hlev.true_iff hn hin).mp hlevel
          rcases h.raised u n hu hin ((below u hu).trans hfalse) with htrue | hdue
          · exact htrue
          · simp [hpending] at hdue
        | false =>
          have hall := (hlev.false_iff hn hin).mp hlevel
          rcases h.lowered n hn hin fun u hu => (below u hu).trans (hall u hu) with
            (hf | hdue) | ⟨_, haside | hforced⟩
          · exact hf
          · simp [hpending] at hdue
          · exact absurd haside (NodeSet.isEmpty_iff.mp hrecheck n)
          · simp [hlevel] at hforced

end Run

end Propagation

end WireLogic
