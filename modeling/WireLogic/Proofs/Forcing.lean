import WireLogic.Proofs.Simulation

/-!
# Values forced on any node

Any nodes may be assigned, not only inputs. If nothing fails, what is known afterwards obeys the
rules of propagation with one exception: a node that was made true and has predecessors stays true
even if all of them are. Up to this exception, a failure means that no levels with the assigned
values obey the rules, and the levels found are the least ones that do.
-/

namespace WireLogic

set_option autoImplicit false

theorem Propagation.Coherent.obeys {c : Circuit} {forced : Nat → Prop} {p : Propagation}
    (h : p.Coherent c forced) (hdone : p.Done) :
    c.Obeys (fun n => forced n ∧ ∃ u, u ∈ c.graph.predecessors n) p.level := by
  obtain ⟨hpending, hrecheck⟩ := hdone
  constructor
  · intro n _ hin hlow
    obtain ⟨u, hu, hfalse⟩ := hlow
    rcases h.raised u n hu hin hfalse with htrue | hdue
    · exact htrue
    · simp [hpending] at hdue
  · intro n hn hin hexempt hall
    rcases h.lowered n hn hin hall with (hfalse | hdue) | ⟨hsome, haside | hforced⟩
    · exact hfalse
    · simp [hpending] at hdue
    · exact absurd haside (NodeSet.isEmpty_iff.mp hrecheck n)
    · exact absurd ⟨hforced, hsome⟩ hexempt

namespace Circuit

/-- Assigns values to nodes, then draws all consequences. -/
def force (c : Circuit) (drain : Drain) (pairs : List (Nat × Bool)) :
    Except SimulationError Simulation :=
  c.conclude drain (assignAll (.start c) pairs)

theorem conclude_cases (c : Circuit) (drain : Drain) (start : Except Nat Propagation) :
    (∃ n, c.conclude drain start = .error (.contradiction n)) ∨
      ∃ p q, start = .ok p ∧ p.runWith drain = .ok q ∧
        c.conclude drain start = .ok ⟨q.levels, c.outputs⟩ := by
  cases start with
  | error n => exact .inl ⟨n, rfl⟩
  | ok p =>
    cases hrun : p.runWith drain with
    | error n => exact .inl ⟨n, by simp [conclude, hrun]⟩
    | ok q => exact .inr ⟨p, q, rfl, hrun, by simp [conclude, hrun]⟩

/-- Levels that have the assigned values and obey the rules. -/
structure Extension (c : Circuit) (exempt : Nat → Prop) (pairs : List (Nat × Bool))
    (lev : Nat → Level) : Prop extends c.Obeys exempt lev where
  assigned : ∀ n b, (n, b) ∈ pairs → lev n = .known b

def MadeTrue (c : Circuit) (pairs : List (Nat × Bool)) (n : Nat) : Prop :=
  (n, true) ∈ pairs ∧ ∃ u, u ∈ c.graph.predecessors n

variable {c : Circuit} {pairs : List (Nat × Bool)}

theorem extension_of_run (hpairs : ∀ n b, (n, b) ∈ pairs → n < c.size) {drain : Drain}
    {p q : Propagation} (hassign : assignAll (.start c) pairs = .ok p)
    (hrun : p.runWith drain = .ok q) : c.Extension (c.MadeTrue pairs) pairs q.level := by
  have hkept : Propagation.Kept c (fun n => (n, true) ∈ pairs) _ _ := Propagation.coherent_kept
  have hassigned := assignAll_ends hkept.toStable pairs
    (fun n b hn _ hp => hp.cons (hpairs n b hn) fun htrue => htrue ▸ hn)
    (Propagation.start_coherent c _)
  obtain ⟨hp, _, hset⟩ := hassigned.of_ok hassign
  obtain ⟨hq, hkeeps, hdone⟩ := (hkept.runWith drain hp).of_ok hrun
  exact ⟨hq.obeys hdone, fun n b hn => hkeeps n b (hset n b hn)⟩

theorem Extension.run {lev : Nat → Level} (h : c.Extension (c.MadeTrue pairs) pairs lev)
    (hpairs : ∀ n b, (n, b) ∈ pairs → n < c.size) (drain : Drain) :
    ∃ p q, assignAll (.start c) pairs = .ok p ∧ p.runWith drain = .ok q ∧
      ∀ n b, q.level n = .known b → lev n = .known b := by
  have hstable : Propagation.Stable c (fun n => (n, true) ∈ pairs) _ _ :=
    Propagation.agrees_stable h.toObeys
  have hassigned := assignAll_ends hstable pairs
    (fun n b hn _ hp =>
      ⟨hp.1.cons (hpairs n b hn) fun htrue => htrue ▸ hn, hp.2.cons (h.assigned n b hn)⟩)
    ⟨Propagation.start_coherent c _, Propagation.start_agrees h.toObeys fun _ hn => hn.2⟩
  obtain ⟨p, hassign, ⟨hcoherent, hagrees⟩, _, hset⟩ := hassigned.exists_ok
  -- Only now are the exempt nodes known, so that looking at nodes set aside passes them over.
  have hconforms : Propagation.Conforms c (c.MadeTrue pairs) _ lev p :=
    ⟨hcoherent, hagrees, fun n hn => by simp [hset n true hn.1]⟩
  obtain ⟨q, hrun, hq, _⟩ :=
    ((Propagation.conforms_kept h.toObeys).runWith drain hconforms).exists_ok
  exact ⟨p, q, hassign, hrun, hq.level_sound⟩

/-- The levels found extend the assignments and are the least that do; an error means that there are
none. Nodes with predecessors that are made true need not be false when all of these are true. -/
theorem force_fails_iff_no_extension (c : Circuit) (drain : Drain) (pairs : List (Nat × Bool))
    (hpairs : ∀ n b, (n, b) ∈ pairs → n < c.size) :
    (∀ s, c.force drain pairs = .ok s → c.Extension (c.MadeTrue pairs) pairs s.level ∧
      ∀ lev, c.Extension (c.MadeTrue pairs) pairs lev →
        ∀ n b, s.level n = .known b → lev n = .known b) ∧
    ((∃ n, c.force drain pairs = .error (.contradiction n)) ↔
      ¬ ∃ lev, c.Extension (c.MadeTrue pairs) pairs lev) := by
  rcases c.conclude_cases drain (assignAll (.start c) pairs) with
    ⟨n, hforce⟩ | ⟨p, q, hassign, hrun, hforce⟩
  · have hnone : ¬ ∃ lev, c.Extension (c.MadeTrue pairs) pairs lev := by
      intro hsome
      obtain ⟨lev, hlev⟩ := hsome
      obtain ⟨p, q, hassign, hrun, _⟩ := hlev.run hpairs drain
      simp [conclude, hassign, hrun] at hforce
    refine ⟨fun s hs => ?_, iff_of_true ⟨n, hforce⟩ hnone⟩
    have hok := hforce.symm.trans hs
    simp at hok
  · have hextension := extension_of_run hpairs hassign hrun
    constructor
    · intro s hs
      obtain rfl := Except.ok.inj (hforce.symm.trans hs)
      refine ⟨hextension, fun lev hlev => ?_⟩
      obtain ⟨p', q', hassign', hrun', hleast⟩ := hlev.run hpairs drain
      obtain rfl := Except.ok.inj (hassign.symm.trans hassign')
      obtain rfl := Except.ok.inj (hrun.symm.trans hrun')
      exact hleast
    · refine iff_of_false ?_ fun hnone => hnone ⟨q.level, hextension⟩
      intro hfails
      obtain ⟨n, hn⟩ := hfails
      have herror := hforce.symm.trans hn
      simp at herror

/-- A false input and a false negation cannot be extended. -/
theorem inverter_force_fails :
    (∀ n b, (n, b) ∈ [(0, false), (1, false)] → n < inverter.size) ∧
      inverter.force .ascending [(0, false), (1, false)] = .error (.contradiction 1) ∧
      ¬ ∃ lev, inverter.Extension (inverter.MadeTrue [(0, false), (1, false)])
        [(0, false), (1, false)] lev := by
  have hpairs : ∀ n b, (n, b) ∈ [(0, false), (1, false)] → n < inverter.size := by
    simp [inverter, size, Graph.size, Graph.ofEdgesWithin]
  have hfails : inverter.force .ascending [(0, false), (1, false)] = .error (.contradiction 1) := by
    cbv
  exact ⟨hpairs, hfails,
    (force_fails_iff_no_extension inverter .ascending _ hpairs).2.mp ⟨1, hfails⟩⟩

/-- A negation that is made true keeps its value when its input is made true as well, although no
levels obey the rules then. -/
theorem inverter_force_unnoticed :
    inverter.Accepted ∧
      inverter.force .ascending [(0, true), (1, true)] = .ok ⟨#[.known true, .known true], [1]⟩ ∧
      ¬ ∃ lev, inverter.Extension (fun _ => False) [(0, true), (1, true)] lev := by
  refine ⟨by cbv, by cbv, ?_⟩
  intro hsome
  obtain ⟨lev, hlev⟩ := hsome
  have hall : ∀ u ∈ inverter.graph.predecessors 1, lev u = .known true := by
    intro u hu
    obtain rfl : u = 0 := by
      rw [← Graph.mem_successors_iff] at hu
      simpa [inverter, Graph.successors_ofEdgesWithin] using hu
    exact hlev.assigned 0 true (by simp)
  have hlow := hlev.low 1 (by cbv) (by decide) (by simp) hall
  rw [hlev.assigned 1 true (by simp)] at hlow
  simp at hlow

end Circuit

end WireLogic
