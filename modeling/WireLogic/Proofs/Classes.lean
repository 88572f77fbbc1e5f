import WireLogic.Proofs.LiveGraph

/-!
# The classes of a partition

Merges lead from every node to the root of its class. A chain of merges that ends passes through no
node twice, so the steps that are allowed to follow it suffice. Shortening chains moves no node to
another class, and it leaves alone which nodes are roots and which of them are deleted.
-/

namespace WireLogic.Partition

set_option autoImplicit false

def Settled (p : Partition) (node : Nat) : Prop := ∀ next, p.standing node ≠ .mergedInto next

theorem settled_of_canonical {p : Partition} {node : Nat} (h : p.standing node = .canonical) :
    p.Settled node := by
  intro next
  simp [h]

theorem Settled.of_standing_eq {p p' : Partition} {node : Nat} (h : p.Settled node)
    (heq : p'.standing node = p.standing node) : p'.Settled node := by
  intro next
  rw [heq]
  exact h next

theorem standing_set_of_ne (p : Partition) {node n : Nat} (h : n ≠ node) (s : Standing) :
    (p.set node s).standing n = p.standing n := by
  rw [standing_set, if_neg fun hand => h hand.1]

theorem standing_set_self (p : Partition) {node : Nat} (h : node < p.size) (s : Standing) :
    (p.set node s).standing node = s := by
  rw [standing_set, if_pos ⟨rfl, h⟩]

theorem lt_of_merged {p : Partition} {node next : Nat} (h : p.standing node = .mergedInto next) :
    node < p.size := by
  apply Decidable.byContradiction
  intro hnode
  have hnone : p.standings[node]? = none := Array.getElem?_eq_none (Nat.not_lt.mp hnode)
  simp [standing, Array.getD_eq_getD_getElem?, hnone] at h

/-- From a node along the nodes `via`, which are merged, to a root. -/
inductive Chain (p : Partition) : Nat → List Nat → Nat → Prop where
  | stop {node : Nat} : p.Settled node → Chain p node [] node
  | step {node next root : Nat} {via : List Nat} : p.standing node = .mergedInto next →
      Chain p next via root → Chain p node (node :: via) root

namespace Chain

variable {p : Partition} {node root : Nat} {via : List Nat}

theorem settled_root (h : p.Chain node via root) : p.Settled root := by
  induction h with
  | stop hnode => exact hnode
  | step _ _ ih => exact ih

theorem unique (h : p.Chain node via root) {via' : List Nat} {root' : Nat}
    (h' : p.Chain node via' root') : via = via' ∧ root = root' := by
  induction h generalizing via' root' with
  | stop hnode =>
    cases h' with
    | stop _ => exact ⟨rfl, rfl⟩
    | step hmerged _ => exact absurd hmerged (hnode _)
  | step hmerged _ ih =>
    cases h' with
    | stop hnode => exact absurd hmerged (hnode _)
    | step hmerged' hrest =>
      obtain rfl := Standing.mergedInto.inj (hmerged.symm.trans hmerged')
      obtain ⟨rfl, rfl⟩ := ih hrest
      exact ⟨rfl, rfl⟩

theorem rest_of_mem (h : p.Chain node via root) {x : Nat} (hx : x ∈ via) :
    ∃ rest, rest.length ≤ via.length ∧ p.Chain x rest root := by
  induction h with
  | stop _ => simp at hx
  | @step node next root via hmerged hrest ih =>
    rcases List.mem_cons.mp hx with rfl | hx
    · exact ⟨x :: via, Nat.le_refl _, .step hmerged hrest⟩
    · obtain ⟨rest, hlength, hchain⟩ := ih hx
      exact ⟨rest, Nat.le_succ_of_le hlength, hchain⟩

theorem nodup (h : p.Chain node via root) : via.Nodup := by
  induction h with
  | stop _ => exact List.nodup_nil
  | @step node next root via hmerged hrest ih =>
    refine List.nodup_cons.mpr ⟨fun hnode => ?_, ih⟩
    obtain ⟨rest, hlength, hback⟩ := hrest.rest_of_mem hnode
    have hloop : node :: via = rest := ((Chain.step hmerged hrest).unique hback).1
    rw [← hloop, List.length_cons] at hlength
    omega

theorem length_le (h : p.Chain node via root) : via.length ≤ p.size := by
  have hsub : via ⊆ List.range p.size := by
    induction h with
    | stop _ => exact List.nil_subset _
    | step hmerged _ ih =>
      exact List.cons_subset.mpr ⟨List.mem_range.mpr (lt_of_merged hmerged), ih⟩
  have hlength := h.nodup.length_le_of_subset hsub
  rwa [List.length_range] at hlength

theorem follow (h : p.Chain node via root) {steps : Nat} (hsteps : via.length ≤ steps) :
    p.follow steps node = root := by
  induction h generalizing steps with
  | stop hnode => exact follow_of_settled hnode steps
  | step hmerged _ ih =>
    cases steps with
    | zero => simp at hsteps
    | succ steps =>
      simp only [Partition.follow, hmerged]
      exact ih (Nat.le_of_succ_le_succ hsteps)

end Chain

/-- The root of the class of a node. -/
def Leads (p : Partition) (node root : Nat) : Prop := ∃ via, p.Chain node via root

namespace Leads

variable {p : Partition} {node root : Nat}

theorem of_settled (h : p.Settled node) : p.Leads node node := ⟨[], .stop h⟩

theorem step {next : Nat} (h : p.standing node = .mergedInto next) (hnext : p.Leads next root) :
    p.Leads node root := by
  obtain ⟨via, hchain⟩ := hnext
  exact ⟨node :: via, .step h hchain⟩

theorem next {next : Nat} (h : p.Leads node root) (hmerged : p.standing node = .mergedInto next) :
    p.Leads next root := by
  obtain ⟨via, hchain⟩ := h
  cases hchain with
  | stop hnode => exact absurd hmerged (hnode next)
  | step hmerged' hrest =>
    obtain rfl := Standing.mergedInto.inj (hmerged.symm.trans hmerged')
    exact ⟨_, hrest⟩

theorem unique (h : p.Leads node root) {root' : Nat} (h' : p.Leads node root') : root = root' := by
  obtain ⟨_, hchain⟩ := h
  obtain ⟨_, hchain'⟩ := h'
  exact (hchain.unique hchain').2

theorem settled_root (h : p.Leads node root) : p.Settled root := by
  obtain ⟨_, hchain⟩ := h
  exact hchain.settled_root

theorem root_eq (h : p.Leads node root) : p.root node = root := by
  obtain ⟨_, hchain⟩ := h
  exact hchain.follow hchain.length_le

end Leads

/-- The merges from every node lead to a root among the nodes. -/
def Rooted (p : Partition) : Prop := ∀ node < p.size, ∃ root < p.size, p.Leads node root

theorem Rooted.leads_root {p : Partition} (hp : p.Rooted) {n : Nat} (hn : n < p.size) :
    p.root n < p.size ∧ p.Leads n (p.root n) := by
  obtain ⟨root, hroot, hleads⟩ := hp n hn
  rw [hleads.root_eq]
  exact ⟨hroot, hleads⟩

theorem standing_discrete (size node : Nat) : (discrete size).standing node = .canonical := by
  by_cases h : node < size <;> simp [standing, discrete, Array.getD_eq_getD_getElem?, h]

theorem discrete_rooted (size : Nat) : (discrete size).Rooted := by
  intro node hnode
  exact ⟨node, hnode, .of_settled (settled_of_canonical (standing_discrete size node))⟩

theorem Rooted.canonical_of_resolve {p : Partition} (hp : p.Rooted) {node found : Nat}
    (hnode : node < p.size) (h : p.resolve node = some found) :
    found < p.size ∧ p.standing found = .canonical := by
  obtain ⟨root, hroot, hleads⟩ := hp node hnode
  unfold Partition.resolve at h
  rw [hleads.root_eq] at h
  cases hstanding : p.standing root with
  | canonical =>
    rw [hstanding] at h
    obtain rfl := Option.some.inj h
    exact ⟨hroot, hstanding⟩
  | mergedInto next => exact absurd hstanding (hleads.settled_root next)
  | deleted => simp [hstanding] at h

/-- `p'` has the classes and the roots of `p`, and other chains. -/
structure Shortened (p p' : Partition) : Prop where
  size : p'.size = p.size
  settled : ∀ node, p.Settled node → p'.standing node = p.standing node
  merged : ∀ node, ¬ p.Settled node → ¬ p'.Settled node
  leads : ∀ node root, p.Leads node root → p'.Leads node root

namespace Shortened

variable {p p' p'' : Partition}

theorem refl (p : Partition) : p.Shortened p :=
  ⟨rfl, fun _ _ => rfl, fun _ h => h, fun _ _ h => h⟩

theorem trans (h : p.Shortened p') (h' : p'.Shortened p'') : p.Shortened p'' where
  size := h'.size.trans h.size
  settled := by
    intro node hnode
    rw [h'.settled node (hnode.of_standing_eq (h.settled node hnode)), h.settled node hnode]
  merged := fun node hnode => h'.merged node (h.merged node hnode)
  leads := fun node root hleads => h'.leads node root (h.leads node root hleads)

theorem canonical_iff (h : p.Shortened p') {node : Nat} :
    p'.standing node = .canonical ↔ p.standing node = .canonical := by
  by_cases hnode : p.Settled node
  · rw [h.settled node hnode]
  · constructor
    · intro hcanonical
      exact absurd (settled_of_canonical hcanonical) (h.merged node hnode)
    · intro hcanonical
      exact absurd (settled_of_canonical hcanonical) hnode

theorem rooted (h : p.Shortened p') (hp : p.Rooted) : p'.Rooted := by
  intro node hnode
  rw [h.size] at hnode ⊢
  obtain ⟨root, hroot, hleads⟩ := hp node hnode
  exact ⟨root, hroot, h.leads node root hleads⟩

end Shortened

theorem Leads.shortened_set {p : Partition} {node next root : Nat} (h : p.Leads node root)
    (hmerged : p.standing node = .mergedInto next) :
    p.Shortened (p.set node (.mergedInto root)) := by
  have hnode := p.standing_set_self (lt_of_merged hmerged) (.mergedInto root)
  have hsettled : ∀ n, p.Settled n →
      (p.set node (.mergedInto root)).standing n = p.standing n := by
    intro n hn
    apply standing_set_of_ne
    rintro rfl
    exact hn next hmerged
  refine ⟨size_set _ _ _, hsettled, ?_, ?_⟩
  · intro n hn hstays
    by_cases heq : n = node
    · subst heq
      exact hstays root hnode
    · exact hn (hstays.of_standing_eq (standing_set_of_ne p heq _).symm)
  · intro n root' hleads
    obtain ⟨via, hchain⟩ := hleads
    induction hchain with
    | stop hn => exact .of_settled (hn.of_standing_eq (hsettled _ hn))
    | @step n next' root' via hmerged' hrest ih =>
      by_cases heq : n = node
      · subst heq
        obtain rfl := h.unique ⟨n :: via, .step hmerged' hrest⟩
        have hroot := h.settled_root
        exact .step hnode (.of_settled (hroot.of_standing_eq (hsettled root hroot)))
      · exact .step ((standing_set_of_ne p heq _).trans hmerged') ih

theorem shortenTo_shortened {target : Nat} (steps : Nat) {p : Partition} {node : Nat}
    (h : p.Leads node target) : p.Shortened (shortenTo target steps p node) := by
  induction steps generalizing p node with
  | zero => exact .refl p
  | succ steps ih =>
    unfold shortenTo
    split
    · rename_i next hmerged
      split
      · exact ih (h.next hmerged)
      · have hset := h.shortened_set hmerged
        exact hset.trans (ih (hset.leads next target (h.next hmerged)))
    · exact .refl p

theorem Rooted.shortened {p : Partition} (hp : p.Rooted) {node : Nat} (hnode : node < p.size) :
    p.Shortened (p.shorten node) := by
  obtain ⟨root, _, hleads⟩ := hp node hnode
  unfold shorten
  rw [hleads.root_eq]
  exact shortenTo_shortened p.size hleads

theorem Rooted.images_shortened (nodes : List Nat) {p : Partition} (hp : p.Rooted)
    (hnodes : ∀ node ∈ nodes, node < p.size) : p.Shortened (p.images nodes).2 := by
  induction nodes generalizing p with
  | nil => exact .refl p
  | cons node nodes ih =>
    have hfirst := hp.shortened (hnodes node List.mem_cons_self)
    refine hfirst.trans (ih (hfirst.rooted hp) ?_)
    intro n hn
    rw [hfirst.size]
    exact hnodes n (List.mem_cons_of_mem node hn)

theorem Shortened.root_eq {p p' : Partition} (h : p.Shortened p') (hp : p.Rooted) {n : Nat}
    (hn : n < p.size) : p'.root n = p.root n ∧ p'.standing (p.root n) = p.standing (p.root n) := by
  obtain ⟨_, hleads⟩ := hp.leads_root hn
  exact ⟨(h.leads n _ hleads).root_eq, h.settled _ hleads.settled_root⟩

theorem Shortened.resolve_eq {p p' : Partition} (h : p.Shortened p') (hp : p.Rooted) {n : Nat}
    (hn : n < p.size) : p'.resolve n = p.resolve n := by
  obtain ⟨hroot, hstanding⟩ := h.root_eq hp hn
  unfold resolve
  rw [hroot, hstanding]

theorem Leads.of_same_merges {p p' : Partition}
    (h : ∀ node next, p'.standing node = .mergedInto next ↔ p.standing node = .mergedInto next)
    {node root : Nat} (hleads : p.Leads node root) : p'.Leads node root := by
  obtain ⟨via, hchain⟩ := hleads
  induction hchain with
  | @stop root hroot =>
    apply Leads.of_settled
    intro next hnext
    exact hroot next ((h root next).mp hnext)
  | @step n next _ _ hmerged _ ih => exact .step ((h n next).mpr hmerged) ih

theorem merges_of_deleted {p p' : Partition} {gone : Nat → Prop} [DecidablePred gone]
    (h : ∀ n, p'.standing n = if gone n then .deleted else p.standing n)
    (hgone : ∀ n, gone n → p.standing n = .canonical) (n next : Nat) :
    p'.standing n = .mergedInto next ↔ p.standing n = .mergedInto next := by
  rw [h]
  split
  · rename_i hn
    simp [hgone n hn]
  · rfl

/-- Merging one root into another carries its whole class over. -/
theorem Leads.set_root {p : Partition} {a b : Nat} (ha : a < p.size) (hb : p.Settled b)
    (hab : a ≠ b) (hroot : p.Settled a) {node root : Nat} (h : p.Leads node root) :
    (p.set a (.mergedInto b)).Leads node (if root = a then b else root) := by
  obtain ⟨via, hchain⟩ := h
  induction hchain with
  | @stop root hsettled =>
    split
    · rename_i heq
      subst heq
      have hb' := hb.of_standing_eq (standing_set_of_ne p hab.symm (.mergedInto b))
      exact .step (standing_set_self p ha _) (.of_settled hb')
    · rename_i hne
      exact .of_settled (hsettled.of_standing_eq (standing_set_of_ne p hne _))
  | @step n next _ _ hmerged _ ih =>
    have hn : n ≠ a := by
      rintro rfl
      exact hroot next hmerged
    exact .step ((standing_set_of_ne p hn _).trans hmerged) ih

theorem Rooted.set_root {p : Partition} (hp : p.Rooted) {a b : Nat} (ha : a < p.size)
    (hb : b < p.size) (hsettled : p.Settled a) (hsettled' : p.Settled b) (hab : a ≠ b) :
    (p.set a (.mergedInto b)).Rooted := by
  intro node hnode
  rw [size_set] at hnode ⊢
  obtain ⟨root, hroot, hleads⟩ := hp node hnode
  refine ⟨_, ?_, hleads.set_root ha hsettled' hab hsettled⟩
  split
  · exact hb
  · exact hroot

theorem Leads.resolve_eq {p : Partition} {node root : Nat} (h : p.Leads node root) :
    p.resolve node = if p.standing root = .deleted then none else some root := by
  unfold resolve
  rw [h.root_eq]
  cases p.standing root <;> simp

theorem Rooted.resolve_set_merged {p : Partition} (hp : p.Rooted) {a b : Nat} (ha : a < p.size)
    (hcanonical : p.standing a = .canonical) (hcanonical' : p.standing b = .canonical)
    (hab : a ≠ b) {n : Nat} (hn : n < p.size) :
    (p.set a (.mergedInto b)).resolve n = (p.resolve n).map fun m => if m = a then b else m := by
  obtain ⟨root, _, hleads⟩ := hp n hn
  have hsettled := settled_of_canonical hcanonical
  have hsettled' := settled_of_canonical hcanonical'
  rw [(hleads.set_root ha hsettled' hab hsettled).resolve_eq, hleads.resolve_eq]
  by_cases hroot : root = a
  · subst hroot
    simp [standing_set_of_ne p hab.symm, hcanonical, hcanonical']
  · rw [if_neg hroot, standing_set_of_ne p hroot]
    split
    · rfl
    · simp [hroot]

theorem Rooted.resolve_of_deleted {p p' : Partition} (hp : p.Rooted) {gone : Nat → Prop}
    [DecidablePred gone] (h : ∀ n, p'.standing n = if gone n then .deleted else p.standing n)
    (hgone : ∀ n, gone n → p.standing n = .canonical) {n : Nat} (hn : n < p.size) :
    p'.resolve n = (p.resolve n).filter fun m => ¬ gone m := by
  obtain ⟨root, _, hleads⟩ := hp n hn
  rw [(hleads.of_same_merges (merges_of_deleted h hgone)).resolve_eq, hleads.resolve_eq, h]
  by_cases hroot : gone root
  · simp [Option.filter_some, hroot, hgone root hroot]
  · rw [if_neg hroot]
    split
    · rfl
    · simp [Option.filter_some, hroot]

end WireLogic.Partition
