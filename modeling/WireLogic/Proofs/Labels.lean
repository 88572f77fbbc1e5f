import WireLogic.Proofs.Classes

/-!
# Partitions as labels

Write on every node the label of its class, and keep a list of the dead labels. Merging two classes
writes the label of the second on the members of the first, and the label is dead if one of the two
was. A partition answers every sequence of requests as these labels do, although its roots are not
always the labels: a deleted class takes a live one in, whichever of them is named first. The labels
of live classes are their canonical members.
-/

namespace WireLogic.Partition

set_option autoImplicit false

/-- The walk that points the nodes of a chain at `target`, however long it is. -/
inductive Compresses (target : Nat) : Partition → Nat → Partition → Prop where
  | stop {p : Partition} {node : Nat} : p.Settled node → Compresses target p node p
  | step {p p' : Partition} {node next : Nat} : p.standing node = .mergedInto next →
      Compresses target (if next = target then p else p.set node (.mergedInto target)) next p' →
      Compresses target p node p'

theorem Chain.set_of_not_mem {p : Partition} {n root : Nat} {via : List Nat}
    (h : p.Chain n via root) {node : Nat} (hvia : node ∉ via) (hroot : root ≠ node) (s : Standing) :
    (p.set node s).Chain n via root := by
  induction h with
  | stop hn => exact .stop (hn.of_standing_eq (standing_set_of_ne p hroot s))
  | step hmerged _ ih =>
    obtain ⟨hne, hvia⟩ := List.ne_and_not_mem_of_not_mem_cons hvia
    exact .step ((standing_set_of_ne p hne.symm s).trans hmerged) (ih hvia hroot)

theorem Chain.compresses {p : Partition} {node root : Nat} {via : List Nat}
    (h : p.Chain node via root) {steps : Nat} (hsteps : via.length ≤ steps) :
    Compresses root p node (shortenTo root steps p node) := by
  induction via generalizing p node steps with
  | nil =>
    cases h with
    | stop hnode =>
      rw [shortenTo_of_settled hnode]
      exact .stop hnode
  | cons first via ih =>
    cases steps with
    | zero => simp at hsteps
    | succ steps =>
      have hnodup := h.nodup
      have hsettled := h.settled_root
      cases h with
      | @step _ next _ _ hmerged hrest =>
        have hroot : root ≠ first := fun heq => hsettled next (heq ▸ hmerged)
        refine .step hmerged ?_
        simp only [shortenTo, hmerged]
        apply ih _ (Nat.le_of_succ_le_succ hsteps)
        split
        · exact hrest
        · -- No node is passed twice, so the rest of the chain is as it was.
          exact hrest.set_of_not_mem (List.nodup_cons.mp hnodup).1 hroot _

/-- Both walks from a node come to an end: the one to the root, and the one that shortens the
path. -/
structure WalksEnd (p : Partition) (node : Nat) : Prop where
  leads : p.Leads node (p.root node)
  compresses : Compresses (p.root node) p node (p.shorten node)

theorem Leads.walksEnd {p : Partition} {node root : Nat} (h : p.Leads node root) :
    p.WalksEnd node := by
  obtain ⟨via, hchain⟩ := h
  have hroot : p.root node = root := hchain.follow hchain.length_le
  constructor
  · rw [hroot]
    exact ⟨via, hchain⟩
  · unfold shorten
    rw [hroot]
    exact hchain.compresses hchain.length_le

/-- The label of every node, and which labels are dead. -/
structure Labels where
  label : Nat → Nat
  dead : Nat → Bool

namespace Labels

def discrete : Labels := ⟨id, fun _ => false⟩

/-- Writes the label of `b` on the class of `a`. It is dead if one of the two labels was. -/
def merge (l : Labels) (a b : Nat) : Labels where
  label := fun n => if l.label n = l.label a then l.label b else l.label n
  dead := fun m => if m = l.label b then l.dead (l.label a) || l.dead m else l.dead m

def delete (l : Labels) (node : Nat) : Labels where
  label := l.label
  dead := fun m => m == l.label node || l.dead m

def image (l : Labels) (node : Nat) : Option Nat :=
  if l.dead (l.label node) then none else some (l.label node)

/-- The labels of live classes among the first `size` nodes, ascending. -/
def live (l : Labels) (size : Nat) : List Nat :=
  (List.range size).filter fun m => !l.dead m && (List.range size).any fun n => l.label n == m

def after (l : Labels) : Request → Labels
  | .merge a b => l.merge a b
  | .delete n => l.delete n
  | _ => l

def answer (l : Labels) (size : Nat) : Request → Answer
  | .merge _ _ | .delete _ => .done
  | .lookup n | .resolve n => .node (l.image n)
  | .isDeleted n => .flag (l.dead (l.label n))
  | .reduce nodes => .nodes (NodeSet.ofList (nodes.filterMap l.image)).toList
  | .images nodes => .images (nodes.map l.image)
  | .canonicalNodes => .nodes (l.live size)
  | .size => .size size

def afterAll (l : Labels) (requests : List Request) : Labels := requests.foldl after l

def answers (l : Labels) (size : Nat) : List Request → List Answer
  | [] => []
  | r :: requests => l.answer size r :: (l.after r).answers size requests

end Labels

def serveAll? (p : Partition) : List Request → Option (List Answer × Partition)
  | [] => some ([], p)
  | r :: requests => do
    let (answer, p) ← p.serve? r
    let (answers, p) ← p.serveAll? requests
    return (answer :: answers, p)

/-- Equal labels are equal roots, dead labels are deleted roots, and a canonical root is the label
of its class. -/
structure Labelled (p : Partition) (l : Labels) : Prop where
  rooted : p.Rooted
  same : ∀ m n, m < p.size → n < p.size → (l.label m = l.label n ↔ p.root m = p.root n)
  dead : ∀ n < p.size, l.dead (l.label n) = true ↔ p.standing (p.root n) = .deleted
  live : ∀ n < p.size, p.standing (p.root n) = .canonical → l.label n = p.root n

theorem discrete_labelled (size : Nat) : (discrete size).Labelled .discrete := by
  have hroot : ∀ n, (discrete size).root n = n := fun n =>
    (Leads.of_settled (settled_of_canonical (standing_discrete size n))).root_eq
  constructor
  · exact discrete_rooted size
  · intro m n _ _
    simp [Labels.discrete, hroot]
  · intro n _
    simp [Labels.discrete, standing_discrete]
  · intro n _ _
    simp [Labels.discrete, hroot]

theorem Labelled.shortened {p p' : Partition} {l : Labels} (h : p.Labelled l)
    (hp : p.Shortened p') : p'.Labelled l := by
  constructor
  · exact hp.rooted h.rooted
  · intro m n hm hn
    rw [hp.size] at hm hn
    rw [(hp.root_eq h.rooted hm).1, (hp.root_eq h.rooted hn).1]
    exact h.same m n hm hn
  · intro n hn
    rw [hp.size] at hn
    obtain ⟨hroot, hstanding⟩ := hp.root_eq h.rooted hn
    rw [hroot, hstanding]
    exact h.dead n hn
  · intro n hn
    rw [hp.size] at hn
    obtain ⟨hroot, hstanding⟩ := hp.root_eq h.rooted hn
    rw [hroot, hstanding]
    exact h.live n hn

theorem Rooted.root_set_deleted {p : Partition} (hp : p.Rooted) {r : Nat} (hr : p.Settled r)
    (hlt : r < p.size) {n : Nat} (hn : n < p.size) :
    (p.set r .deleted).Leads n (p.root n) ∧ (p.set r .deleted).root n = p.root n ∧
      (p.set r .deleted).standing (p.root n) =
        if p.root n = r then .deleted else p.standing (p.root n) := by
  have hmerges : ∀ node next, (p.set r .deleted).standing node = .mergedInto next ↔
      p.standing node = .mergedInto next := by
    intro node next
    by_cases heq : node = r
    · subst heq
      rw [standing_set_self p hlt]
      exact iff_of_false (by simp) (hr next)
    · rw [standing_set_of_ne p heq]
  obtain ⟨_, hleads⟩ := hp.leads_root hn
  have hleads' := hleads.of_same_merges hmerges
  refine ⟨hleads', hleads'.root_eq, ?_⟩
  split
  · rename_i heq
    rw [heq, standing_set_self p hlt]
  · rename_i hne
    rw [standing_set_of_ne p hne]

theorem Labelled.set_deleted {p : Partition} {l : Labels} (h : p.Labelled l) {node : Nat}
    (hnode : node < p.size) : (p.set (p.root node) .deleted).Labelled (l.delete node) := by
  obtain ⟨hlt, hleads⟩ := h.rooted.leads_root hnode
  have hroots := fun n (hn : n < p.size) =>
    h.rooted.root_set_deleted hleads.settled_root hlt hn
  constructor
  · intro n hn
    rw [size_set] at hn ⊢
    exact ⟨p.root n, (h.rooted.leads_root hn).1, (hroots n hn).1⟩
  · intro m n hm hn
    rw [size_set] at hm hn
    rw [(hroots m hm).2.1, (hroots n hn).2.1]
    exact h.same m n hm hn
  · intro n hn
    rw [size_set] at hn
    rw [(hroots n hn).2.1, (hroots n hn).2.2]
    simp only [Labels.delete, Bool.or_eq_true, beq_iff_eq, h.same n node hn hnode, h.dead n hn]
    split
    · simp_all
    · simp_all
  · intro n hn hcanonical
    rw [size_set] at hn
    rw [(hroots n hn).2.1, (hroots n hn).2.2] at hcanonical
    rw [(hroots n hn).2.1]
    split at hcanonical
    · simp at hcanonical
    · exact h.live n hn hcanonical

/-- The class with root `x` is to be joined to the one with root `y`. One of them is the class of
`a` and the other that of `b`. -/
structure Joinable (p : Partition) (a b x y : Nat) : Prop where
  ends : (x = p.root a ∧ y = p.root b) ∨ (x = p.root b ∧ y = p.root a)
  ne : x ≠ y
  dead : p.standing y = .deleted ↔
    p.standing (p.root a) = .deleted ∨ p.standing (p.root b) = .deleted
  live : p.standing y = .canonical → y = p.root b

theorem Labelled.settled_roots {p : Partition} {l : Labels} (h : p.Labelled l) {a b x y : Nat}
    (ha : a < p.size) (hb : b < p.size) (hj : p.Joinable a b x y) :
    (x < p.size ∧ p.Settled x) ∧ y < p.size ∧ p.Settled y := by
  obtain ⟨hlta, hleadsa⟩ := h.rooted.leads_root ha
  obtain ⟨hltb, hleadsb⟩ := h.rooted.leads_root hb
  rcases hj.ends with ⟨rfl, rfl⟩ | ⟨rfl, rfl⟩
  · exact ⟨⟨hlta, hleadsa.settled_root⟩, hltb, hleadsb.settled_root⟩
  · exact ⟨⟨hltb, hleadsb.settled_root⟩, hlta, hleadsa.settled_root⟩

theorem Labelled.join_cases {p : Partition} {l : Labels} (h : p.Labelled l) {a b x y : Nat}
    (ha : a < p.size) (hb : b < p.size) (hj : p.Joinable a b x y) {n : Nat} (hn : n < p.size) :
    ((l.merge a b).label n = l.label b ∧ (p.set x (.mergedInto y)).root n = y) ∨
      ((l.merge a b).label n = l.label n ∧ l.label n ≠ l.label b ∧
        (p.set x (.mergedInto y)).root n = p.root n ∧ p.root n ≠ x ∧ p.root n ≠ y) := by
  obtain ⟨⟨hltx, hx⟩, _, hy⟩ := h.settled_roots ha hb hj
  have hroot := ((h.rooted.leads_root hn).2.set_root hltx hy hj.ne hx).root_eq
  have hjoined : (l.label n = l.label a ∨ l.label n = l.label b) ↔
      (p.root n = x ∨ p.root n = y) := by
    rw [h.same n a hn ha, h.same n b hn hb]
    rcases hj.ends with ⟨rfl, rfl⟩ | ⟨rfl, rfl⟩
    · exact Iff.rfl
    · exact or_comm
  rw [hroot]
  simp only [Labels.merge]
  by_cases hin : p.root n = x ∨ p.root n = y
  · refine .inl ⟨?_, ?_⟩
    · rcases hjoined.mpr hin with heq | heq <;> simp [heq]
    · rcases hin with heq | heq <;> simp [heq]
  · have hout := mt hjoined.mp hin
    rw [not_or] at hin hout
    exact .inr ⟨if_neg hout.1, hout.2, if_neg hin.1, hin⟩

theorem Labelled.join {p : Partition} {l : Labels} (h : p.Labelled l) {a b x y : Nat}
    (ha : a < p.size) (hb : b < p.size) (hj : p.Joinable a b x y) :
    (p.set x (.mergedInto y)).Labelled (l.merge a b) := by
  obtain ⟨⟨hltx, hx⟩, hlty, hy⟩ := h.settled_roots ha hb hj
  constructor
  · exact h.rooted.set_root hltx hlty hx hy hj.ne
  · intro m n hm hn
    rw [size_set] at hm hn
    rcases h.join_cases ha hb hj hm with ⟨hlm, hrm⟩ | ⟨hlm, hnm, hrm, _, hym⟩
    · rcases h.join_cases ha hb hj hn with ⟨hln, hrn⟩ | ⟨hln, hnn, hrn, _, hyn⟩
      · rw [hlm, hln, hrm, hrn]
        exact iff_of_true rfl rfl
      · rw [hlm, hln, hrm, hrn]
        exact iff_of_false hnn.symm hyn.symm
    · rcases h.join_cases ha hb hj hn with ⟨hln, hrn⟩ | ⟨hln, hnn, hrn, _, hyn⟩
      · rw [hlm, hln, hrm, hrn]
        exact iff_of_false hnm hym
      · rw [hlm, hln, hrm, hrn]
        exact h.same m n hm hn
  · intro n hn
    rw [size_set] at hn
    rcases h.join_cases ha hb hj hn with ⟨hlabel, hroot⟩ | ⟨hlabel, hne, hroot, hx, _⟩
    · rw [hlabel, hroot, standing_set_of_ne p hj.ne.symm, hj.dead, ← h.dead a ha, ← h.dead b hb]
      simp [Labels.merge]
    · rw [hlabel, hroot, standing_set_of_ne p hx, ← h.dead n hn]
      simp [Labels.merge, hne]
  · intro n hn hcanonical
    rw [size_set] at hn
    rcases h.join_cases ha hb hj hn with ⟨hlabel, hroot⟩ | ⟨hlabel, hne, hroot, hx, _⟩
    · rw [hroot, standing_set_of_ne p hj.ne.symm] at hcanonical
      have hy := hj.live hcanonical
      rw [hlabel, hroot, hy]
      exact h.live b hb (hy ▸ hcanonical)
    · rw [hroot, standing_set_of_ne p hx] at hcanonical
      rw [hlabel, hroot]
      exact h.live n hn hcanonical

theorem Labels.merge_of_same {l : Labels} {a b : Nat} (h : l.label a = l.label b) :
    l.merge a b = l := by
  obtain ⟨label, dead⟩ := l
  simp only [Labels.merge, Labels.mk.injEq] at h ⊢
  constructor
  · funext n
    split <;> simp_all
  · funext m
    split <;> simp_all

theorem Labelled.merge {p : Partition} {l : Labels} (h : p.Labelled l) {a b : Nat}
    (ha : a < p.size) (hb : b < p.size) :
    (p.merge a b).Labelled (l.merge a b) ∧ (p.merge a b).size = p.size := by
  have hfirst := h.rooted.shortened ha
  have hb' : b < (p.shorten a).size := by rwa [hfirst.size]
  have hboth := hfirst.trans ((h.shortened hfirst).rooted.shortened hb')
  have hq := h.shortened hboth
  have hroota := (hboth.root_eq h.rooted ha).1
  have hrootb := (hboth.root_eq h.rooted hb).1
  unfold Partition.merge
  simp only [(hfirst.root_eq h.rooted hb).1]
  rw [← hroota, ← hrootb]
  generalize (p.shorten a).shorten b = q at hq hboth
  rw [← hboth.size] at ha hb ⊢
  split
  · rename_i heq
    rw [Labels.merge_of_same ((hq.same a b ha hb).mpr heq)]
    exact ⟨hq, rfl⟩
  · rename_i hne
    split
    · rename_i hda hdb
      refine ⟨hq.join ha hb ⟨.inl ⟨rfl, rfl⟩, hne, ?_, fun _ => rfl⟩, size_set _ _ _⟩
      simp [hda, hdb]
    · -- The class of `a` is deleted and that of `b` is not: it is joined the other way round.
      rename_i hda hdb
      refine ⟨hq.join ha hb ⟨.inr ⟨rfl, rfl⟩, Ne.symm hne, ?_, ?_⟩, size_set _ _ _⟩
      · simp [hda]
      · simp [hda]
    · rename_i hda _
      refine ⟨hq.join ha hb ⟨.inl ⟨rfl, rfl⟩, hne, ?_, fun _ => rfl⟩, size_set _ _ _⟩
      exact ⟨.inr, fun hdead => hdead.resolve_left hda⟩

theorem Labelled.delete {p : Partition} {l : Labels} (h : p.Labelled l) {node : Nat}
    (hnode : node < p.size) :
    (p.delete node).Labelled (l.delete node) ∧ (p.delete node).size = p.size := by
  have hshortened := h.rooted.shortened hnode
  unfold Partition.delete
  rw [← (hshortened.root_eq h.rooted hnode).1]
  rw [← hshortened.size] at hnode
  exact ⟨(h.shortened hshortened).set_deleted hnode, (size_set _ _ _).trans hshortened.size⟩

theorem Labelled.resolve {p : Partition} {l : Labels} (h : p.Labelled l) {n : Nat}
    (hn : n < p.size) : p.resolve n = l.image n := by
  have hdead := h.dead n hn
  unfold Partition.resolve Labels.image
  cases hstanding : p.standing (p.root n) with
  | canonical => simp_all [h.live n hn hstanding]
  | mergedInto next => exact absurd hstanding ((h.rooted.leads_root hn).2.settled_root next)
  | deleted => simp_all

theorem Labelled.images {l : Labels} (nodes : List Nat) {p : Partition} (h : p.Labelled l)
    (hnodes : ∀ n ∈ nodes, n < p.size) : (p.images nodes).1 = nodes.map l.image := by
  induction nodes generalizing p with
  | nil => rfl
  | cons node nodes ih =>
    have hnode := hnodes node List.mem_cons_self
    have hshortened := h.rooted.shortened hnode
    have hrest := ih (h.shortened hshortened) fun n hn => by
      rw [hshortened.size]
      exact hnodes n (List.mem_cons_of_mem node hn)
    simp only [Partition.images, lookup, h.resolve hnode, hrest, List.map_cons]

theorem Labelled.canonical_of_live {p : Partition} {l : Labels} (h : p.Labelled l) {n : Nat}
    (hn : n < p.size) (hlive : l.dead (l.label n) = false) :
    l.label n < p.size ∧ p.standing (l.label n) = .canonical := by
  have hresolve := h.resolve hn
  simp only [Labels.image, hlive, Bool.false_eq_true, if_false] at hresolve
  exact h.rooted.canonical_of_resolve hn hresolve

theorem Labelled.label_of_canonical {p : Partition} {l : Labels} (h : p.Labelled l) {n : Nat}
    (hn : n < p.size) (hcanonical : p.standing n = .canonical) :
    l.label n = n ∧ l.dead n = false := by
  have hroot : p.root n = n := (Leads.of_settled (settled_of_canonical hcanonical)).root_eq
  have hlabel := h.live n hn (hroot.symm ▸ hcanonical)
  rw [hroot] at hlabel
  have hdead := h.dead n hn
  rw [hroot, hlabel, hcanonical] at hdead
  exact ⟨hlabel, by simpa using hdead⟩

theorem Labelled.canonicalNodes {p : Partition} {l : Labels} (h : p.Labelled l) :
    p.canonicalNodes = l.live p.size := by
  apply List.filter_congr
  intro m hm
  have hlt := List.mem_range.mp hm
  rw [Bool.eq_iff_iff]
  simp only [isCanonical, beq_iff_eq, Bool.and_eq_true, Bool.not_eq_true', List.any_eq_true,
    List.mem_range]
  constructor
  · intro hcanonical
    obtain ⟨hlabel, hlive⟩ := h.label_of_canonical hlt hcanonical
    exact ⟨hlive, m, hlt, hlabel⟩
  · intro hlabel
    obtain ⟨hlive, n, hn, hlabel⟩ := hlabel
    subst hlabel
    exact (h.canonical_of_live hn hlive).2

theorem Labelled.serve {p : Partition} {l : Labels} (h : p.Labelled l) (r : Request)
    (hr : ∀ n ∈ r.nodes, n < p.size) :
    (p.serve r).1 = l.answer p.size r ∧ (p.serve r).2.Labelled (l.after r) ∧
      (p.serve r).2.size = p.size := by
  have hlookup : ∀ n < p.size, (p.shorten n).Labelled l ∧ (p.shorten n).size = p.size := by
    intro n hn
    have hshortened := h.rooted.shortened hn
    exact ⟨h.shortened hshortened, hshortened.size⟩
  have himages : ∀ nodes : List Nat, (∀ n ∈ nodes, n < p.size) →
      (p.images nodes).2.Labelled l ∧ (p.images nodes).2.size = p.size := by
    intro nodes hnodes
    have hshortened := h.rooted.images_shortened nodes hnodes
    exact ⟨h.shortened hshortened, hshortened.size⟩
  cases r with
  | merge a b =>
    have ha := hr a List.mem_cons_self
    have hb := hr b (List.mem_cons_of_mem a List.mem_cons_self)
    exact ⟨rfl, h.merge ha hb⟩
  | delete n => exact ⟨rfl, h.delete (hr n List.mem_cons_self)⟩
  | lookup n =>
    have hn := hr n List.mem_cons_self
    exact ⟨congrArg Answer.node (h.resolve hn), hlookup n hn⟩
  | resolve n => exact ⟨congrArg Answer.node (h.resolve (hr n List.mem_cons_self)), h, rfl⟩
  | isDeleted n =>
    have hn := hr n List.mem_cons_self
    refine ⟨?_, hlookup n hn⟩
    simp only [Partition.serve, lookup, h.resolve hn, Labels.answer, Labels.image]
    split <;> simp_all
  | reduce nodes =>
    refine ⟨?_, himages nodes hr⟩
    simp only [Partition.serve, reduce, h.images nodes hr, Labels.answer, List.filterMap_map]
    rfl
  | images nodes => exact ⟨congrArg Answer.images (h.images nodes hr), himages nodes hr⟩
  | canonicalNodes => exact ⟨congrArg Answer.nodes h.canonicalNodes, h, rfl⟩
  | size => exact ⟨rfl, h, rfl⟩

theorem Labelled.serveAll {l : Labels} (requests : List Request) {p : Partition}
    (h : p.Labelled l) (hrequests : ∀ r ∈ requests, ∀ n ∈ r.nodes, n < p.size) :
    ∃ q, p.serveAll? requests = some (l.answers p.size requests, q) ∧
      q.Labelled (l.afterAll requests) ∧ q.size = p.size := by
  induction requests generalizing p l with
  | nil => exact ⟨p, rfl, h, rfl⟩
  | cons r requests ih =>
    have hr := hrequests r List.mem_cons_self
    obtain ⟨hanswer, hnext, hsize⟩ := h.serve r hr
    obtain ⟨q, hq, hlabelled, hsize'⟩ := ih hnext fun r' hr' => by
      rw [hsize]
      exact hrequests r' (List.mem_cons_of_mem r hr')
    refine ⟨q, ?_, hlabelled, hsize'.trans hsize⟩
    have hserve : p.serve? r = some (p.serve r) := if_pos (by simpa using hr)
    simp [serveAll?, hserve, hq, hanswer, hsize, Labels.answers]

def Request.isQuery : Request → Bool
  | merge _ _ | delete _ => false
  | _ => true

theorem Labels.after_of_isQuery (l : Labels) {r : Request} (h : r.isQuery = true) :
    l.after r = l := by
  cases r with
  | merge a b => simp [Request.isQuery] at h
  | delete n => simp [Request.isQuery] at h
  | _ => rfl

/-- What a partition tells is what the labels tell, now and after any query. -/
structure Represents (p : Partition) (size : Nat) (l : Labels) : Prop where
  walks_end : ∀ n < size, p.WalksEnd n
  resolve_eq : ∀ n < size, p.resolve n = l.image n ∧ (p.lookup n).1 = l.image n
  canonical : ∀ n < size, l.dead (l.label n) = false →
    p.standing (l.label n) = .canonical ∧ p.resolve (l.label n) = some (l.label n)
  same_iff : ∀ m < size, ∀ n < size, l.dead (l.label m) = false → l.dead (l.label n) = false →
    (p.resolve m = p.resolve n ↔ l.label m = l.label n)
  canonicalNodes_eq : p.canonicalNodes = l.live size
  undisturbed : ∀ query requests, query.isQuery = true →
    (∀ r ∈ query :: requests, ∀ n ∈ r.nodes, n < size) →
    ((p.serve query).2.serveAll? requests).map (·.1) = (p.serveAll? requests).map (·.1)

theorem Labelled.represents {p : Partition} {l : Labels} (h : p.Labelled l) :
    p.Represents p.size l where
  walks_end := fun n hn => (h.rooted.leads_root hn).2.walksEnd
  resolve_eq := fun n hn => ⟨h.resolve hn, h.resolve hn⟩
  canonical := by
    intro n hn hlive
    obtain ⟨hlt, hcanonical⟩ := h.canonical_of_live hn hlive
    obtain ⟨hlabel, hlive'⟩ := h.label_of_canonical hlt hcanonical
    refine ⟨hcanonical, ?_⟩
    rw [h.resolve hlt, Labels.image, hlabel, hlive']
    rfl
  same_iff := by
    intro m hm n hn hlm hln
    rw [h.resolve hm, h.resolve hn]
    simp [Labels.image, hlm, hln]
  canonicalNodes_eq := h.canonicalNodes
  undisturbed := by
    intro query requests hquery hnodes
    obtain ⟨_, hnext, hsize⟩ := h.serve query (hnodes query List.mem_cons_self)
    rw [l.after_of_isQuery hquery] at hnext
    have hrest : ∀ r ∈ requests, ∀ n ∈ r.nodes, n < p.size :=
      fun r hr => hnodes r (List.mem_cons_of_mem query hr)
    obtain ⟨q, hq, _⟩ := h.serveAll requests hrest
    obtain ⟨q', hq', _⟩ := hnext.serveAll requests (hsize.symm ▸ hrest)
    rw [hq, hq', hsize]
    rfl

/-- Requests about nodes of a partition are answered as the labels answer them, and at every point
the partition tells what the labels tell. -/
theorem requests_refine_labels (size : Nat) (requests : List Request)
    (hrequests : ∀ r ∈ requests, ∀ n ∈ r.nodes, n < size) :
    ∃ p, (discrete size).serveAll? requests = some (Labels.discrete.answers size requests, p) ∧
      p.Represents size (Labels.discrete.afterAll requests) := by
  have hsize : (discrete size).size = size := by simp [discrete, Partition.size]
  obtain ⟨p, hp, hlabelled, hsize'⟩ :=
    (discrete_labelled size).serveAll requests (hsize.symm ▸ hrequests)
  have hrepresents := hlabelled.represents
  rw [hsize', hsize] at hrepresents
  rw [hsize] at hp
  exact ⟨p, hp, hrepresents⟩

/-- Node 4 is deleted and takes the class of node 2 in, although that class gives the label. The
path of node 0 is shortened on the way. -/
theorem five_requests_refine_labels :
    let requests : List Request := [.merge 0 1, .merge 1 3, .delete 4, .merge 4 2, .lookup 0,
      .images [0, 1, 2, 3, 4], .canonicalNodes]
    (∀ r ∈ requests, ∀ n ∈ r.nodes, n < 5) ∧
      Labels.discrete.answers 5 requests = [.done, .done, .done, .done, .node (some 3),
        .images [some 3, some 3, none, some 3, none], .nodes [3]] ∧
      ∃ p, (discrete 5).serveAll? requests = some (Labels.discrete.answers 5 requests, p) ∧
        p.Represents 5 (Labels.discrete.afterAll requests) ∧ p.standing 2 = .mergedInto 4 := by
  intro requests
  have hnodes : ∀ r ∈ requests, ∀ n ∈ r.nodes, n < 5 := by decide
  obtain ⟨p, hp, hrepresents⟩ := requests_refine_labels 5 requests hnodes
  have hstanding : ((discrete 5).serveAll? requests).map (·.2.standing 2) =
      some (.mergedInto 4) := by
    decide
  rw [hp] at hstanding
  exact ⟨hnodes, by decide, p, hp, hrepresents, Option.some.inj hstanding⟩

end WireLogic.Partition
