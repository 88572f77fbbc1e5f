import WireLogic.Proofs.Layout

/-!
# How plugs are spread over inputs

The plugs of an instance take its inputs in turn, each as many as it has output bits. What they take
can run over the inputs or leave some of them open. Either way every input is fed at most once, by
the bit that `source?` finds, so the sites that have a node of their own are as many as the layout
expects.
-/

namespace WireLogic

set_option autoImplicit false

namespace Assembly

variable {a : Assembly}

/-- The number of output bits of several instances together. -/
def totalOutput (a : Assembly) (plugs : List Nat) : Nat := (plugs.map a.outputWidth).sum

theorem totalOutput_cons (producer : Nat) (plugs : List Nat) :
    a.totalOutput (producer :: plugs) = a.outputWidth producer + a.totalOutput plugs := by
  simp [totalOutput]

theorem getElem?_shares (plugs inputs : List Nat) (k : Nat) :
    (a.shares plugs inputs)[k]? = plugs[k]?.map fun producer =>
      (inputs.drop (a.totalOutput (plugs.take k))).take (a.outputWidth producer) := by
  induction plugs generalizing inputs k with
  | nil => simp [shares]
  | cons producer rest ih =>
    cases k with
    | zero => simp [shares, totalOutput]
    | succ k =>
      rw [shares, List.getElem?_cons_succ, ih, List.getElem?_cons_succ, List.take_succ_cons,
        totalOutput_cons, List.drop_drop]

theorem length_shares (plugs inputs : List Nat) :
    (a.shares plugs inputs).length = plugs.length := by
  induction plugs generalizing inputs with
  | nil => rfl
  | cons producer rest ih => simp [shares, ih]

theorem flatten_shares (plugs inputs : List Nat) :
    (a.shares plugs inputs).flatten = inputs.take (a.totalOutput plugs) := by
  induction plugs generalizing inputs with
  | nil => simp [shares, totalOutput]
  | cons producer rest ih =>
    rw [shares, List.flatten_cons, ih, totalOutput_cons, List.take_add]

theorem feed_eq_some_iff {plugs : List Nat} {position producer bit : Nat} :
    a.feed plugs position = some (producer, bit) ↔
      ∃ k, plugs[k]? = some producer ∧ bit < a.outputWidth producer ∧
        position = a.totalOutput (plugs.take k) + bit := by
  induction plugs generalizing position with
  | nil => simp [feed]
  | cons first rest ih =>
    unfold feed
    split
    · rename_i hlt
      constructor
      · intro h
        obtain ⟨rfl, rfl⟩ := Prod.mk.inj (Option.some.inj h)
        exact ⟨0, rfl, hlt, by simp [totalOutput]⟩
      · rintro ⟨k, hk, hbit, hposition⟩
        cases k with
        | zero =>
          obtain rfl := Option.some.inj hk
          simpa [totalOutput] using hposition
        | succ k =>
          rw [List.take_succ_cons, totalOutput_cons] at hposition
          omega
    · rename_i hge
      rw [ih]
      constructor
      · rintro ⟨k, hk, hbit, hposition⟩
        refine ⟨k + 1, hk, hbit, ?_⟩
        rw [List.take_succ_cons, totalOutput_cons]
        omega
      · rintro ⟨k, hk, hbit, hposition⟩
        cases k with
        | zero =>
          obtain rfl := Option.some.inj hk
          simp [totalOutput] at hposition
          omega
        | succ k =>
          rw [List.take_succ_cons, totalOutput_cons] at hposition
          exact ⟨k, hk, hbit, by omega⟩

/-- The given bit of the `k`-th plug of an instance goes to its input `node`: it stands there behind
all bits of the plugs before. -/
def PlugFeeds (a : Assembly) (inst : Instance) (k bit node : Nat) : Prop :=
  ∃ producer, inst.plugs[k]? = some producer ∧ bit < a.outputWidth producer ∧
    inst.cell.circuit.inputs[a.totalOutput (inst.plugs.take k) + bit]? = some node

theorem PlugFeeds.mem_inputs {inst : Instance} {k bit node : Nat}
    (h : a.PlugFeeds inst k bit node) : node ∈ inst.cell.circuit.inputs := by
  obtain ⟨_, _, _, hnode⟩ := h
  exact List.mem_of_getElem? hnode

theorem plugFeeds_iff_share {inst : Instance} {nodes : List Nat} {k : Nat}
    (hnodes : (a.shares inst.plugs inst.cell.circuit.inputs)[k]? = some nodes) (bit node : Nat) :
    a.PlugFeeds inst k bit node ↔ nodes[bit]? = some node := by
  rw [getElem?_shares] at hnodes
  obtain ⟨producer, hproducer, rfl⟩ := Option.map_eq_some_iff.mp hnodes
  simp only [PlugFeeds, hproducer, Option.some_inj, exists_eq_left']
  rw [List.getElem?_take, List.getElem?_drop, Option.ite_none_right_eq_some]

theorem WellFormed.source?_iff_plugFeeds (ha : a.WellFormed) {id node producer bit : Nat} :
    a.source? ⟨id, node⟩ = some (producer, bit) ↔
      id ∉ a.inputs ∧ ∃ inst k, a.instances[id]? = some inst ∧ inst.plugs[k]? = some producer ∧
        a.PlugFeeds inst k bit node := by
  rw [source?_eq_some_iff]
  refine and_congr_right' (exists_congr fun inst => ?_)
  constructor
  · rintro ⟨position, hinst, hposition, hfeed⟩
    obtain ⟨k, hk, hbit, rfl⟩ := feed_eq_some_iff.mp hfeed
    have hnodup := (ha.circuit id inst hinst).inputs_nodup
    have hnode := (idxOf?_eq_some_iff_of_nodup hnodup).mp hposition
    exact ⟨k, hinst, hk, producer, hk, hbit, hnode⟩
  · rintro ⟨k, hinst, hk, producer', hk', hbit, hnode⟩
    obtain rfl := Option.some.inj (hk.symm.trans hk')
    have hnodup := (ha.circuit id inst hinst).inputs_nodup
    exact ⟨_, hinst, (idxOf?_eq_some_iff_of_nodup hnodup).mpr hnode,
      feed_eq_some_iff.mpr ⟨k, hk, hbit, rfl⟩⟩

theorem wiring_of_designated {id : Nat} (h : id ∈ a.inputs) : a.wiring id = [] := if_pos h

theorem wiring_of_instance {id : Nat} {inst : Instance} (hinst : a.instances[id]? = some inst)
    (hin : id ∉ a.inputs) :
    a.wiring id =
      (inst.plugs.zip (a.shares inst.plugs inst.cell.circuit.inputs)).flatMap fun share =>
        share.2.zipIdx.map fun n => (n.1, share.1, n.2) := by
  simp only [wiring, if_neg hin, hinst]

theorem mem_wiring_iff {id node producer bit : Nat} {inst : Instance}
    (hinst : a.instances[id]? = some inst) :
    (node, producer, bit) ∈ a.wiring id ↔ id ∉ a.inputs ∧ ∃ k, inst.plugs[k]? = some producer ∧
      a.PlugFeeds inst k bit node := by
  by_cases hin : id ∈ a.inputs
  · simp [wiring_of_designated hin, hin]
  · simp only [wiring_of_instance hinst hin, List.mem_flatMap, List.mem_map, Prod.mk.injEq, hin,
      not_false_eq_true, true_and]
    constructor
    · rintro ⟨⟨p, nodes⟩, hshare, ⟨n, b⟩, hbit, rfl, rfl, rfl⟩
      obtain ⟨k, hk⟩ := List.mem_iff_getElem?.mp hshare
      obtain ⟨hp, hnodes⟩ := List.getElem?_zip_eq_some.mp hk
      exact ⟨k, hp, (plugFeeds_iff_share hnodes b n).mpr (List.mem_zipIdx_iff_getElem?.mp hbit)⟩
    · rintro ⟨k, hk, hfeeds⟩
      obtain ⟨nodes, hnodes⟩ : ∃ nodes,
          (a.shares inst.plugs inst.cell.circuit.inputs)[k]? = some nodes :=
        ⟨_, by rw [getElem?_shares, hk, Option.map_some]⟩
      refine ⟨(producer, nodes), ?_, (node, bit), ?_, rfl, rfl, rfl⟩
      · exact List.mem_iff_getElem?.mpr ⟨k, List.getElem?_zip_eq_some.mpr ⟨hk, hnodes⟩⟩
      · exact List.mem_zipIdx_iff_getElem?.mpr ((plugFeeds_iff_share hnodes bit node).mp hfeeds)

theorem map_fst_wiring {id : Nat} {inst : Instance} (hinst : a.instances[id]? = some inst)
    (hin : id ∉ a.inputs) :
    (a.wiring id).map Prod.fst = inst.cell.circuit.inputs.take (a.totalOutput inst.plugs) := by
  have hshare : ∀ share : Nat × List Nat,
      (share.2.zipIdx.map fun n => (n.1, share.1, n.2)).map Prod.fst = share.2 := by
    intro share
    rw [List.map_map]
    exact List.zipIdx_map_fst 0 share.2
  have hflat : (a.wiring id).map Prod.fst =
      (inst.plugs.zip (a.shares inst.plugs inst.cell.circuit.inputs)).flatMap Prod.snd := by
    rw [wiring_of_instance hinst hin, List.map_flatMap]
    exact congrArg (List.flatMap · _) (funext hshare)
  rw [hflat, List.flatMap_def, List.map_snd_zip (length_shares _ _).le, flatten_shares]

theorem sitesOf_nodup (a : Assembly) (id : Nat) : (a.sitesOf id).Nodup := by
  unfold sitesOf
  split
  · exact List.nodup_nil
  · refine List.Nodup.map (fun m n hmn => ?_) List.nodup_range
    exact (Site.mk.inj hmn).2

theorem mem_sitesOf_iff {id : Nat} {inst : Instance} (hinst : a.instances[id]? = some inst)
    {s : Site} : s ∈ a.sitesOf id ↔ s.id = id ∧ s.node < inst.cell.circuit.size := by
  simp only [sitesOf, cell?_of_instance hinst, List.mem_map, List.mem_range]
  constructor
  · rintro ⟨n, hn, rfl⟩
    exact ⟨rfl, hn⟩
  · rintro ⟨rfl, hn⟩
    exact ⟨s.node, hn, rfl⟩

theorem WellFormed.length_plugged_sitesOf (ha : a.WellFormed) (id : Nat) :
    ((a.sitesOf id).filter a.isPlugged).length = (a.wiring id).length := by
  cases hinst : a.instances[id]? with
  | none => simp [sitesOf, cell?, wiring, hinst]
  | some inst =>
    have hcircuit := ha.circuit id inst hinst
    have hfst : ((a.wiring id).map Prod.fst).Nodup := by
      by_cases hin : id ∈ a.inputs
      · simp [wiring_of_designated hin]
      · rw [map_fst_wiring hinst hin]
        exact hcircuit.inputs_nodup.take
    have hperm : ((a.sitesOf id).filter a.isPlugged).Perm
        (((a.wiring id).map Prod.fst).map (Site.mk id)) := by
      refine (List.perm_ext_iff_of_nodup ((a.sitesOf_nodup id).filter _)
        (hfst.map fun m n hmn => (Site.mk.inj hmn).2)).mpr fun s => ?_
      rw [List.mem_filter, mem_sitesOf_iff hinst, List.map_map, List.mem_map, isPlugged,
        Option.isSome_iff_exists]
      constructor
      · rintro ⟨⟨rfl, _⟩, ⟨producer, bit⟩, hsource⟩
        refine ⟨(s.node, producer, bit), ?_, rfl⟩
        obtain ⟨hin, inst', k, hinst', hfed⟩ := ha.source?_iff_plugFeeds.mp hsource
        obtain rfl := Option.some.inj (hinst.symm.trans hinst')
        exact (mem_wiring_iff hinst).mpr ⟨hin, k, hfed⟩
      · rintro ⟨⟨node, producer, bit⟩, hwire, rfl⟩
        obtain ⟨hin, k, hk, hfeeds⟩ := (mem_wiring_iff hinst).mp hwire
        exact ⟨⟨rfl, hcircuit.inputs_lt node hfeeds.mem_inputs⟩, _,
          ha.source?_iff_plugFeeds.mpr ⟨hin, inst, k, hinst, hk, hfeeds⟩⟩
    simpa using hperm.length_eq

end Assembly

namespace Layout

variable {a : Assembly}

theorem plugged_eq_wireCount (ha : a.WellFormed) : (ofAssembly a).plugged = a.wireCount := by
  change (a.sites.filter a.isPlugged).length = a.wireCount
  rw [Assembly.sites, List.filter_flatMap, List.length_flatMap, Assembly.wireCount]
  simp only [ha.length_plugged_sitesOf]
  rfl

theorem length_sites (a : Assembly) : a.sites.length = a.nodeCount := by
  have hsizes : (List.range a.size).map (fun id => (a.sitesOf id).length) =
      a.instances.toList.map (·.cell.circuit.size) := by
    refine List.ext_getElem (by simp [Assembly.size]) fun id hid _ => ?_
    have hlt : id < a.instances.size := by simpa [Assembly.size] using hid
    simp [Assembly.sitesOf, Assembly.cell?, hlt]
  rw [Assembly.sites, List.length_flatMap, hsizes, Assembly.nodeCount]
  rfl

theorem size_add_wireCount (ha : a.WellFormed) :
    (ofAssembly a).size + a.wireCount = a.nodeCount := by
  rw [← plugged_eq_wireCount ha, ← length_sites, List.length_eq_length_filter_add a.isPlugged,
    Nat.add_comm, size_eq]
  rfl

theorem make_eq_ok {l : Layout} (h : make a = .ok l) : l = ofAssembly a := by
  simp only [make] at h
  split at h
  · exact (Except.ok.inj h).symm
  · cases h

/-- The nodes of a layout are always as many as it expects. -/
theorem make_of_wellFormed (ha : a.WellFormed) : make a = .ok (ofAssembly a) :=
  if_pos (Nat.eq_sub_of_add_eq (size_add_wireCount ha))

end Layout

end WireLogic
