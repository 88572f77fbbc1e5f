import WireLogic.Assembly.Layout
import Mathlib.Data.List.Nodup

/-!
# Numbering sites

Flat nodes are counted off by instance and then by node, leaving out the plugged inputs. So a site
gets its index among all the sites that are not plugged.
-/

namespace WireLogic

set_option autoImplicit false

namespace Assembly

variable {a : Assembly} {id : Nat} {s : Site}

def unplugged (a : Assembly) (sites : List Site) : List Site :=
  sites.filter fun s => !a.isPlugged s

/-- The sites that have a node of their own, in their order. -/
def placed (a : Assembly) : List Site := a.unplugged a.sites

theorem unplugged_cons_of_plugged (h : a.isPlugged s = true) (rest : List Site) :
    a.unplugged (s :: rest) = a.unplugged rest :=
  List.filter_cons_of_neg (by simp [h])

theorem unplugged_cons_of_free (h : a.isPlugged s = false) (rest : List Site) :
    a.unplugged (s :: rest) = s :: a.unplugged rest :=
  List.filter_cons_of_pos (by simp [h])

theorem unplugged_append (a : Assembly) (sites rest : List Site) :
    a.unplugged (sites ++ rest) = a.unplugged sites ++ a.unplugged rest :=
  List.filter_append ..

theorem nodup_sitesOf (a : Assembly) (id : Nat) : (a.sitesOf id).Nodup := by
  unfold sitesOf
  split
  · exact List.nodup_nil
  · exact List.nodup_range.map fun _ _ h => congrArg Site.node h

theorem id_of_mem_sitesOf (h : s ∈ a.sitesOf id) : s.id = id := by
  unfold sitesOf at h
  split at h
  · cases h
  · obtain ⟨node, _, rfl⟩ := List.mem_map.mp h
    rfl

theorem getElem?_sitesOf (h : s ∈ a.sitesOf id) : (a.sitesOf id)[s.node]? = some s := by
  unfold sitesOf at h ⊢
  split at h
  · cases h
  · obtain ⟨node, hnode, rfl⟩ := List.mem_map.mp h
    simp [List.mem_range.mp hnode]

theorem eq_of_getElem?_sitesOf {node : Nat} (h : (a.sitesOf id)[node]? = some s) :
    s = ⟨id, node⟩ := by
  unfold sitesOf at h
  split at h
  · cases h
  · obtain ⟨n, hn, rfl⟩ := Option.map_eq_some_iff.mp (List.getElem?_map.symm.trans h)
    rw [(List.getElem?_eq_some_iff.mp hn).2.symm, List.getElem_range]

end Assembly

namespace Layout

variable {a : Assembly}

theorem idxOf?_append (xs ys : List Site) (s : Site) :
    (xs ++ ys).idxOf? s = (xs.idxOf? s).or ((ys.idxOf? s).map (· + xs.length)) :=
  List.findIdx?_append

theorem map_shift (index : Option Nat) (next passed : Nat) :
    (index.map (· + passed)).map (next + ·) = index.map (next + passed + ·) := by
  cases index with
  | none => rfl
  | some k =>
    simp only [Option.map_some, Option.some.injEq]
    omega

theorem number_snd (sites : List Site) (next : Nat) :
    (number a sites next).2 = next + (a.unplugged sites).length := by
  induction sites generalizing next with
  | nil => rfl
  | cons s rest ih =>
    unfold number
    cases hs : a.isPlugged s with
    | true =>
      rw [Assembly.unplugged_cons_of_plugged hs]
      exact ih next
    | false =>
      rw [Assembly.unplugged_cons_of_free hs]
      exact (ih (next + 1)).trans (Nat.add_right_comm next 1 _)

theorem number_fst {sites : List Site} (hsites : sites.Nodup) (next : Nat) :
    (number a sites next).1 =
      sites.map fun s => ((a.unplugged sites).idxOf? s).map (next + ·) := by
  induction sites generalizing next with
  | nil => rfl
  | cons s rest ih =>
    obtain ⟨hs, hrest⟩ := List.nodup_cons.mp hsites
    unfold number
    cases hplugged : a.isPlugged s with
    | true =>
      have hnone : (a.unplugged rest).idxOf? s = none :=
        List.idxOf?_eq_none_iff.mpr fun h => hs (List.mem_of_mem_filter h)
      rw [Assembly.unplugged_cons_of_plugged hplugged, List.map_cons, hnone]
      exact congrArg (none :: ·) (ih hrest next)
    | false =>
      rw [Assembly.unplugged_cons_of_free hplugged, List.map_cons]
      refine congrArg₂ List.cons (by simp [List.idxOf?_cons]) ((ih hrest (next + 1)).trans ?_)
      refine List.map_congr_left fun t ht => ?_
      have hne : s ≠ t := fun h => hs (h ▸ ht)
      rw [List.idxOf?_cons, if_neg (by simpa using hne), map_shift]

theorem numberAll_snd (ids : List Nat) (next : Nat) :
    (numberAll a ids next).2 = next + (a.unplugged (ids.flatMap a.sitesOf)).length := by
  induction ids generalizing next with
  | nil => rfl
  | cons id rest ih =>
    rw [List.flatMap_cons, Assembly.unplugged_append, List.length_append, ← Nat.add_assoc]
    exact (ih _).trans (congrArg (· + _) (number_snd _ next))

theorem numberAll_fst {ids : List Nat} (hids : ids.Nodup) (next : Nat) :
    (numberAll a ids next).1 = ids.map fun id => (a.sitesOf id).map fun s =>
      ((a.unplugged (ids.flatMap a.sitesOf)).idxOf? s).map (next + ·) := by
  induction ids generalizing next with
  | nil => rfl
  | cons id rest ih =>
    obtain ⟨hid, hrest⟩ := List.nodup_cons.mp hids
    rw [List.map_cons, List.flatMap_cons, Assembly.unplugged_append]
    refine congrArg₂ List.cons ((number_fst (a.nodup_sitesOf id) next).trans ?_)
      ((ih hrest _).trans ?_)
    · refine List.map_congr_left fun s hs => ?_
      rw [idxOf?_append]
      cases hfirst : (a.unplugged (a.sitesOf id)).idxOf? s with
      | some k => rfl
      | none =>
        have hplugged : s ∉ a.unplugged (rest.flatMap a.sitesOf) := by
          intro hs'
          exact List.idxOf?_eq_none_iff.mp hfirst
            (List.mem_filter.mpr ⟨hs, (List.mem_filter.mp hs').2⟩)
        rw [List.idxOf?_eq_none_iff.mpr hplugged]
        rfl
    · refine List.map_congr_left fun id' hid' => List.map_congr_left fun s hs => ?_
      have hother : s ∉ a.unplugged (a.sitesOf id) := by
        intro hs'
        have hsame := Assembly.id_of_mem_sitesOf (List.mem_of_mem_filter hs')
        rw [Assembly.id_of_mem_sitesOf hs] at hsame
        exact hid (hsame ▸ hid')
      rw [idxOf?_append, List.idxOf?_eq_none_iff.mpr hother, Option.none_or, map_shift, number_snd]

theorem size_eq (a : Assembly) : (ofAssembly a).size = a.placed.length :=
  (numberAll_snd (List.range a.size) 0).trans (Nat.zero_add _)

/-- The flat node of a site is its index among those that have one. -/
theorem position?_eq (a : Assembly) (s : Site) :
    (ofAssembly a).position? s = a.placed.idxOf? s := by
  have hpositions : (ofAssembly a).positions =
      (List.range a.size).map fun id => (a.sitesOf id).map a.placed.idxOf? := by
    refine (numberAll_fst List.nodup_range 0).trans ?_
    simp only [Nat.zero_add, Option.map_id']
    rfl
  rw [position?, hpositions]
  by_cases hs : s ∈ a.sites
  · obtain ⟨id, hid, hmem⟩ := List.mem_flatMap.mp hs
    obtain rfl := Assembly.id_of_mem_sitesOf hmem
    simp [List.mem_range.mp hid, Assembly.getElem?_sitesOf hmem]
  · have hnone : a.placed.idxOf? s = none :=
      List.idxOf?_eq_none_iff.mpr fun h => hs (List.mem_of_mem_filter h)
    rw [hnone, ← Option.not_isSome_iff_eq_none, Option.isSome_iff_exists]
    rintro ⟨k, hk⟩
    simp only [List.getElem?_map, Option.join_eq_some_iff, Option.bind_eq_some_iff,
      Option.map_eq_some_iff] at hk
    obtain ⟨_, ⟨id, hid, rfl⟩, hrow⟩ := hk
    obtain ⟨hlt, rfl⟩ := List.getElem?_eq_some_iff.mp hid
    obtain ⟨t, ht, hk⟩ := Option.map_eq_some_iff.mp (List.getElem?_map.symm.trans hrow)
    rw [List.getElem_range] at ht
    obtain rfl : t = s := Assembly.eq_of_getElem?_sitesOf ht
    rw [hnone] at hk
    cases hk

end Layout

end WireLogic
