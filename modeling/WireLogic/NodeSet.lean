/-!
# Finite sets of nodes

A set of nodes is a strictly ascending list. Equal sets are then equal values, and listing a set is
listing it in ascending order.
-/

namespace WireLogic

set_option autoImplicit false

structure NodeSet where
  toList : List Nat
  ascending : toList.Pairwise (· < ·)
deriving DecidableEq

namespace NodeSet

def empty : NodeSet := ⟨[], .nil⟩

instance : EmptyCollection NodeSet := ⟨empty⟩

instance : Inhabited NodeSet := ⟨empty⟩

instance : Membership Nat NodeSet := ⟨fun s x => x ∈ s.toList⟩

theorem mem_def {x : Nat} {s : NodeSet} : x ∈ s ↔ x ∈ s.toList := Iff.rfl

instance (x : Nat) (s : NodeSet) : Decidable (x ∈ s) :=
  inferInstanceAs (Decidable (x ∈ s.toList))

theorem nodup (s : NodeSet) : s.toList.Nodup := s.ascending.imp Nat.ne_of_lt

def size (s : NodeSet) : Nat := s.toList.length

def isEmpty (s : NodeSet) : Bool := s.toList.isEmpty

/-- Puts `x` where it belongs in an ascending list, once. -/
def place (x : Nat) : List Nat → List Nat
  | [] => [x]
  | y :: l => if x < y then x :: y :: l else if x = y then y :: l else y :: place x l

theorem mem_place {x z : Nat} (l : List Nat) : z ∈ place x l ↔ z = x ∨ z ∈ l := by
  induction l with
  | nil => simp [place]
  | cons y l ih =>
    unfold place
    split
    · simp
    · split
      · rename_i h
        subst h
        simp
      · simp only [List.mem_cons, ih]
        exact or_left_comm

theorem place_ascending {x : Nat} {l : List Nat} (h : l.Pairwise (· < ·)) :
    (place x l).Pairwise (· < ·) := by
  induction l with
  | nil => simp [place]
  | cons y l ih =>
    obtain ⟨hy, hl⟩ := List.pairwise_cons.mp h
    unfold place
    split
    · rename_i hxy
      refine List.pairwise_cons.mpr ⟨?_, h⟩
      intro z hz
      rcases List.mem_cons.mp hz with rfl | hz
      · exact hxy
      · exact Nat.lt_trans hxy (hy z hz)
    · split
      · exact h
      · refine List.pairwise_cons.mpr ⟨?_, ih hl⟩
        intro z hz
        rcases (mem_place l).mp hz with rfl | hz
        · omega
        · exact hy z hz

def insert (x : Nat) (s : NodeSet) : NodeSet := ⟨place x s.toList, place_ascending s.ascending⟩

def erase (x : Nat) (s : NodeSet) : NodeSet :=
  ⟨s.toList.filter (· != x), s.ascending.filter _⟩

def ofList (l : List Nat) : NodeSet := l.foldr insert empty

def insertAll (s : NodeSet) (l : List Nat) : NodeSet := l.foldl (fun t x => t.insert x) s

@[simp] theorem not_mem_empty {x : Nat} : ¬ x ∈ (∅ : NodeSet) := by
  intro h
  exact nomatch h

@[simp] theorem mem_insert {x z : Nat} {s : NodeSet} : z ∈ s.insert x ↔ z = x ∨ z ∈ s :=
  mem_place s.toList

@[simp] theorem mem_erase {x z : Nat} {s : NodeSet} : z ∈ s.erase x ↔ z ∈ s ∧ z ≠ x := by
  simp [erase, mem_def]

@[simp] theorem mem_ofList {z : Nat} {l : List Nat} : z ∈ ofList l ↔ z ∈ l := by
  induction l with
  | nil => exact iff_of_false not_mem_empty (List.not_mem_nil)
  | cons y l ih =>
    change z ∈ (ofList l).insert y ↔ z ∈ y :: l
    rw [mem_insert, ih, List.mem_cons]

@[simp] theorem mem_insertAll {z : Nat} {s : NodeSet} {l : List Nat} :
    z ∈ s.insertAll l ↔ z ∈ s ∨ z ∈ l := by
  induction l generalizing s with
  | nil => simp [insertAll]
  | cons y l ih =>
    change z ∈ (s.insert y).insertAll l ↔ z ∈ s ∨ z ∈ y :: l
    rw [ih, mem_insert, List.mem_cons]
    grind

theorem isEmpty_iff {s : NodeSet} : s.isEmpty = true ↔ ∀ x, x ∉ s := by
  unfold isEmpty
  rw [List.isEmpty_iff, List.eq_nil_iff_forall_not_mem]
  exact Iff.rfl

theorem ext {s t : NodeSet} (h : ∀ x, x ∈ s ↔ x ∈ t) : s = t := by
  obtain ⟨l, hl⟩ := s
  obtain ⟨m, hm⟩ := t
  have key : l = m := by
    induction l generalizing m with
    | nil =>
      cases m with
      | nil => rfl
      | cons y m => exact absurd ((h y).mpr (List.mem_cons_self)) (List.not_mem_nil)
    | cons x l ih =>
      cases m with
      | nil => exact absurd ((h x).mp (List.mem_cons_self)) (List.not_mem_nil)
      | cons y m =>
        obtain ⟨hx, hl'⟩ := List.pairwise_cons.mp hl
        obtain ⟨hy, hm'⟩ := List.pairwise_cons.mp hm
        have hxm : x ∈ y :: m := (h x).mp (List.mem_cons_self)
        have hyl : y ∈ x :: l := (h y).mpr (List.mem_cons_self)
        have hxy : x = y := by
          rcases List.mem_cons.mp hxm with hxy | hxm
          · exact hxy
          · rcases List.mem_cons.mp hyl with hyx | hyl
            · exact hyx.symm
            · have h1 := hx y hyl
              have h2 := hy x hxm
              omega
        subst hxy
        congr 1
        refine ih hl' m hm' ?_
        intro z
        have hz := h z
        simp only [mem_def, List.mem_cons] at hz ⊢
        constructor
        · intro hzl
          rcases hz.mp (Or.inr hzl) with rfl | hzm
          · exact absurd (hx z hzl) (Nat.lt_irrefl z)
          · exact hzm
        · intro hzm
          rcases hz.mpr (Or.inr hzm) with rfl | hzl
          · exact absurd (hy z hzm) (Nat.lt_irrefl z)
          · exact hzl
  subst key
  rfl

theorem eq_empty_of_isEmpty {s : NodeSet} (h : s.isEmpty = true) : s = ∅ :=
  ext fun x => iff_of_false (isEmpty_iff.mp h x) not_mem_empty

end NodeSet

end WireLogic
