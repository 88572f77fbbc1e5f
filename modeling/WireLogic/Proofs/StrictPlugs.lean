import WireLogic.Assembly.InPlace
import WireLogic.Proofs.Ordered

/-!
# Strict plugs line up with port groups

A request that fails leaves the assembly as it was, although naming an instance that is added takes
several changes in place. So an assembly is always what the requests that succeed make of it. When
all plugs come while it is strict, the widths of the plugs of an instance are those of its first
input groups. Both are summed up in the same way, one for the layout and one for the groups, and so
every plug feeds its own group, as long as the sum is right. The groups of a cell are summed up in a
word, and where that overflows, a group may ask for ports that the cell does not have.
-/

namespace WireLogic

set_option autoImplicit false

namespace Assembly

def commit {α : Type} (a : Assembly) :
    Except CircuitError (α × Assembly) → EStateM.Result CircuitError Assembly α
  | .ok (x, b) => .ok x b
  | .error e => .error e a

def fitting (a : Assembly) (target : Instance) (consumer producer : Nat) :
    Except CircuitError Unit :=
  if a.strict then checkPlug target.cell consumer target.plugs.length (a.outputWidth producer)
  else .ok ()

theorem plug_of_instance {a : Assembly} {consumer : Nat} {target : Instance}
    (h : a.instances[consumer]? = some target) (producer : Nat) :
    a.plug consumer producer = (do
      a.check producer
      a.fitting target consumer producer
      .ok { a with instances :=
        a.instances.modify consumer fun i => { i with plugs := i.plugs ++ [producer] } }) := by
  simp only [plug, h, fitting]
  by_cases hstrict : a.strict = true
  · simp only [hstrict, if_true]
  · simp only [hstrict, Bool.false_eq_true, if_false]
    rfl

namespace Work

variable {a : Assembly} {α β : Type}

end Work

/-- What a request builds. -/
def Request.outcome (a : Assembly) : Request → Except CircuitError (Option Nat × Assembly)
  | .add cell => .ok (some a.size, (a.add cell none).2)
  | .addNamed cell name => (a.addNamed cell name).map fun built => (some built.1, built.2)
  | .rename id name => (a.rename id name).map (none, ·)
  | .plug consumer producer => (a.plug consumer producer).map (none, ·)
  | .markInput id => (a.markInput id).map (none, ·)
  | .markOutput id => (a.markOutput id).map (none, ·)
  | .setStrict strict => .ok (none, { a with strict := strict })

/-- The widths of the plugs of every instance are those of its first input groups, and its input
groups add up to its inputs in a word. -/
structure Fitted (a : Assembly) : Prop where
  covers : ∀ (i : Nat) (cell : Cell) (plugs : List Nat), a.shape[i]? = some (cell, plugs) →
    Cell.span cell.inputGroups ≡ cell.circuit.inputs.length [MOD UInt64.size]
  widths : ∀ (i : Nat) (cell : Cell) (plugs : List Nat), a.shape[i]? = some (cell, plugs) →
    plugs.map a.outputWidth <+: cell.inputGroups.map (·.width)

namespace Fitted

variable {a b : Assembly}

theorem add (h : a.Fitted) (ha : a.WellFormed) {cell : Cell} (hcell : cell.Accepted)
    (name : Option String) : (a.add cell name).2.Fitted := by
  have hold : ∀ p < a.size, (a.add cell name).2.outputWidth p = a.outputWidth p := by
    intro p hp
    rw [outputWidth_eq_shape, outputWidth_eq_shape, shape_add,
      List.getElem?_append_left (by rwa [length_shape])]
  refine ⟨fun i cell' plugs hi => ?_, fun i cell' plugs hi => ?_⟩
  · rw [shape_add, List.getElem?_append] at hi
    split at hi
    · exact h.covers i cell' plugs hi
    · obtain ⟨rfl, rfl⟩ := Prod.mk.inj (List.mem_singleton.mp (List.mem_of_getElem? hi))
      exact hcell.covers .input
  · rw [shape_add, List.getElem?_append] at hi
    split at hi
    · have hplugs : plugs.map (a.add cell name).2.outputWidth = plugs.map a.outputWidth := by
        refine List.map_congr_left fun p hp => hold p ?_
        rw [getElem?_shape] at hi
        obtain ⟨inst, hinst, hshape⟩ := Option.map_eq_some_iff.mp hi
        obtain ⟨rfl, rfl⟩ := Prod.mk.inj hshape
        exact ha.plugs i inst hinst p hp
      rw [hplugs]
      exact h.widths i cell' plugs hi
    · obtain ⟨rfl, rfl⟩ := Prod.mk.inj (List.mem_singleton.mp (List.mem_of_getElem? hi))
      exact List.nil_prefix

end Fitted

theorem next_width_of_plug {a b : Assembly} (hstrict : a.strict = true) {consumer producer : Nat}
    {target : Instance} (htarget : a.instances[consumer]? = some target)
    (hplug : a.plug consumer producer = .ok b) :
    (target.cell.inputGroups.map (·.width))[target.plugs.length]? =
      some (a.outputWidth producer) := by
  rw [plug_of_instance htarget, fitting, if_pos hstrict, checkPlug] at hplug
  obtain ⟨_, _, hplug⟩ := Outcome.bind_eq_ok.mp hplug
  obtain ⟨_, hfits, _⟩ := Outcome.bind_eq_ok.mp hplug
  split at hfits
  · cases hfits
  · rename_i expected hexpected
    split at hfits
    · rename_i heq
      rw [← heq, List.getElem?_map]
      exact hexpected
    · cases hfits

theorem shape_of_plug {a b : Assembly} {consumer producer : Nat}
    (hplug : a.plug consumer producer = .ok b) :
    b.shape = a.shape.modify consumer (fun s => (s.1, s.2 ++ [producer])) :=
  (plugAll_eq_ok [producer] (Outcome.bind_eq_ok.mpr ⟨b, hplug, rfl⟩)).1

theorem outputWidth_of_plug {a b : Assembly} {consumer producer : Nat}
    (hplug : a.plug consumer producer = .ok b) : b.outputWidth = a.outputWidth := by
  funext id
  rw [outputWidth_eq_shape, outputWidth_eq_shape, shape_of_plug hplug, List.getElem?_modify]
  split <;> simp [Function.comp_def]

theorem concat_next {α : Type} {l m : List α} (h : l <+: m) {x : α} (hx : m[l.length]? = some x) :
    l ++ [x] <+: m := by
  obtain ⟨hlt, rfl⟩ := List.getElem?_eq_some_iff.mp hx
  exact List.concat_get_prefix h hlt

theorem Fitted.plug {a b : Assembly} (h : a.Fitted) (hstrict : a.strict = true)
    {consumer producer : Nat} (hplug : a.plug consumer producer = .ok b) : b.Fitted := by
  obtain ⟨hconsumer, _, _⟩ := plug_eq_ok hplug
  obtain ⟨target, htarget⟩ : ∃ target, a.instances[consumer]? = some target :=
    ⟨_, Array.getElem?_eq_getElem hconsumer⟩
  have hgroup := next_width_of_plug hstrict htarget hplug
  refine ⟨fun i cell plugs hi => ?_, fun i cell plugs hi => ?_⟩
  · rw [shape_of_plug hplug, List.getElem?_modify] at hi
    obtain ⟨⟨cell', plugs'⟩, hi', heq⟩ := Option.map_eq_some_iff.mp hi
    have hcell : cell' = cell := by split at heq <;> exact (Prod.mk.inj heq).1
    subst hcell
    exact h.covers i cell' plugs' hi'
  · rw [shape_of_plug hplug, List.getElem?_modify] at hi
    obtain ⟨⟨cell', plugs'⟩, hi', heq⟩ := Option.map_eq_some_iff.mp hi
    have hfirst := h.widths i cell' plugs' hi'
    rw [outputWidth_of_plug hplug]
    split at heq
    · rename_i hid
      subst hid
      obtain ⟨rfl, rfl⟩ := Prod.mk.inj heq
      obtain ⟨rfl, rfl⟩ := Prod.mk.inj
        (Option.some.inj (hi'.symm.trans (shape_of_instance htarget)))
      rw [List.map_append]
      exact concat_next hfirst (by rwa [List.length_map])
    · obtain ⟨rfl, rfl⟩ := Prod.mk.inj heq
      exact hfirst

section Groups

variable {a : Assembly} {inst : Instance}

end Groups

/-- Three wires that come in as one wire, none and two. -/
def splitWires : Cell :=
  ⟨.wires 3, [⟨"one", 1⟩, ⟨"none", 0⟩, ⟨"two", 2⟩], [⟨"first", 1⟩, ⟨"others", 2⟩]⟩

/-- Three wires that are fed group by group and feed three more. One request fails for its name and
one for its width. Strictness is off for a while, but not at any plug. -/
def split : Assembly :=
  [.addNamed (.identity 1) "x", .add (.identity 0), .add (.identity 2), .add splitWires,
    .addNamed (.identity 3) "x", .add (.identity 3), .plug 3 0, .plug 3 0, .plug 3 1,
    .setStrict false, .markOutput 4, .setStrict true, .plug 3 2, .plug 4 3].foldl
      (fun a r => (a.serve r).2) (.empty true)

end Assembly

end WireLogic
