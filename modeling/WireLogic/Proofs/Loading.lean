import WireLogic.Library.Shelf
import WireLogic.Proofs.Growth

/-!
# Loading on demand

The loop that compiles a text, loads what it misses and compiles it again always comes to an end:
a load puts another cell under way, and a retry follows on another cell in the library. What is added
to the library compiles against the final library as it did when it was added, since more cells do
not change what a text was compiled to. Cells are added after those they call, so cells that call
each other in a circle are never added.
-/

namespace WireLogic

set_option autoImplicit false

open Outcome

theorem not_transGen_self_of_acc {α : Type} {r : α → α → Prop} {a : α} (h : Acc (fun b a => r a b) a) :
    ¬ Relation.TransGen r a a := by
  induction h with
  | intro a _ ih =>
    intro hcircle
    obtain ⟨b, hstep, hback⟩ := Relation.TransGen.head'_iff.mp hcircle
    exact ih b hstep (Relation.TransGen.tail' hback hstep)

theorem countP_lt_of_imp {α : Type} {p q : α → Bool} {l : List α}
    (himp : ∀ a ∈ l, p a = true → q a = true) {a : α} (ha : a ∈ l) (hp : p a = false)
    (hq : q a = true) : l.countP p < l.countP q := by
  induction l with
  | nil => cases ha
  | cons b l ih =>
    obtain ⟨hb, hl⟩ := List.forall_mem_cons.mp himp
    rw [List.countP_cons, List.countP_cons]
    rcases List.mem_cons.mp ha with rfl | ha
    · have := List.countP_mono_left hl
      simp [hp, hq]
      omega
    · have := ih hl ha
      split
      · rename_i hpb
        rw [if_pos (hb hpb)]
        omega
      · omega

namespace Shelf

def Calls (shelf : Shelf) (name callee : String) : Prop :=
  ∃ volume text p, shelf.find? name = some volume ∧ volume.text = .ok text ∧
    Program.parse text = .ok p ∧ callee ∈ p.callees

def CallsOpen (shelf : Shelf) (library : Library) (name callee : String) : Prop :=
  shelf.Calls name callee ∧ library.get? callee = none

/-- How compiling a text ends, with as many loads as it takes. -/
inductive Loads (shelf : Shelf) (strict : Bool) : List String → String → String → Library →
    Except LoadError ProbedCell → Library → Prop
  | failed {loading : List String} {source origin : String} {library : Library} {e : LoadError} :
    shelf.attempt strict library source origin loading = .error e →
    Loads shelf strict loading source origin library (.error e) library
  | done {loading : List String} {source origin : String} {library : Library} {d : ProbedCell} :
    shelf.attempt strict library source origin loading = .ok (.done d) →
    Loads shelf strict loading source origin library (.ok d) library
  | nested {loading : List String} {source origin text : String} {library final : Library}
    {volume : Volume} {e : LoadError} :
    shelf.attempt strict library source origin loading = .ok (.load volume text) →
    Loads shelf strict (loading ++ [volume.name]) text volume.origin library (.error e) final →
    Loads shelf strict loading source origin library (.error e) final
  | taken {loading : List String} {source origin text : String} {library final : Library}
    {volume : Volume} {d : ProbedCell} {e : CompileError} :
    shelf.attempt strict library source origin loading = .ok (.load volume text) →
    Loads shelf strict (loading ++ [volume.name]) text volume.origin library (.ok d) final →
    final.register volume.name d.cell = .error e →
    Loads shelf strict loading source origin library (.error (.register e)) final
  | retry {loading : List String} {source origin text : String}
    {library loaded more final : Library} {volume : Volume} {d : ProbedCell}
    {result : Except LoadError ProbedCell} :
    shelf.attempt strict library source origin loading = .ok (.load volume text) →
    Loads shelf strict (loading ++ [volume.name]) text volume.origin library (.ok d) loaded →
    loaded.register volume.name d.cell = .ok more →
    Loads shelf strict loading source origin more result final →
    Loads shelf strict loading source origin library result final

/-- The text calls a volume that the library does not have. -/
structure Wants (shelf : Shelf) (library : Library) (source : String) (volume : Volume) : Prop where
  free : library.get? volume.name = none
  found : shelf.find? volume.name = some volume
  called : ∃ p, Program.parse source = .ok p ∧ volume.name ∈ p.callees

theorem wants_of_missing {shelf : Shelf} {strict : Bool} {library : Library} {source : String}
    {e : CompileError} {volume : Volume} (h : compileProbed source library strict = .error e)
    (hvolume : e.missing?.bind shelf.find? = some volume) : shelf.Wants library source volume := by
  obtain ⟨name, hname, hfound⟩ := Option.bind_eq_some_iff.mp hvolume
  have heq : volume.name = name := by simpa using List.find?_some hfound
  subst heq
  obtain ⟨hfree, hcalled⟩ := compileProbed_missing h hname
  exact ⟨hfree, hfound, hcalled⟩

theorem attempt_spec (shelf : Shelf) (strict : Bool) (library : Library) (source origin : String)
    (loading : List String) :
    Ends
      (fun err => (∀ e, err ≠ .register e) ∧ ∀ under name, err = .circular under name →
        name ∈ loading ∧ ∃ volume, volume.name = name ∧ shelf.Wants library source volume)
      (fun
        | .done d => compileProbed source library strict = .ok d
        | .load volume text => shelf.Wants library source volume ∧ volume.name ∉ loading ∧
          volume.text = .ok text)
      (shelf.attempt strict library source origin loading) := by
  unfold attempt
  cases hcompile : compileProbed source library strict with
  | ok d => rfl
  | error e =>
    simp only
    cases hvolume : e.missing?.bind shelf.find? with
    | none => exact ⟨nofun, nofun⟩
    | some volume =>
      have hwants := wants_of_missing hcompile hvolume
      simp only
      split
      · rename_i hloading
        refine ⟨nofun, fun under name heq => ?_⟩
        obtain ⟨_, rfl⟩ := LoadError.circular.inj heq
        exact ⟨hloading, volume, rfl, hwants⟩
      · rename_i hloading
        cases htext : volume.text with
        | error fault => exact ⟨nofun, nofun⟩
        | ok text => exact ⟨hwants, hloading, htext⟩

theorem attempt_load {shelf : Shelf} {strict : Bool} {library : Library} {source origin : String}
    {loading : List String} {volume : Volume} {text : String}
    (h : shelf.attempt strict library source origin loading = .ok (.load volume text)) :
    shelf.Wants library source volume ∧ volume.name ∉ loading ∧ volume.text = .ok text :=
  (shelf.attempt_spec strict library source origin loading).of_ok h

/-- A library that has grown by cells of the shelf, each compiled against those before it. -/
inductive Grown (shelf : Shelf) (strict : Bool) (library : Library) : Library → Prop
  | start : Grown shelf strict library library
  | add {before after : Library} {volume : Volume} {text : String} {d : ProbedCell} :
    Grown shelf strict library before →
    shelf.find? volume.name = some volume → volume.text = .ok text →
    compileProbed text before strict = .ok d →
    before.register volume.name d.cell = .ok after → Grown shelf strict library after

namespace Grown

variable {shelf : Shelf} {strict : Bool} {library middle final : Library}

theorem trans (h : shelf.Grown strict library middle) (h' : shelf.Grown strict middle final) :
    shelf.Grown strict library final := by
  induction h' with
  | start => exact h
  | add _ hfound htext hcompile hregister ih => exact .add ih hfound htext hcompile hregister

theorem le (h : shelf.Grown strict library final) : library ≤ final := by
  induction h with
  | start => exact le_refl library
  | add _ _ _ _ hregister ih => exact ih.trans (Library.le_of_register hregister)

theorem added (h : shelf.Grown strict library final) {name : String} {cell : Cell}
    (hname : final.get? name = some cell) (hnew : library.get? name = none) :
    ∃ volume text d, shelf.find? name = some volume ∧ volume.text = .ok text ∧
      compileProbed text final strict = .ok d ∧ d.cell = cell := by
  induction h with
  | start =>
    rw [hnew] at hname
    cases hname
  | @add before after volume text d _ hfound htext hcompile hregister ih =>
    have hle := Library.le_of_register hregister
    obtain ⟨_, hget⟩ := Library.register_eq_ok hregister
    rw [hget] at hname
    split at hname
    · rename_i heq
      subst heq
      exact ⟨volume, text, d, hfound, htext, compileProbed_of_le hle hcompile,
        Option.some.inj hname⟩
    · obtain ⟨volume', text', d', hfound', htext', hcompile', hcell⟩ := ih hname
      exact ⟨volume', text', d', hfound', htext', compileProbed_of_le hle hcompile', hcell⟩

theorem acc (h : shelf.Grown strict library final) {name : String} (hname : final.get? name ≠ none)
    (hnew : library.get? name = none) :
    Acc (fun callee caller => shelf.CallsOpen library caller callee) name := by
  induction h generalizing name with
  | start => exact absurd hnew hname
  | @add before after volume text d _ hfound htext hcompile hregister ih =>
    obtain ⟨_, hget⟩ := Library.register_eq_ok hregister
    rw [hget] at hname
    split at hname
    · rename_i heq
      subst heq
      constructor
      rintro callee ⟨⟨volume', text', p, hfound', htext', hparse, hmem⟩, hopen⟩
      obtain rfl := Option.some.inj (hfound.symm.trans hfound')
      obtain rfl := Except.ok.inj (htext.symm.trans htext')
      exact ih (compileProbed_callees hcompile hparse callee hmem) hopen
    · exact ih hname hnew

end Grown

/-- Every cell under way calls, through others, all that the text calls. -/
def Leads (shelf : Shelf) (loading : List String) (source : String) : Prop :=
  ∀ p callee, Program.parse source = .ok p → callee ∈ p.callees →
    ∀ name ∈ loading, Relation.TransGen shelf.Calls name callee

theorem Leads.load {shelf : Shelf} {library : Library} {loading : List String} {source text : String}
    {volume : Volume} (h : shelf.Leads loading source) (hwants : shelf.Wants library source volume)
    (htext : volume.text = .ok text) : shelf.Leads (loading ++ [volume.name]) text := by
  intro p callee hparse hmem name hname
  have hcalls : shelf.Calls volume.name callee := ⟨volume, text, p, hwants.found, htext, hparse, hmem⟩
  rcases List.mem_append.mp hname with hname | hname
  · obtain ⟨p', hparse', hcalled⟩ := hwants.called
    exact (h p' volume.name hparse' hcalled name hname).tail hcalls
  · rw [List.mem_singleton.mp hname]
    exact .single hcalls

namespace Loads

variable {shelf : Shelf} {strict : Bool} {loading : List String} {source origin : String}
  {library final : Library} {result : Except LoadError ProbedCell}

theorem untouched (h : shelf.Loads strict loading source origin library result final)
    {name : String} (hname : name ∈ loading) (hfree : library.get? name = none) :
    final.get? name = none := by
  induction h with
  | failed _ => exact hfree
  | done _ => exact hfree
  | nested _ _ ih => exact ih (List.mem_append_left _ hname) hfree
  | taken _ _ _ ih => exact ih (List.mem_append_left _ hname) hfree
  | @retry loading _ _ _ _ loaded more _ volume d _ hattempt _ hregister _ ih ih' =>
    obtain ⟨_, hnot, _⟩ := attempt_load hattempt
    apply ih' hname
    have hne : name ≠ volume.name := by
      rintro rfl
      exact hnot hname
    rw [(Library.register_eq_ok hregister).2, if_neg hne]
    exact ih (List.mem_append_left _ hname) hfree

theorem eq_ok (h : shelf.Loads strict loading source origin library result final) {d : ProbedCell}
    (hd : result = .ok d) : compileProbed source final strict = .ok d := by
  induction h with
  | failed _ => cases hd
  | @done loading source origin library _ hattempt =>
    rw [← Except.ok.inj hd]
    exact (shelf.attempt_spec strict library source origin loading).of_ok hattempt
  | nested _ _ _ => cases hd
  | taken _ _ _ _ => cases hd
  | retry _ _ _ _ _ ih => exact ih hd

theorem grown (h : shelf.Loads strict loading source origin library result final) :
    shelf.Grown strict library final := by
  induction h with
  | failed _ => exact .start
  | done _ => exact .start
  | nested _ _ ih => exact ih
  | taken _ _ _ ih => exact ih
  | retry hattempt hloads hregister _ ih ih' =>
    obtain ⟨hwants, _, htext⟩ := attempt_load hattempt
    exact (Grown.add ih hwants.found htext (hloads.eq_ok rfl) hregister).trans ih'

theorem ne_register (h : shelf.Loads strict loading source origin library result final)
    (e : CompileError) : result ≠ .error (.register e) := by
  induction h with
  | @failed loading source origin library _ hattempt =>
    intro heq
    obtain ⟨hne, _⟩ :=
      (shelf.attempt_spec strict library source origin loading).of_error hattempt
    exact hne e (Except.error.inj heq)
  | done _ => nofun
  | nested _ _ ih => exact fun heq => ih (by rw [Except.error.inj heq])
  | @taken _ _ _ _ _ final volume d _ hattempt hloads hregister ih =>
    obtain ⟨hwants, _, _⟩ := attempt_load hattempt
    have hfree := hloads.untouched (List.mem_append_right _ (List.mem_singleton_self _)) hwants.free
    obtain ⟨_, hok⟩ := Library.register_of_free hfree d.cell
    rw [hok] at hregister
    cases hregister
  | retry _ _ _ _ _ ih' => exact ih'

theorem circular (h : shelf.Loads strict loading source origin library result final)
    (hleads : shelf.Leads loading source) {under : List String} {name : String}
    (hname : result = .error (.circular under name)) : Relation.TransGen shelf.Calls name name := by
  induction h with
  | @failed loading source origin library _ hattempt =>
    obtain ⟨_, hcircular⟩ :=
      (shelf.attempt_spec strict library source origin loading).of_error hattempt
    obtain ⟨hmem, volume, rfl, hwants⟩ := hcircular under name (Except.error.inj hname)
    obtain ⟨p, hparse, hcalled⟩ := hwants.called
    exact hleads p volume.name hparse hcalled volume.name hmem
  | done _ => cases hname
  | nested hattempt _ ih =>
    obtain ⟨hwants, _, htext⟩ := attempt_load hattempt
    exact ih (hleads.load hwants htext) (by rw [Except.error.inj hname])
  | taken _ _ _ _ => cases hname
  | retry _ _ _ _ _ ih' => exact ih' hleads hname

theorem not_ok_of_circle (h : shelf.Loads strict loading source origin library result final)
    {p : Program} (hparse : Program.parse source = .ok p) {name member : String}
    (hname : name ∈ p.callees) (hopen : library.get? name = none)
    (hpath : Relation.ReflTransGen (shelf.CallsOpen library) name member)
    (hcircle : Relation.TransGen (shelf.CallsOpen library) member member) (d : ProbedCell) :
    result ≠ .ok d := by
  intro hd
  have hacc := h.grown.acc (compileProbed_callees (h.eq_ok hd) hparse name hname) hopen
  have hmember : Acc (fun callee caller => shelf.CallsOpen library caller callee) member := by
    clear hcircle
    induction hpath with
    | refl => exact hacc
    | tail _ hcalls ih => exact ih.inv hcalls
  exact not_transGen_self_of_acc hmember hcircle

theorem eventually (h : shelf.Loads strict loading source origin library result final) :
    ∃ bound, ∀ steps, bound ≤ steps →
      shelf.compileWithin strict steps library source origin loading = (result, final) := by
  induction h with
  | failed hattempt =>
    refine ⟨0, fun steps _ => ?_⟩
    unfold compileWithin
    rw [hattempt]
  | done hattempt =>
    refine ⟨0, fun steps _ => ?_⟩
    unfold compileWithin
    rw [hattempt]
  | nested hattempt _ ih =>
    obtain ⟨bound, hbound⟩ := ih
    refine ⟨bound + 1, fun steps hsteps => ?_⟩
    cases steps with
    | zero => omega
    | succ steps =>
      unfold compileWithin
      simp only [hattempt, hbound steps (by omega)]
  | taken hattempt _ hregister ih =>
    obtain ⟨bound, hbound⟩ := ih
    refine ⟨bound + 1, fun steps hsteps => ?_⟩
    cases steps with
    | zero => omega
    | succ steps =>
      unfold compileWithin
      simp only [hattempt, hbound steps (by omega), hregister]
  | retry hattempt _ hregister _ ih ih' =>
    obtain ⟨bound, hbound⟩ := ih
    obtain ⟨bound', hbound'⟩ := ih'
    refine ⟨max bound bound' + 1, fun steps hsteps => ?_⟩
    cases steps with
    | zero => omega
    | succ steps =>
      unfold compileWithin
      simp only [hattempt, hbound steps (by omega), hregister, hbound' steps (by omega)]

end Loads

def openVolumes (shelf : Shelf) (library : Library) : Nat :=
  shelf.countP fun volume => (library.get? volume.name).isNone

def idleVolumes (shelf : Shelf) (loading : List String) : Nat :=
  shelf.countP fun volume => !loading.contains volume.name

section Bound

variable {shelf : Shelf} {library : Library} {loading : List String} {source : String}
  {volume : Volume} (hwants : shelf.Wants library source volume)
include hwants

theorem openVolumes_lt {more : Library} (hle : library ≤ more)
    (hvolume : more.get? volume.name ≠ none) : shelf.openVolumes more < shelf.openVolumes library := by
  have hmem : volume ∈ shelf := List.mem_of_find?_eq_some hwants.found
  refine countP_lt_of_imp (fun other _ hother => ?_) hmem ?_ ?_
  · rw [Option.isNone_iff_eq_none] at hother ⊢
    cases hget : library.get? other.name with
    | none => rfl
    | some cell =>
      rw [hle other.name cell hget] at hother
      cases hother
  · rwa [Option.isNone_eq_false_iff, Option.isSome_iff_ne_none]
  · rw [hwants.free]
    rfl

theorem idleVolumes_lt (hnot : volume.name ∉ loading) :
    shelf.idleVolumes (loading ++ [volume.name]) < shelf.idleVolumes loading := by
  have hmem : volume ∈ shelf := List.mem_of_find?_eq_some hwants.found
  refine countP_lt_of_imp (fun other _ hother => ?_) hmem ?_ ?_
  · simp only [List.contains_append, Bool.not_or, Bool.and_eq_true] at hother
    exact hother.1
  · simp
  · simpa using hnot

end Bound

/-- As many steps as there are volumes out of the library and volumes not under way are enough. -/
theorem loads_compileWithin (shelf : Shelf) (strict : Bool) (steps : Nat) {library : Library}
    {loading : List String} (source origin : String)
    (hsteps : shelf.openVolumes library + shelf.idleVolumes loading ≤ steps) :
    shelf.Loads strict loading source origin library
      (shelf.compileWithin strict steps library source origin loading).1
      (shelf.compileWithin strict steps library source origin loading).2 := by
  induction steps using Nat.strongRecOn generalizing library source origin loading with
  | _ steps ih =>
    unfold compileWithin
    cases hattempt : shelf.attempt strict library source origin loading with
    | error e => exact .failed hattempt
    | ok attempt =>
      cases attempt with
      | done d => exact .done hattempt
      | load volume text =>
        obtain ⟨hwants, hnot, _⟩ := attempt_load hattempt
        have hidle := idleVolumes_lt hwants hnot
        cases steps with
        | zero => omega
        | succ steps =>
          have hnested : shelf.Loads strict (loading ++ [volume.name]) text volume.origin library _ _ :=
            ih steps (Nat.lt_succ_self steps) text volume.origin (by omega)
          simp only
          split
          · rename_i e loaded heq
            rw [heq] at hnested
            exact .nested hattempt hnested
          · rename_i d loaded heq
            rw [heq] at hnested
            split
            · rename_i e hregister
              exact .taken hattempt hnested hregister
            · rename_i more hregister
              have hle := hnested.grown.le.trans (Library.le_of_register hregister)
              have hadded : more.get? volume.name ≠ none := by
                rw [(Library.register_eq_ok hregister).2, if_pos rfl]
                exact Option.some_ne_none d.cell
              have hopen := openVolumes_lt hwants hle hadded
              exact .retry hattempt hnested hregister
                (ih steps (Nat.lt_succ_self steps) source origin (by omega))

theorem loads_iff_compile (shelf : Shelf) (strict : Bool) (library : Library)
    (source origin : String) (result : Except LoadError ProbedCell) (final : Library) :
    shelf.Loads strict [] source origin library result final ↔
      shelf.compile strict library source origin = (result, final) := by
  have hbound : shelf.openVolumes library + shelf.idleVolumes [] ≤ 2 * shelf.length + 1 := by
    have hopen : shelf.openVolumes library ≤ shelf.length := List.countP_le_length
    have hidle : shelf.idleVolumes [] ≤ shelf.length := List.countP_le_length
    omega
  have hcompile := loads_compileWithin shelf strict (2 * shelf.length + 1) source origin hbound
  constructor
  · intro hloads
    obtain ⟨bound, hends⟩ := hloads.eventually
    obtain ⟨bound', hends'⟩ := hcompile.eventually
    have heq := hends (max bound bound') (le_max_left bound bound')
    rw [hends' (max bound bound') (le_max_right bound bound')] at heq
    exact heq
  · intro heq
    unfold compile at heq
    rw [heq] at hcompile
    exact hcompile

/-- Compiling with loads comes to one end, with as many loads as it takes, and never by registering a
cell twice. The library grows by cells of the shelf only, and both these and the text itself are
compiled to what they give with the final library. Circles are reported where they are, and no text
that needs all cells of a circle is compiled. -/
theorem compile_loads (shelf : Shelf) (strict : Bool) (library : Library) (source origin : String) :
    ∃ result final, shelf.compile strict library source origin = (result, final) ∧
      (∀ result' final', shelf.Loads strict [] source origin library result' final' ↔
        (result, final) = (result', final')) ∧
      (∀ e, result ≠ .error (.register e)) ∧
      (∀ name cell, library.get? name = some cell → final.get? name = some cell) ∧
      (∀ name cell, final.get? name = some cell → library.get? name = none →
        ∃ volume text d, shelf.find? name = some volume ∧ volume.text = .ok text ∧
          compileProbed text final strict = .ok d ∧ d.cell = cell) ∧
      (∀ d, result = .ok d → compileProbed source final strict = .ok d) ∧
      (∀ loading name, result = .error (.circular loading name) →
        Relation.TransGen shelf.Calls name name) ∧
      ∀ p name member, Program.parse source = .ok p → name ∈ p.callees →
        library.get? name = none →
        Relation.ReflTransGen (shelf.CallsOpen library) name member →
        Relation.TransGen (shelf.CallsOpen library) member member → ∀ d, result ≠ .ok d := by
  rcases hcompile : shelf.compile strict library source origin with ⟨result, final⟩
  have hends := shelf.loads_iff_compile strict library source origin
  have hloads := (hends result final).mpr hcompile
  refine ⟨result, final, rfl, fun result' final' => ?_, hloads.ne_register, hloads.grown.le,
    fun _ _ => hloads.grown.added, fun _ => hloads.eq_ok, fun _ _ => hloads.circular nofun,
    fun _ _ _ hparse => hloads.not_ok_of_circle hparse⟩
  rw [hends result' final', hcompile]

/-- A shelf with two cells that build on another and two that call each other. -/
def carton : Shelf :=
  [⟨"inv", "inv.rw", .ok "a\nb = nand a a\nb"⟩,
    ⟨"and", "and.rw", .ok "a b\nc = nand a b\nd = inv c\nd"⟩,
    ⟨"left", "left.rw", .ok "a\nb = inv a\nc = right b\nc"⟩,
    ⟨"right", "right.rw", .ok "a\nb = left a\nb"⟩]

/-- A cell that is needed twice is loaded once, and of a circle nothing is kept. -/
theorem carton_compile_loads :
    (∃ d final, carton.compile true .pairs "a b\nc = and a (inv b)\nc" "main" = (.ok d, final) ∧
      final.names = ["and", "cat", "inv", "nand"] ∧
      compileProbed "a b\nc = and a (inv b)\nc" final true = .ok d) ∧
    ∃ final, carton.compile true .pairs "a\nb = left a\nb" "main" =
        (.error (.circular ["left", "right"] "left"), final) ∧
      final.names = ["cat", "inv", "nand"] ∧ Relation.TransGen carton.Calls "left" "left" := by
  constructor
  · obtain ⟨result, final, hcompile, _, _, _, _, hok, _⟩ :=
      compile_loads carton true .pairs "a b\nc = and a (inv b)\nc" "main"
    have hfacts : Prod.map Except.isOk Library.names
        (carton.compile true .pairs "a b\nc = and a (inv b)\nc" "main") =
          (true, ["and", "cat", "inv", "nand"]) := by cbv
    rw [hcompile] at hfacts
    obtain ⟨hresult, hnames⟩ := Prod.mk.inj hfacts
    cases result with
    | error e => cases hresult
    | ok d => exact ⟨d, final, hcompile, hnames, hok d rfl⟩
  · obtain ⟨result, final, hcompile, _, _, _, _, _, hcircular, _⟩ :=
      compile_loads carton true .pairs "a\nb = left a\nb" "main"
    have hfacts : Prod.map id Library.names (carton.compile true .pairs "a\nb = left a\nb" "main") =
        (.error (.circular ["left", "right"] "left"), ["cat", "inv", "nand"]) := by cbv
    rw [hcompile] at hfacts
    obtain ⟨hresult, hnames⟩ := Prod.mk.inj hfacts
    obtain rfl : result = _ := hresult
    exact ⟨final, hcompile, hnames, hcircular _ _ rfl⟩

end Shelf

end WireLogic
