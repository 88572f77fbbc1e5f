import WireLogic.Library.InPlace
import WireLogic.Proofs.Growth

/-!
# Adding cells to a library

Cells are added one by one, as they are or as a text that is compiled first, and the standard cells
all in a row. All this is done in place, but nothing is changed before a name is known to be free,
so no addition replaces an entry. What has been compiled stays compiled, and a text that misses a
cell can be tried again once there is a cell of that name.
-/

namespace WireLogic

set_option autoImplicit false

namespace Library

def commit (l : Library) :
    Except CompileError Library → EStateM.Result CompileError Library Unit
  | .ok l' => .ok () l'
  | .error e => .error e l

theorem filter_of_not_contains {l : Library} {name : String} (h : l.contains name = false) :
    (l.entries.filter fun e => e.1 != name) = l.entries := by
  rw [contains, Option.isSome_eq_false_iff, Option.isNone_iff_eq_none, get?,
    List.lookup_eq_none_iff] at h
  refine List.filter_eq_self.mpr fun e he => ?_
  exact bne_iff_ne.mpr fun heq => by simpa [heq] using h e he

namespace Work

variable {l : Library}

theorem requireFree_run (name : String) :
    (requireFree name).run l =
      if l.contains name then .error (.duplicateRegistration name) l else .ok () l := by
  simp only [requireFree, EStateM.run_bind, EStateM.run_get]
  split <;> rfl

/-- Nothing is changed before the name is known to be free. -/
theorem register_run (name : String) (cell : Cell) :
    (register name cell).run l = l.commit (l.register name cell) := by
  rw [register, EStateM.run_bind, requireFree_run, Library.register]
  cases hfree : l.contains name with
  | true => rfl
  | false =>
    simp only [Bool.false_eq_true, if_false, insert, EStateM.run_modify,
      filter_of_not_contains hfree]
    rfl

theorem registerSource_run (name source : String) (strict : Bool) :
    (registerSource name source strict).run l =
      l.commit (l.registerSource name source strict) := by
  rw [registerSource, EStateM.run_bind, requireFree_run, Library.registerSource]
  cases hfree : l.contains name with
  | true => rfl
  | false =>
    simp only [Bool.false_eq_true, if_false, EStateM.run_bind, EStateM.run_get]
    cases compile source l strict with
    | error e => rfl
    | ok cell => exact register_run name cell

theorem addPrimitive_run (p : Primitive) :
    (addPrimitive p).run l = l.commit (l.addPrimitive p) := by
  rw [addPrimitive, EStateM.run_bind, Library.addPrimitive]
  cases p.cell with
  | error e => rfl
  | ok cell => exact register_run p.name cell

theorem onStandardCell_run (name : String) (work : Work Unit) :
    (onStandardCell name work).run l =
      match work.run l with
      | .ok u l' => .ok u l'
      | .error e l' => .error (.standardCell name e) l' := by
  change EStateM.tryCatch work _ l = _
  rw [EStateM.tryCatch, EStateM.run]
  cases work l <;> rfl

theorem addComposite_run (entry : String × String) :
    (addComposite entry).run l = l.commit (l.addComposite entry) := by
  have hrun := registerSource_run (l := l) entry.1 entry.2 true
  rw [addComposite, onStandardCell_run, hrun, Library.addComposite]
  cases l.registerSource entry.1 entry.2 true <;> rfl

theorem forM_run {α : Type} {put : Library → α → Except CompileError Library} {work : α → Work Unit}
    (hwork : ∀ l a, (work a).run l = l.commit (put l a)) (items : List α) :
    (forM items work).run l =
      match addEach put items l with
      | (.ok _, l') => .ok () l'
      | (.error e, l') => .error e l' := by
  induction items generalizing l with
  | nil => rfl
  | cons a rest ih =>
    rw [List.forM_cons, EStateM.run_bind, hwork, addEach]
    cases put l a with
    | error e => rfl
    | ok l' => exact ih

end Work

theorem add_standard (l : Library) : l.add .standard = l.addStandard := by
  have hprimitives := Work.forM_run (l := l) (fun _ p => Work.addPrimitive_run p) primitives
  rw [add, Addition.work, Work.addStandard, EStateM.run_bind, hprimitives, addStandard]
  rcases addEach addPrimitive primitives l with ⟨_ | _, l'⟩
  · rfl
  · have hcomposites := Work.forM_run (l := l') (fun _ e => Work.addComposite_run e) composites
    simp only [hcomposites]
    rcases addEach addComposite composites l' with ⟨_ | _, l''⟩ <;> rfl

theorem le_of_registerSource {l l' : Library} {name source : String} {strict : Bool}
    (h : l.registerSource name source strict = .ok l') : l ≤ l' := by
  unfold registerSource at h
  split at h
  · cases h
  · obtain ⟨cell, _, hregister⟩ := Outcome.bind_eq_ok.mp h
    exact le_of_register hregister

theorem le_add_of_commit {l : Library} {a : Addition} {r : Except CompileError Library}
    (hrun : a.work.run l = l.commit r) (hle : ∀ l', r = .ok l' → l ≤ l') : l ≤ (l.add a).2 := by
  rw [add, hrun]
  cases r with
  | error err => exact le_refl l
  | ok l' => exact hle l' rfl

theorem le_addEach {α : Type} {put : Library → α → Except CompileError Library}
    (hput : ∀ l a l', put l a = .ok l' → l ≤ l') (items : List α) (l : Library) :
    l ≤ (addEach put items l).2 := by
  induction items generalizing l with
  | nil => exact le_refl l
  | cons a rest ih =>
    unfold addEach
    split
    · exact le_refl l
    · rename_i l' hl'
      exact (hput l a l' hl').trans (ih l')

theorem le_of_addPrimitive (l : Library) (p : Primitive) (l' : Library)
    (h : l.addPrimitive p = .ok l') : l ≤ l' := by
  unfold addPrimitive at h
  split at h
  · cases h
  · exact le_of_register h

theorem le_of_addComposite (l : Library) (entry : String × String) (l' : Library)
    (h : l.addComposite entry = .ok l') : l ≤ l' :=
  le_of_registerSource (Outcome.mapError_eq_ok.mp h)

theorem le_addStandard (l : Library) : l ≤ l.addStandard.2 := by
  have hprimitives := le_addEach le_of_addPrimitive primitives l
  unfold addStandard
  split
  · rename_i hadded
    rw [hadded] at hprimitives
    exact hprimitives
  · rename_i hadded
    rw [hadded] at hprimitives
    exact hprimitives.trans (le_addEach le_of_addComposite composites _)

theorem le_add (l : Library) (a : Addition) : l ≤ (l.add a).2 := by
  cases a with
  | cell name cell =>
    exact le_add_of_commit (Work.register_run name cell) fun _ => le_of_register
  | source name source strict =>
    exact le_add_of_commit (Work.registerSource_run name source strict) fun _ =>
      le_of_registerSource
  | standard =>
    rw [add_standard]
    exact le_addStandard l

theorem le_addAll (l : Library) (additions : List Addition) : l ≤ l.addAll additions := by
  induction additions generalizing l with
  | nil => exact le_refl l
  | cons a rest ih => exact (le_add l a).trans (ih (l.add a).2)

theorem addAll_append (l : Library) (earlier later : List Addition) :
    l.addAll (earlier ++ later) = (l.addAll earlier).addAll later :=
  List.foldl_append

theorem add_eq_of_commit {l : Library} {a : Addition} {r : Except CompileError Library}
    {err : CompileError} (hrun : a.work.run l = l.commit r) (h : (l.add a).1 = .error err) :
    (l.add a).2 = l := by
  rw [add, hrun] at h ⊢
  cases r with
  | error _ => rfl
  | ok l' => cases h

theorem add_of_error {l : Library} {a : Addition} {err : CompileError} (ha : a ≠ .standard)
    (h : (l.add a).1 = .error err) : (l.add a).2 = l := by
  cases a with
  | cell name cell => exact add_eq_of_commit (Work.register_run name cell) h
  | source name source strict =>
    exact add_eq_of_commit (Work.registerSource_run name source strict) h
  | standard => exact absurd rfl ha

end Library

/-- What compiling with a second library comes to, when it has all that the first has. -/
structure Recompiles (source : String) (strict : Bool) (library l : Library) : Prop where
  same : (∀ name line, compile source library strict ≠ .error (.missingDependency name line)) →
    compile source l strict = compile source library strict
  missed : ∀ name line, compile source library strict = .error (.missingDependency name line) →
    library.get? name = none ∧
      (l.get? name = none → compile source l strict = .error (.missingDependency name line)) ∧
      (l.get? name ≠ none → ∀ line',
        compile source l strict ≠ .error (.missingDependency name line'))

theorem not_missing_of_get? {source : String} {strict : Bool} {l : Library} {name : String}
    (h : l.get? name ≠ none) (line : Nat) :
    compile source l strict ≠ .error (.missingDependency name line) := by
  intro hmissing
  exact h (compileTo_missing Assembly.flatten hmissing rfl).1

theorem recompiles_of_le (source : String) (strict : Bool) {library l : Library}
    (hle : library ≤ l) : Recompiles source strict library l := by
  have hstable : l.Stable id (compile source library strict) (compile source l strict) :=
    compileTo_stable Assembly.flatten hle
  rw [Library.Stable, Except.map_id, id] at hstable
  constructor
  · intro hother
    rcases hstable with heq | ⟨name, line, hmissing, _⟩
    · exact heq
    · exact absurd hmissing (hother name line)
  · intro name line hmissing
    refine ⟨(compileTo_missing Assembly.flatten hmissing rfl).1, ?_, not_missing_of_get?⟩
    intro hnone
    rcases hstable with heq | ⟨name', line', hmissing', hget⟩
    · rw [heq, hmissing]
    · obtain ⟨rfl, rfl⟩ := CompileError.missingDependency.inj
        (Except.error.inj (hmissing.symm.trans hmissing'))
      exact absurd hnone hget

/-- Compilation is stable while a library grows. With more cells a text gives the same cell or the
same error, unless it missed a cell that is there now. Whatever is added in whatever order, entries
stay as they are, and a cell or a text that cannot be added leaves the library as it was. -/
theorem compile_stable_under_growth :
    (∀ (source : String) (strict : Bool) (library l : Library), library ≤ l →
      Recompiles source strict library l) ∧
    (∀ (l : Library) (earlier later : List Library.Addition),
      l.addAll earlier ≤ l.addAll (earlier ++ later)) ∧
    ∀ (l : Library) (a : Library.Addition) (err : CompileError), a ≠ .standard →
      (l.add a).1 = .error err → (l.add a).2 = l := by
  refine ⟨fun source strict library l => recompiles_of_le source strict, ?_, ?_⟩
  · intro l earlier later
    rw [Library.addAll_append]
    exact (l.addAll earlier).le_addAll later
  · exact fun l a err => Library.add_of_error

/-- A text is tried again after the cell that it missed has been added, and a name is refused the
second time. -/
theorem pairs_compile_stable_under_growth :
    let grown := Library.pairs.addAll [.source "not" "a\nb = nand a a\nb" true]
    Library.pairs ≤ grown ∧
      compile "a b\nx = not (nand a b)\nx" .pairs true = .error (.missingDependency "not" 2) ∧
      (∀ line, compile "a b\nx = not (nand a b)\nx" grown true ≠
        .error (.missingDependency "not" line)) ∧
      compile "a b\nx = nand a b\n2:x" grown true = compile "a b\nx = nand a b\n2:x" .pairs true ∧
      (grown.add (.cell "not" (.identity 1))).2 = grown := by
  obtain ⟨hrecompiles, hgrowth, hrefused⟩ := compile_stable_under_growth
  have hle : Library.pairs ≤ Library.pairs.addAll [.source "not" "a\nb = nand a a\nb" true] :=
    hgrowth .pairs [] [.source "not" "a\nb = nand a a\nb" true]
  have hmissing : compile "a b\nx = not (nand a b)\nx" .pairs true =
      .error (.missingDependency "not" 2) := by cbv
  have hother : compile "a b\nx = nand a b\n2:x" .pairs true =
      .error (.mismatch 3 (.outputWidth "x" 2 1)) := by cbv
  have hfound :
      ((Library.pairs.addAll [.source "not" "a\nb = nand a a\nb" true]).get? "not").isSome =
        true := by cbv
  refine ⟨hle, hmissing, ?_, ?_, ?_⟩
  · apply ((hrecompiles _ true _ _ hle).missed "not" 2 hmissing).2.2
    exact Option.isSome_iff_ne_none.mp hfound
  · apply (hrecompiles _ true _ _ hle).same
    intro name line h
    rw [hother] at h
    cases h
  · apply hrefused _ _ (.duplicateRegistration "not") (by simp)
    cbv

end WireLogic
