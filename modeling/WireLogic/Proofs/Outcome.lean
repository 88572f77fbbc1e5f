import Mathlib

/-!
# Computations that may fail

A sequence of computations succeeds when each of them does. These facts take a successful run
apart, so that no later proof has to open the monad. What a run ends with, be it a result or an error,
is put together from what its parts end with.
-/

namespace WireLogic.Outcome

set_option autoImplicit false

variable {ε ε' α β : Type}

theorem bind_eq_ok {x : Except ε α} {f : α → Except ε β} {b : β} :
    (x >>= f) = .ok b ↔ ∃ a, x = .ok a ∧ f a = .ok b := by
  cases x with
  | error e => simp [bind, Except.bind]
  | ok a => simp [bind, Except.bind]

theorem bind_eq_error {x : Except ε α} {f : α → Except ε β} {e : ε} :
    (x >>= f) = .error e ↔ x = .error e ∨ ∃ a, x = .ok a ∧ f a = .error e := by
  cases x with
  | error e' => simp [bind, Except.bind]
  | ok a => simp [bind, Except.bind]

theorem pure_eq_ok {a b : α} : (pure a : Except ε α) = .ok b ↔ a = b := by
  simp [pure, Except.pure]

theorem mapError_eq_ok {result : Except ε α} {wrap : ε → ε'} {a : α} :
    result.mapError wrap = .ok a ↔ result = .ok a := by
  cases result with
  | error e => simp [Except.mapError]
  | ok b => simp [Except.mapError]

theorem map_eq_ok {result : Except ε α} {f : α → β} {b : β} :
    result.map f = .ok b ↔ ∃ a, result = .ok a ∧ f a = b := by
  cases result with
  | error e => simp [Except.map]
  | ok a => simp [Except.map]

theorem bind_then_map {γ : Type} {x : Except ε α} {f : α → Except ε β} {g : β → γ} :
    (x >>= f).map g = x >>= fun a => (f a).map g := by
  cases x <;> rfl

theorem map_then_bind {γ : Type} {x : Except ε α} {g : α → γ} {f : γ → Except ε β} :
    x.map g >>= f = x >>= fun a => f (g a) := by
  cases x <;> rfl

theorem mapM_eq_ok {f : α → Except ε β} {l : List α} {m : List β} :
    l.mapM f = .ok m ↔ l.map f = m.map .ok := by
  induction l generalizing m with
  | nil => cases m <;> simp [pure_eq_ok]
  | cons a l ih =>
    simp only [List.mapM_cons, bind_eq_ok, pure_eq_ok, List.map_cons]
    constructor
    · rintro ⟨b, hb, bs, hbs, rfl⟩
      rw [List.map_cons, hb, ih.mp hbs]
    · intro h
      cases m with
      | nil => simp at h
      | cons b bs =>
        obtain ⟨hb, hbs⟩ := List.cons.inj h
        exact ⟨b, hb, bs, ih.mpr hbs, rfl⟩

theorem mapM_of_forall {f : α → Except ε β} {g : α → β} {l : List α}
    (h : ∀ a ∈ l, f a = .ok (g a)) : l.mapM f = .ok (l.map g) := by
  rw [mapM_eq_ok, List.map_map]
  exact List.map_congr_left h

theorem exists_mapM {f : α → Except ε β} {l : List α} (h : ∀ a ∈ l, ∃ b, f a = .ok b) :
    ∃ m, l.mapM f = .ok m := by
  induction l with
  | nil => exact ⟨[], rfl⟩
  | cons a l ih =>
    obtain ⟨⟨b, hb⟩, hl⟩ := List.forall_mem_cons.mp h
    obtain ⟨m, hm⟩ := ih hl
    refine ⟨b :: m, ?_⟩
    rw [mapM_eq_ok, List.map_cons, List.map_cons, hb, mapM_eq_ok.mp hm]

theorem getElem?_of_mapM {f : α → Except ε β} {l : List α} {m : List β} (h : l.mapM f = .ok m)
    (k : Nat) : (l[k]?).map f = (m[k]?).map .ok := by
  rw [← List.getElem?_map, mapM_eq_ok.mp h, List.getElem?_map]

theorem mem_of_mapM {f : α → Except ε β} {l : List α} {m : List β} (h : l.mapM f = .ok m) (b : β) :
    b ∈ m ↔ ∃ a ∈ l, f a = .ok b := by
  have hb : (.ok b : Except ε β) ∈ m.map .ok ↔ b ∈ m := by simp
  rw [← hb, ← mapM_eq_ok.mp h, List.mem_map]

theorem exists_of_mem_mapM {f : α → Except ε β} {l : List α} {m : List β} (h : l.mapM f = .ok m)
    {a : α} (ha : a ∈ l) : ∃ b, f a = .ok b := by
  have hf : f a ∈ l.map f := List.mem_map_of_mem ha
  rw [mapM_eq_ok.mp h] at hf
  obtain ⟨b, _, hb⟩ := List.mem_map.mp hf
  exact ⟨b, hb.symm⟩

theorem foldlM_map {σ ν : Type} (step : σ → ν → Except ε σ) (f : σ → σ)
    (hcomm : ∀ s v, step (f s) v = (step s v).map f) (l : List ν) (s : σ) :
    l.foldlM step (f s) = (l.foldlM step s).map f := by
  induction l generalizing s with
  | nil => rfl
  | cons v l ih =>
    rw [List.foldlM_cons, List.foldlM_cons, hcomm, map_then_bind, bind_then_map]
    exact bind_congr ih

theorem foldlM_eq_error {f : β → α → Except ε β} {l : List α} {b : β} {e : ε}
    (h : l.foldlM f b = .error e) :
    ∃ before a after b', l = before ++ a :: after ∧ before.foldlM f b = .ok b' ∧
      f b' a = .error e := by
  induction l generalizing b with
  | nil => cases h
  | cons a l ih =>
    rw [List.foldlM_cons] at h
    rcases bind_eq_error.mp h with ha | ⟨b₁, hb₁, h⟩
    · exact ⟨[], a, l, b, rfl, rfl, ha⟩
    · obtain ⟨before, a', after, b', rfl, hbefore, ha'⟩ := ih h
      refine ⟨a :: before, a', after, b', rfl, ?_, ha'⟩
      rw [List.foldlM_cons, hb₁]
      exact hbefore

/-- Where a step does not notice what was done with the other members, all steps can be taken
first. -/
theorem foldlM_then_use {σ ν : Type} {step : σ → ν → Except ε σ} {use : σ → ν → σ}
    (hcomm : ∀ s v w, v ≠ w → step (use s w) v = (step s v).map (use · w)) (l : List ν)
    (hl : l.Nodup) (s : σ) :
    l.foldlM (fun s v => do return use (← step s v) v) s = (l.foldlM step s).map (l.foldl use) := by
  have hlate : ∀ (m : List ν) (w : ν) (s : σ), w ∉ m →
      m.foldlM step (use s w) = (m.foldlM step s).map (use · w) := by
    intro m w
    induction m with
    | nil => exact fun s _ => rfl
    | cons v m ih =>
      intro s hw
      obtain ⟨hvw, hw⟩ := List.ne_and_not_mem_of_not_mem_cons hw
      rw [List.foldlM_cons, List.foldlM_cons, hcomm s v w hvw.symm, map_then_bind, bind_then_map]
      exact bind_congr fun q => ih q hw
  induction l generalizing s with
  | nil => rfl
  | cons v l ih =>
    obtain ⟨hv, hl⟩ := List.nodup_cons.mp hl
    rw [List.foldlM_cons, List.foldlM_cons, bind_then_map, bind_assoc]
    refine bind_congr fun q => ?_
    rw [pure_bind, ih hl, hlate l v q hv]
    cases l.foldlM step q <;> rfl

theorem cases_of_toOption_eq {r r' : Except ε α} (h : r.toOption = r'.toOption) :
    (∃ e e', r = .error e ∧ r' = .error e') ∨ ∃ a, r = .ok a ∧ r' = .ok a := by
  cases r with
  | error e =>
    cases r' with
    | error e' => exact .inl ⟨e, e', rfl, rfl⟩
    | ok a => simp [Except.toOption] at h
  | ok a =>
    cases r' with
    | error e' => simp [Except.toOption] at h
    | ok a' =>
      obtain rfl : a = a' := Option.some.inj h
      exact .inr ⟨a, rfl, rfl⟩

/-- The error is as told, or the result is. -/
def Ends (bad : ε → Prop) (good : α → Prop) : Except ε α → Prop
  | .error e => bad e
  | .ok a => good a

namespace Ends

variable {bad bad' : ε → Prop} {good good' : α → Prop} {r : Except ε α}

theorem of_ok (h : Ends bad good r) {a : α} (hr : r = .ok a) : good a := by
  rw [hr] at h
  exact h

theorem of_error (h : Ends bad good r) {e : ε} (hr : r = .error e) : bad e := by
  rw [hr] at h
  exact h

theorem exists_ok (h : Ends (fun _ => False) good r) : ∃ a, r = .ok a ∧ good a := by
  cases r with
  | error e => exact h.elim
  | ok a => exact ⟨a, rfl, h⟩

theorem imp (h : Ends bad good r) (hgood : ∀ a, r = .ok a → good a → good' a) :
    Ends bad good' r := by
  cases r with
  | error e => exact h
  | ok a => exact hgood a rfl h

theorem imp_bad (h : Ends bad good r) (hbad : ∀ e, bad e → bad' e) : Ends bad' good r := by
  cases r with
  | error e => exact hbad e h
  | ok a => exact h

theorem bind {after : β → Prop} {f : α → Except ε β} (h : Ends bad good r)
    (hf : ∀ a, r = .ok a → good a → Ends bad after (f a)) : Ends bad after (r >>= f) := by
  cases r with
  | error e => exact h
  | ok a => exact hf a rfl h

theorem foldlM {good : β → Prop} {f : β → α → Except ε β} (l : List α) {b : β} (hb : good b)
    (hf : ∀ b, good b → ∀ a ∈ l, Ends bad good (f b a)) : Ends bad good (l.foldlM f b) := by
  induction l generalizing b with
  | nil => exact hb
  | cons a l ih =>
    rw [List.foldlM_cons]
    apply bind (hf b hb a List.mem_cons_self)
    intro b' _ hb'
    exact ih hb' fun b'' hb'' a' ha' => hf b'' hb'' a' (List.mem_cons_of_mem a ha')

end Ends

end WireLogic.Outcome
