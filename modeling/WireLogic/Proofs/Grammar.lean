import WireLogic.Program.Parse
import WireLogic.Proofs.Outcome

/-!
# The grammar of programs

What tokens spell is said here by rules that do not mention how they are read. Reading accepts just
what the rules allow. In the middle of a line it has some calls open, and what they still ask for is
written down as `Closes`: the rest of the arguments of the innermost call, its closing parenthesis,
and so on outward.
-/

namespace WireLogic

set_option autoImplicit false

namespace Grammar

inductive IsPort : List Token → Port → Prop where
  | bare (name : String) : IsPort [.identifier name] ⟨name, none⟩
  | wide {width : Nat} (name : String) : 0 < width →
      IsPort [.integer width, .colon, .identifier name] ⟨name, some width⟩

inductive IsPorts : List Token → List Port → Prop where
  | nil : IsPorts [] []
  | cons {ts us : List Token} {port : Port} {ports : List Port} : IsPort ts port →
      IsPorts us ports → IsPorts (ts ++ us) (port :: ports)

mutual

inductive IsCall : List Token → Call → Prop where
  | intro (callee : String) {ts : List Token} {args : List Arg} : IsArgs ts args →
      IsCall (.identifier callee :: ts) ⟨callee, args⟩

inductive IsArgs : List Token → List Arg → Prop where
  | nil : IsArgs [] []
  | cons {ts us : List Token} {arg : Arg} {args : List Arg} : IsArg ts arg → IsArgs us args →
      IsArgs (ts ++ us) (arg :: args)

inductive IsArg : List Token → Arg → Prop where
  | name (name : String) : IsArg [.identifier name] (.name name)
  | nested {ts : List Token} {call : Call} : IsCall ts call →
      IsArg (.leftParen :: (ts ++ [.rightParen])) (.call call.callee call.args)

end

/-- The lines that are not empty, with their numbers. -/
def lines (ts : List Token) : List (List Token × Nat) :=
  ((ts.splitOn .newline).zipIdx 1).filter fun l => !l.1.isEmpty

def IsPortLine (ts : List Token) (ports : List Port) : Prop := ports ≠ [] ∧ IsPorts ts ports

def IsBindingLine (line : List Token × Nat) (b : Binding) : Prop :=
  ∃ ts, line.1 = .identifier b.name :: .equals :: ts ∧ IsCall ts b.call ∧ b.line = line.2

/-- A line of input ports, lines with one binding each, and a line of output ports. -/
def IsProgram (ts : List Token) (p : Program) : Prop :=
  ∃ first middle last, lines ts = first :: (middle ++ [last]) ∧ IsPortLine first.1 p.inputs ∧
    List.Forall₂ IsBindingLine middle p.bindings ∧ IsPortLine last.1 p.outputs ∧
    p.outputLine = last.2

def view (l : Line) : List Token × Nat := (l.tokens, l.number)

theorem modifyHead_self {α : Type} (l : List α) : l.modifyHead (fun a => a) = l := by
  cases l <;> rfl

theorem lines_cutFrom (number : Nat) (current ts : List Token) :
    (Line.cutFrom number current ts).map view =
      ((ts.splitOn .newline).modifyHead (current.reverse ++ ·)).zipIdx number := by
  induction ts generalizing number current with
  | nil => simp [Line.cutFrom, view, List.splitOn, List.splitOnP_nil]
  | cons t ts ih =>
    by_cases ht : t = .newline
    · subst ht
      rw [Line.cutFrom, List.map_cons, ih]
      simp [view, List.splitOn, List.splitOnP_cons_eq_if_modifyHead, List.zipIdx_cons,
        modifyHead_self]
    · have hcut : Line.cutFrom number current (t :: ts) =
          Line.cutFrom number (t :: current) ts := by
        rw [Line.cutFrom]
        exact ht
      have hne : (t == Token.newline) = false := beq_false_of_ne ht
      rw [hcut, ih]
      simp [List.splitOn, List.splitOnP_cons_eq_if_modifyHead, hne, Function.comp_def]

theorem lines_eq (ts : List Token) :
    lines ts = ((Line.cut ts).filter fun l => !l.isBlank).map view := by
  have hcut := lines_cutFrom 1 [] ts
  simp only [List.reverse_nil, List.nil_append, modifyHead_self] at hcut
  rw [lines, ← hcut, List.filter_map]
  rfl

theorem IsPorts.eq_nil_iff {ts : List Token} {ports : List Port} (h : IsPorts ts ports) :
    ports = [] ↔ ts = [] := by
  cases h with
  | nil => simp
  | cons hport _ => cases hport <;> simp

theorem IsPorts.equals_not_mem {ts : List Token} {ports : List Port} (h : IsPorts ts ports) :
    .equals ∉ ts := by
  induction h with
  | nil => simp
  | cons hport _ ih => cases hport <;> simpa using ih

theorem isPorts_of_ports {ts : List Token} {ports : List Port} (h : Parse.ports ts = .ok ports) :
    IsPorts ts ports := by
  fun_induction Parse.ports ts generalizing ports with
  | case1 =>
    rw [← Except.ok.inj h]
    exact .nil
  | case2 name rest ih =>
    obtain ⟨others, hothers, rfl⟩ := Outcome.map_eq_ok.mp h
    exact .cons (.bare name) (ih hothers)
  | case4 width name rest hwidth ih =>
    obtain ⟨others, hothers, rfl⟩ := Outcome.map_eq_ok.mp h
    exact .cons (.wide name (Nat.pos_of_ne_zero hwidth)) (ih hothers)
  | _ => cases h

theorem ports_of_isPorts {ts : List Token} {ports : List Port} (h : IsPorts ts ports) :
    Parse.ports ts = .ok ports := by
  induction h with
  | nil => rfl
  | cons hport _ ih =>
    cases hport with
    | bare name =>
      rw [List.singleton_append, Parse.ports, ih]
      rfl
    | wide name hwidth =>
      simp [Parse.ports, ih, Nat.ne_of_gt hwidth, Except.map]

theorem ports_eq_ok_iff {ts : List Token} {ports : List Port} :
    Parse.ports ts = .ok ports ↔ IsPorts ts ports :=
  ⟨isPorts_of_ports, ports_of_isPorts⟩

/-- A call under way after some more arguments. -/
def extend (f : Parse.Frame) (args : List Arg) : Parse.Frame :=
  { f with args := args.reverse ++ f.args }

theorem extend_push (f : Parse.Frame) (arg : Arg) (args : List Arg) :
    extend (f.push arg) args = extend f (arg :: args) := by
  simp [extend, Parse.Frame.push]

theorem isArg_call_iff {ts : List Token} {callee : String} {args : List Arg} :
    IsArg ts (.call callee args) ↔
      ∃ us, ts = .leftParen :: .identifier callee :: (us ++ [.rightParen]) ∧ IsArgs us args := by
  constructor
  · intro h
    cases h with
    | nested hcall =>
      cases hcall with
      | intro callee hargs => exact ⟨_, rfl, hargs⟩
  · rintro ⟨us, rfl, hargs⟩
    exact .nested (.intro callee hargs)

theorem isArgs_cons_iff {ts : List Token} {arg : Arg} {args : List Arg} :
    IsArgs ts (arg :: args) ↔ ∃ us vs, ts = us ++ vs ∧ IsArg us arg ∧ IsArgs vs args := by
  constructor
  · intro h
    cases h with
    | cons harg hargs => exact ⟨_, _, rfl, harg, hargs⟩
  · rintro ⟨us, vs, rfl, harg, hargs⟩
    exact .cons harg hargs

mutual

theorem args_of_isArg (arg : Arg) {ts : List Token} (h : IsArg ts arg) (rest : List Token)
    (f : Parse.Frame) (outer : List Parse.Frame) :
    Parse.args (ts ++ rest) f outer = Parse.args rest (f.push arg) outer := by
  cases arg with
  | name name =>
    cases h
    rw [List.singleton_append, Parse.args]
  | call callee args =>
    obtain ⟨us, rfl, hargs⟩ := isArg_call_iff.mp h
    rw [List.cons_append, List.cons_append, List.append_assoc, Parse.args,
      args_of_isArgs args hargs, List.singleton_append, Parse.args]
    simp [Parse.Frame.closeNested, extend]

theorem args_of_isArgs (args : List Arg) {ts : List Token} (h : IsArgs ts args) (rest : List Token)
    (f : Parse.Frame) (outer : List Parse.Frame) :
    Parse.args (ts ++ rest) f outer = Parse.args rest (extend f args) outer := by
  cases args with
  | nil =>
    cases h
    rfl
  | cons arg args =>
    obtain ⟨us, vs, rfl, harg, hargs⟩ := isArgs_cons_iff.mp h
    rw [List.append_assoc, args_of_isArg arg harg, args_of_isArgs args hargs, extend_push]

end

/-- The tokens close all calls under way, which makes the outermost one `call`. -/
def Closes (used : List Token) (f : Parse.Frame) : List Parse.Frame → Call → Prop
  | [], call => ∃ args, IsArgs used args ∧ call = (extend f args).close
  | o :: outer, call => ∃ inner args rest, used = inner ++ .rightParen :: rest ∧
      IsArgs inner args ∧ Closes rest (o.push (extend f args).closeNested) outer call

theorem Closes.arg {ts used : List Token} {arg : Arg} (harg : IsArg ts arg) {f : Parse.Frame}
    {outer : List Parse.Frame} {call : Call} (h : Closes used (f.push arg) outer call) :
    Closes (ts ++ used) f outer call := by
  cases outer with
  | nil =>
    obtain ⟨args, hargs, rfl⟩ := h
    exact ⟨arg :: args, .cons harg hargs, by rw [extend_push]⟩
  | cons o outer =>
    obtain ⟨inner, args, rest, rfl, hargs, hrest⟩ := h
    refine ⟨ts ++ inner, arg :: args, rest, by simp, .cons harg hargs, ?_⟩
    rwa [← extend_push]

theorem closes_of_args {ts rest : List Token} {f : Parse.Frame} {outer : List Parse.Frame}
    {call : Call} (h : Parse.args ts f outer = .ok (call, rest)) :
    ∃ used, ts = used ++ rest ∧ Closes used f outer call := by
  fun_induction Parse.args ts f outer with
  | case1 name ts f outer ih =>
    obtain ⟨used, rfl, hused⟩ := ih h
    exact ⟨.identifier name :: used, rfl, .arg (.name name) hused⟩
  | case2 callee ts f outer ih =>
    obtain ⟨used, rfl, inner, args, after, rfl, hargs, hafter⟩ := ih h
    have harg := IsArg.nested (.intro callee hargs)
    have hnested : (extend ⟨callee, []⟩ args).closeNested = .call callee args := by
      simp [extend, Parse.Frame.closeNested]
    rw [hnested] at hafter
    exact ⟨_, by simp, .arg harg hafter⟩
  | case4 ts f =>
    obtain ⟨rfl, rfl⟩ := Prod.mk.inj (Except.ok.inj h)
    exact ⟨[], rfl, [], .nil, rfl⟩
  | case5 ts f o outer ih =>
    obtain ⟨used, rfl, hused⟩ := ih h
    exact ⟨.rightParen :: used, rfl, [], [], used, rfl, .nil, hused⟩
  | _ => cases h

theorem wholeCall_eq_ok_iff {ts : List Token} {call : Call} :
    Parse.wholeCall ts = .ok call ↔ IsCall ts call := by
  constructor
  · intro h
    obtain ⟨⟨c, rest⟩, hcall, h⟩ := Outcome.bind_eq_ok.mp h
    cases rest with
    | cons t rest => cases h
    | nil =>
      obtain rfl := Except.ok.inj h
      unfold Parse.call at hcall
      split at hcall
      · rename_i callee ts
        obtain ⟨used, hused, args, hargs, rfl⟩ := closes_of_args hcall
        rw [List.append_nil] at hused
        subst hused
        simpa [extend, Parse.Frame.close] using IsCall.intro callee hargs
      · cases hcall
  · rintro ⟨callee, hargs⟩
    have h := args_of_isArgs _ hargs [] ⟨callee, []⟩ []
    rw [List.append_nil] at h
    simp [Parse.wholeCall, Parse.call, h, Parse.args, extend, Parse.Frame.close, Outcome.bind_eq_ok]

theorem lines_of_body {last : Nat} {ls : List Line} {bindings : List Binding}
    {outputs : List Port} {line : Nat} (h : Parse.body last ls = .ok (bindings, outputs, line)) :
    ∃ middle final, ls = middle ++ [final] ∧
      List.Forall₂ IsBindingLine (middle.map view) bindings ∧ IsPorts final.tokens outputs ∧
      line = final.number := by
  induction ls generalizing bindings with
  | nil => cases h
  | cons l ls ih =>
    unfold Parse.body at h
    split at h
    · rename_i name ts hl
      obtain ⟨call, hcall, h⟩ := Outcome.bind_eq_ok.mp h
      obtain ⟨⟨others, outputs', line'⟩, hbody, h⟩ := Outcome.bind_eq_ok.mp h
      obtain ⟨rfl, hrest⟩ := Prod.mk.inj (Outcome.pure_eq_ok.mp h)
      obtain ⟨rfl, rfl⟩ := Prod.mk.inj hrest
      obtain ⟨middle, final, rfl, hmiddle, hfinal⟩ := ih hbody
      refine ⟨l :: middle, final, rfl, .cons ?_ hmiddle, hfinal⟩
      exact ⟨ts, hl, wholeCall_eq_ok_iff.mp (Outcome.mapError_eq_ok.mp hcall), rfl⟩
    · obtain ⟨ports, hports, h⟩ := Outcome.bind_eq_ok.mp h
      cases ls with
      | cons next ls => cases h
      | nil =>
        obtain ⟨rfl, hrest⟩ := Prod.mk.inj (Outcome.pure_eq_ok.mp h)
        obtain ⟨rfl, rfl⟩ := Prod.mk.inj hrest
        exact ⟨[], l, rfl, .nil, ports_eq_ok_iff.mp (Outcome.mapError_eq_ok.mp hports), rfl⟩

theorem body_of_lines (last : Nat) {middle : List Line} {final : Line} {bindings : List Binding}
    {outputs : List Port} (hmiddle : List.Forall₂ IsBindingLine (middle.map view) bindings)
    (hfinal : IsPorts final.tokens outputs) :
    Parse.body last (middle ++ [final]) = .ok (bindings, outputs, final.number) := by
  induction middle generalizing bindings with
  | nil =>
    cases hmiddle
    rw [List.nil_append, Parse.body]
    split
    · rename_i hl
      exact absurd (by simp [hl]) hfinal.equals_not_mem
    · rw [ports_eq_ok_iff.mpr hfinal]
      rfl
  | cons l middle ih =>
    cases hmiddle with
    | @cons _ b _ _ hl hrest =>
      obtain ⟨number, tokens, ended⟩ := l
      obtain ⟨ts, rfl : tokens = _, hcall, hline : b.line = number⟩ := hl
      rw [List.cons_append, Parse.body]
      dsimp only
      rw [wholeCall_eq_ok_iff.mpr hcall, ih hrest, ← hline]
      rfl

theorem IsPorts.portLine {ts : List Token} {ports : List Port} (h : IsPorts ts ports)
    (hts : ts ≠ []) : IsPortLine ts ports :=
  ⟨fun hports => hts (h.eq_nil_iff.mp hports), h⟩

theorem IsPorts.not_isBinding {l : Line} {ports : List Port} (h : IsPorts l.tokens ports) :
    l.isBinding = false := by
  unfold Line.isBinding
  split
  · rename_i hl
    exact absurd (by simp [hl]) h.equals_not_mem
  · rfl

theorem program_eq_ok_iff {last : Nat} {ls : List Line} (hls : ∀ l ∈ ls, l.tokens ≠ [])
    {p : Program} :
    Parse.program last ls = .ok p ↔
      ∃ first middle final, ls = first :: (middle ++ [final]) ∧ IsPortLine first.tokens p.inputs ∧
        List.Forall₂ IsBindingLine (middle.map view) p.bindings ∧
        IsPortLine final.tokens p.outputs ∧ p.outputLine = final.number := by
  constructor
  · intro h
    cases ls with
    | nil => cases h
    | cons first rest =>
      rw [Parse.program] at h
      split at h
      · cases h
      · obtain ⟨inputs, hinputs, h⟩ := Outcome.bind_eq_ok.mp h
        obtain ⟨⟨bindings, outputs, line⟩, hbody, h⟩ := Outcome.bind_eq_ok.mp h
        obtain rfl := Outcome.pure_eq_ok.mp h
        obtain ⟨middle, final, rfl, hmiddle, hfinal, hline⟩ := lines_of_body hbody
        have hfirst := ports_eq_ok_iff.mp (Outcome.mapError_eq_ok.mp hinputs)
        exact ⟨first, middle, final, rfl, hfirst.portLine (hls first (by simp)), hmiddle,
          hfinal.portLine (hls final (by simp)), hline⟩
  · rintro ⟨first, middle, final, rfl, hfirst, hmiddle, hfinal, hline⟩
    rw [Parse.program, hfirst.2.not_isBinding, ports_eq_ok_iff.mpr hfirst.2,
      body_of_lines last hmiddle hfinal.2, ← hline]
    rfl

/-- The rules hold of tokens just when these are read as the program. -/
theorem tokens_eq_ok_iff {ts : List Token} {p : Program} :
    Parse.tokens ts = .ok p ↔ IsProgram ts p := by
  have hls : ∀ l ∈ (Line.cut ts).filter fun l => !l.isBlank, l.tokens ≠ [] := by
    intro l hl
    simpa [Line.isBlank] using (List.mem_filter.mp hl).2
  rw [Parse.tokens, program_eq_ok_iff hls, IsProgram, lines_eq]
  constructor
  · rintro ⟨first, middle, final, hcut, hrules⟩
    refine ⟨view first, middle.map view, view final, ?_, hrules⟩
    simp [hcut]
  · rintro ⟨_, _, _, hcut, hrules⟩
    obtain ⟨first, others, hfilter, rfl, hothers⟩ := List.map_eq_cons_iff.mp hcut
    obtain ⟨middle, finals, rfl, rfl, hfinals⟩ := List.map_eq_append_iff.mp hothers
    obtain ⟨final, rfl, rfl⟩ := List.map_eq_singleton_iff.mp hfinals
    exact ⟨first, middle, final, hfilter, hrules⟩

end Grammar

end WireLogic
