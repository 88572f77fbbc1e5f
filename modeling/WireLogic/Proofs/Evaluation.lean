import WireLogic.Library.Basic
import WireLogic.Program.Basic
import WireLogic.Proofs.Flatten

/-!
# What a program means

A program can be evaluated without putting anything together: names stand for bits, and a call
simulates the cell it names on the bits of its arguments. Binding a name that is in force moves the
bits it stood for to an alias, so nothing that has been bound is ever lost.
-/

namespace WireLogic

set_option autoImplicit false

/-- The names in force with their bits, and for every name that has been moved the number that its
next alias is tried with. -/
structure Environment where
  values : List (String × List Bool)
  counts : List (String × Nat)

namespace Environment

def empty : Environment := ⟨[], []⟩

def value? (env : Environment) (name : String) : Option (List Bool) := env.values.lookup name

def aliasName (name : String) (k : Nat) : String := s!"{name}_{k}"

/-- The first number whose alias is free, from the count of the name on. With as many values as
there are, one of so many aliases is. -/
def freeAlias? (env : Environment) (name : String) : Option Nat :=
  (List.range' ((env.counts.lookup name).getD 0) (env.values.length + 1)).find? fun k =>
    (env.value? (aliasName name k)).isNone

def without (env : Environment) (name : String) : Environment :=
  { env with values := env.values.filter fun b => b.1 != name }

/-- Puts a name in force. What it stood for is moved to its first free alias. -/
def bind (env : Environment) (name : String) (bits : List Bool) : Option Environment :=
  match env.value? name with
  | none => some { env with values := (name, bits) :: env.values }
  | some old => do
    let rest := env.without name
    let k ← rest.freeAlias? name
    return ⟨(name, bits) :: (aliasName name k, old) :: rest.values,
      (name, k + 1) :: rest.counts.filter fun b => b.1 != name⟩

mutual

/-- The bits of an argument. A call cuts the bits of its arguments to the inputs of the cell, or
fills them up with false bits. -/
def argBits (library : Library) (env : Environment) : Arg → Option (List Bool)
  | .name name => env.value? name
  | .call callee args => do
    let cell ← library.get? callee
    let bits ← argsBits library env args
    (cell.circuit.simulate (fit cell.inputWidth bits)).toOption

def argsBits (library : Library) (env : Environment) : List Arg → Option (List Bool)
  | [] => some []
  | arg :: rest => do
    let bits ← argBits library env arg
    let more ← argsBits library env rest
    return bits ++ more

end

def runBinding (library : Library) (env : Environment) (b : Binding) : Option Environment := do
  env.bind b.name (← env.argBits library (.call b.call.callee b.call.args))

end Environment

/-- The bits of the one output, when the input ports have the given bits. -/
def Program.evaluate (p : Program) (library : Library) (ports : List (List Bool)) :
    Option (List Bool) := do
  let env ← (p.inputs.zip ports).foldlM (fun env b => env.bind b.1.name b.2) Environment.empty
  let env ← p.bindings.foldlM (Environment.runBinding library) env
  match p.outputs with
  | [output] => env.value? output.name
  | _ => none

def cutInto : List Nat → List Bool → List (List Bool)
  | [], _ => []
  | width :: rest, bits => bits.take width :: cutInto rest (bits.drop width)

theorem cutInto_flatten (pieces : List (List Bool)) :
    cutInto (pieces.map List.length) pieces.flatten = pieces := by
  induction pieces with
  | nil => rfl
  | cons piece rest ih => simp [cutInto, ih]

namespace Environment

theorem bind_of_free {env : Environment} {name : String} (h : env.value? name = none)
    (bits : List Bool) : env.bind name bits = some ⟨(name, bits) :: env.values, env.counts⟩ := by
  simp [bind, h]

theorem bind_of_taken {env : Environment} {name : String} {old : List Bool} {k : Nat}
    (h : env.value? name = some old) (hk : (env.without name).freeAlias? name = some k)
    (bits : List Bool) :
    env.bind name bits = some ⟨(name, bits) :: (aliasName name k, old) :: (env.without name).values,
      (name, k + 1) :: env.counts.filter fun b => b.1 != name⟩ := by
  simp only [bind, h, hk]
  rfl

theorem aliasName_injective {name : String} {j k : Nat} (h : aliasName name j = aliasName name k) :
    j = k := by
  have hrepr : j.repr = k.repr := (String.append_right_inj _).mp h
  have hdigits : Nat.toDigits 10 j = Nat.toDigits 10 k := String.ofList_inj.mp hrepr
  rw [← Nat.ofDigitChars_toDigits (b := 10) (n := j) (by decide) (by decide), hdigits,
    Nat.ofDigitChars_toDigits (by decide) (by decide)]

theorem exists_freeAlias (env : Environment) (name : String) :
    ∃ k, env.freeAlias? name = some k := by
  apply Option.isSome_iff_exists.mp
  apply Decidable.byContradiction
  intro hnone
  rw [Option.not_isSome_iff_eq_none, freeAlias?, List.find?_eq_none] at hnone
  -- More aliases are tried than there are names in force, and no two of them are the same.
  let tried := (List.range' ((env.counts.lookup name).getD 0) (env.values.length + 1)).map
    (aliasName name)
  have hnodup : tried.Nodup := by
    refine List.pairwise_map.mpr ((List.pairwise_lt_range' _).imp fun hlt heq => ?_)
    exact Nat.ne_of_lt hlt (aliasName_injective heq)
  have htaken : tried ⊆ env.values.map (·.1) := by
    intro other hother
    obtain ⟨k, hk, rfl⟩ := List.mem_map.mp hother
    have hsome : (env.values.lookup (aliasName name k)).isSome = true := by
      simpa [value?] using hnone k hk
    obtain ⟨b, hb, heq⟩ := List.lookup_isSome_iff.mp hsome
    exact List.mem_map.mpr ⟨b, hb, (eq_of_beq heq).symm⟩
  have hlength := hnodup.length_le_of_subset htaken
  simp only [tried, List.length_map, List.length_range'] at hlength
  omega

end Environment

end WireLogic
