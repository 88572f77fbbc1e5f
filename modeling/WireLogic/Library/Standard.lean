import WireLogic.Program.Elaboration

/-!
# The standard cells

Eight primitive cells are given by their graphs, four composite ones by programs.
-/

namespace WireLogic.Library

set_option autoImplicit false

/-- A cell given by its graph, its ports and the widths of its groups. -/
structure Primitive where
  name : String
  size : Nat
  edges : List Edge
  inputs : List Nat
  outputs : List Nat
  inputWidths : List Nat
  outputWidths : List Nat

def Primitive.cell (p : Primitive) : Except CircuitError Cell := do
  let circuit ← Circuit.ofEdges p.size p.edges p.inputs p.outputs
  Cell.ofWidths circuit p.inputWidths p.outputWidths

/-- One predecessor makes a node an inverter, two make it a NAND. The last three only move bits. -/
def primitives : List Primitive :=
  [⟨"not", 2, [(0, 1)], [0], [1], [1], [1]⟩,
    ⟨"nand", 3, [(0, 2), (1, 2)], [0, 1], [2], [1, 1], [1]⟩,
    ⟨"and", 4, [(0, 2), (1, 2), (2, 3)], [0, 1], [3], [1, 1], [1]⟩,
    ⟨"or", 5, [(0, 2), (1, 3), (2, 4), (3, 4)], [0, 1], [4], [1, 1], [1]⟩,
    ⟨"nor", 6, [(0, 2), (1, 3), (2, 4), (3, 4), (4, 5)], [0, 1], [5], [1, 1], [1]⟩,
    ⟨"cat", 2, [], [0, 1], [0, 1], [1, 1], [2]⟩,
    ⟨"lo", 2, [], [0, 1], [0], [2], [1]⟩,
    ⟨"hi", 2, [], [0, 1], [1], [2], [1]⟩]

def xorSource : String := "// Exclusive or.
a b
x = or a b
y = and a b
out = and x (not y)
out
"

/-- The second argument when the first is set, the third otherwise. -/
def ifSource : String := "// Select: t when c is set, f otherwise.
c t f
p = and c t
q = and (not c) f
r = or p q
r
"

/-- A full adder. Output bit 0 is the sum, bit 1 the carry. -/
def add1cSource : String := "// Full adder. Output bit 0 is the sum, bit 1 the carry.
a b cin
s1 = xor a b
sum = xor s1 cin
c1 = and a b
c2 = and s1 cin
carry = or c1 c2
out = cat sum carry
2:out
"

/-- A two-bit adder, lowest bit first, that drops the carry. -/
def add2Source : String := "// 2-bit adder, little endian, carry out dropped.
2:a 2:b
a0 = lo a
a1 = hi a
b0 = lo b
b1 = hi b
s0 = xor a0 b0
c0 = and a0 b0
t = xor a1 b1
s1 = xor t c0
sum = cat s0 s1
2:sum
"

def composites : List (String × String) :=
  [("xor", xorSource), ("if", ifSource), ("add1c", add1cSource), ("add2", add2Source)]

def standardNames : List String := primitives.map (·.name) ++ composites.map (·.1)

def addPrimitive (l : Library) (p : Primitive) : Except CompileError Library :=
  match p.cell with
  | .error e => .error (.standardCell p.name (.circuit e))
  | .ok cell => l.register p.name cell

def addComposite (l : Library) (entry : String × String) : Except CompileError Library :=
  (l.registerSource entry.1 entry.2 true).mapError (.standardCell entry.1)

/-- Adds cells one by one; those added before an error stay. -/
def addEach {α : Type} (add : Library → α → Except CompileError Library) :
    List α → Library → Except CompileError Unit × Library
  | [], l => (.ok (), l)
  | a :: rest, l =>
    match add l a with
    | .error e => (.error e, l)
    | .ok l => addEach add rest l

def addStandard (l : Library) : Except CompileError Unit × Library :=
  match addEach addPrimitive primitives l with
  | (.error e, l) => (.error e, l)
  | (.ok _, l) => addEach addComposite composites l

def standard : Except CompileError Library :=
  match addStandard empty with
  | (.error e, _) => .error e
  | (.ok _, l) => .ok l

end WireLogic.Library
