/-!
# Programs

A program declares input ports, binds names to calls of cells, line by line, and ends with an
output line. An argument of a call is a name or another call.
-/

namespace WireLogic

set_option autoImplicit false

structure Port where
  name : String
  width : Option Nat
deriving DecidableEq, Repr

inductive Arg where
  | name (name : String)
  | call (callee : String) (args : List Arg)
deriving Repr

structure Call where
  callee : String
  args : List Arg
deriving Repr

structure Binding where
  name : String
  call : Call
  line : Nat
deriving Repr

structure Program where
  inputs : List Port
  bindings : List Binding
  outputs : List Port
  outputLine : Nat
deriving Repr

end WireLogic
