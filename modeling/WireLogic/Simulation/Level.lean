/-!
# Logic levels

A wire is known to be true, known to be false, or unknown.
-/

namespace WireLogic

set_option autoImplicit false

inductive Level where
  | unknown
  | known (value : Bool)
deriving DecidableEq, Repr, Inhabited

namespace Level

def isKnown : Level → Bool
  | unknown => false
  | known _ => true

def symbol : Level → Char
  | known true => '1'
  | known false => '0'
  | unknown => 'x'

def name : Level → String
  | known true => "True"
  | known false => "False"
  | unknown => "Unknown"

end Level

def bitString (bits : List Bool) : String := String.ofList (bits.map fun b => if b then '1' else '0')

def levelString (levels : List Level) : String := String.ofList (levels.map Level.symbol)

end WireLogic
