/-!
JSON values. A number written without a fraction or an exponent is kept as an integer; members of
an object keep their order and repetitions.
-/
namespace PlanarArea

inductive Json where
  | null
  | bool (b : Bool)
  | int (n : Int)
  | float (x : Float)
  | str (s : String)
  | arr (items : List Json)
  | obj (members : List (String × Json))
deriving Inhabited

namespace Json

def nat (n : Nat) : Json :=
  .int n

/-- The value of a number that a double can hold. -/
def float? : Json → Option Float
  | int n => let x := Float.ofInt n; if x.isFinite then some x else none
  | float x => if x.isFinite then some x else none
  | _ => none

def bool? : Json → Option Bool
  | bool b => some b
  | _ => none

def str? : Json → Option String
  | str s => some s
  | _ => none

def nat? : Json → Option Nat
  | int n => n.toNat?
  | _ => none

def arr? : Json → Option (List Json)
  | arr items => some items
  | _ => none

def obj? : Json → Option (List (String × Json))
  | obj members => some members
  | _ => none

/-- The first member of an object with this name. -/
def get? (name : String) : Json → Option Json
  | obj members => members.lookup name
  | _ => none

/-- A double as a number; a value that no number stands for becomes `null`. -/
def ofFloat (x : Float) : Json :=
  if x.isFinite then .float x else .null

end Json

end PlanarArea
