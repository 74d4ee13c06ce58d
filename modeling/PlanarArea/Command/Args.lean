import PlanarArea.Decimal.Read

/-!
The arguments of the command line.

A command is named first, its options follow in any order. An option takes its value after an equals
sign or as the next argument, which then must not look like an option. Each option stands once.
-/
namespace PlanarArea

/-- What the program is asked to do. -/
inductive Command where
  /-- Evaluate an expression over the scene in a file. -/
  | evaluate (scene expr : String) (curvePoints : Option Nat) (halfPlaneExtent : Option Float)
  | tokens (expr : String) (json : Bool)
  | parse (expr : String)

namespace Command

/-- Whether an option takes a value. -/
inductive Arity where
  | flag
  | valued
deriving DecidableEq

/-- The name of a long option and the value attached to it. -/
def splitOption? (arg : String) : Option (String × Option String) :=
  match arg.toList with
  | '-' :: '-' :: cs =>
    let name := String.ofList (cs.takeWhile (· ≠ '='))
    match cs.dropWhile (· ≠ '=') with
    | _ :: value => some (name, some (String.ofList value))
    | [] => some (name, none)
  | _ => none

/-- Whether an argument cannot be the value of the option before it. A lone hyphen can. -/
def looksLikeOption (arg : String) : Bool :=
  match arg.toList with
  | '-' :: _ :: _ => true
  | _ => false

/-- The options that are given, with their values, none for a usage error. Nothing but options may
follow, apart from a closing pair of hyphens. -/
def options? (known : List (String × Arity)) : List String → Option (List (String × String))
  | [] => some []
  | ["--"] => some []
  | [arg] =>
    match splitOption? arg with
    | none => none
    | some (name, attached) =>
      match known.lookup name, attached with
      | some .flag, none => some [(name, "")]
      | some .valued, some value => some [(name, value)]
      | _, _ => none
  | arg :: next :: rest =>
    match splitOption? arg with
    | none => none
    | some (name, attached) =>
      match known.lookup name, attached with
      | some .flag, none => (options? known (next :: rest)).map ((name, "") :: ·)
      | some .valued, some value => (options? known (next :: rest)).map ((name, value) :: ·)
      | some .valued, none =>
        if looksLikeOption next then none else (options? known rest).map ((name, next) :: ·)
      | _, _ => none

/-- The options if none is given twice. -/
def distinctOptions? (known : List (String × Arity)) (args : List String) :
    Option (List (String × String)) := do
  let given ← options? known args
  if (given.map Prod.fst).Nodup then some given else none

/-- A count that fits 64 bits, in decimal digits, a plus sign allowed before them. -/
def count? (text : String) : Option Nat :=
  let cs := match text.toList with
    | '+' :: cs => cs
    | cs => cs
  if cs ≠ [] ∧ cs.all Char.isDigit then
    let n := Decimal.digitsValue cs
    if n < 18446744073709551616 then some n else none
  else none

/-- The value of an option that may be left out; what does not read is a usage error. -/
def optional? {β : Type} (read? : String → Option β) : Option String → Option (Option β)
  | none => some none
  | some text => (read? text).map some

def path? (text : String) : Option String :=
  if text = "" then none else some text

def evaluateOptions : List (String × Arity) :=
  [("scene", .valued), ("expr", .valued), ("curve-points", .valued),
    ("half-plane-extent", .valued)]

/-- The command with the given name and arguments. -/
def named? (name : String) (args : List String) : Option Command := do
  match name with
  | "eval" =>
    let given ← distinctOptions? evaluateOptions args
    return evaluate (← (given.lookup "scene").bind path?) (← given.lookup "expr")
      (← optional? count? (given.lookup "curve-points"))
      (← optional? Decimal.ofText? (given.lookup "half-plane-extent"))
  | "tokens" =>
    let given ← distinctOptions? [("expr", .valued), ("json", .flag)] args
    return tokens (← given.lookup "expr") (given.lookup "json").isSome
  | "parse" =>
    let given ← distinctOptions? [("expr", .valued)] args
    return parse (← given.lookup "expr")
  | _ => none

/-- Whether a text names a level of logging, by a word in any case or by a number. -/
def isLogLevel (text : String) : Bool :=
  match count? text with
  | some n => 1 ≤ n && n ≤ 5
  | none =>
    ["error", "warn", "info", "debug", "trace"].contains
      (String.ofList (text.toList.map Char.toLower))

/-- The command that the arguments ask for, none for a usage error. A level of logging may stand
before the command. -/
def ofArgs? (args : List String) : Option Command :=
  match args with
  | [] => none
  | arg :: rest =>
    match splitOption? arg with
    | none => named? arg rest
    | some ("log-level", some level) =>
      if isLogLevel level then command? rest else none
    | some ("log-level", none) =>
      match rest with
      | level :: rest => if isLogLevel level then command? rest else none
      | [] => none
    | some _ => none
where
  command? : List String → Option Command
    | name :: rest => named? name rest
    | [] => none

end Command

end PlanarArea
