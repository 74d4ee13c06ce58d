import PlanarArea.Decimal.Shortest
import PlanarArea.Json.Basic

/-!
Writing JSON text, on one line or indented.
-/
namespace PlanarArea.Json

/-- Where numbers change from positional to exponential form: positional from `10 ^ low` up to
`10 ^ high`, the upper end excluded. -/
structure NumberForm where
  low : Int
  high : Int

def numberForm : NumberForm := ⟨-5, 16⟩

/-- The digits `ds`, the first of which stands for `10 ^ lead`. A positional number always has a
digit after its point. -/
def NumberForm.text (form : NumberForm) (ds : List Char) (lead : Int) : String :=
  if form.low ≤ lead && lead < form.high then
    if lead < 0 then
      "0." ++ String.ofList (List.replicate (-lead - 1).toNat '0' ++ ds)
    else
      let whole := lead.toNat + 1
      let fraction := ds.drop whole
      let padded := ds.take whole ++ List.replicate (whole - ds.length) '0'
      String.ofList padded ++ "." ++ (if fraction = [] then "0" else String.ofList fraction)
  else
    match ds with
    | [] => "0"
    | [d] => s!"{d}e{lead}"
    | d :: rest => s!"{d}.{String.ofList rest}e{lead}"

/-- The shortest text that reads back as `x`; what is no number is `null`. -/
def floatText (x : Float) : String :=
  match Decimal.magnitude x with
  | .nan | .infinite => "null"
  | .finite value =>
    let sign := if Decimal.isNegative x then "-" else ""
    if value.mantissa = 0 then sign ++ "0.0"
    else
      let s := value.shortest.trim
      let ds := Decimal.digits s.digits
      sign ++ numberForm.text ds (s.exponent + ds.length - 1)

/-- The digits of a code unit below 256 in base sixteen. -/
def hexByte (n : Nat) : List Char :=
  [Nat.digitChar (n / 16), Nat.digitChar (n % 16)]

/-- A character of a string as it is written between the quotes. -/
def escape (c : Char) : List Char :=
  if c = '"' then ['\\', '"']
  else if c = '\\' then ['\\', '\\']
  else if c = '\n' then ['\\', 'n']
  else if c = '\t' then ['\\', 't']
  else if c = '\r' then ['\\', 'r']
  else if c = '\x08' then ['\\', 'b']
  else if c = '\x0c' then ['\\', 'f']
  else if c.toNat < 0x20 then '\\' :: 'u' :: '0' :: '0' :: hexByte c.toNat
  else [c]

def quoted (s : String) : String :=
  "\"" ++ String.ofList (s.toList.flatMap escape) ++ "\""

mutual

/-- The value on one line without spaces. -/
def compact : Json → String
  | null => "null"
  | bool b => if b then "true" else "false"
  | int n => toString n
  | float x => floatText x
  | str s => quoted s
  | arr items => "[" ++ compactItems items ++ "]"
  | obj members => "\x7b" ++ compactMembers members ++ "\x7d"

def compactItems : List Json → String
  | [] => ""
  | [item] => item.compact
  | item :: rest => item.compact ++ "," ++ compactItems rest

def compactMembers : List (String × Json) → String
  | [] => ""
  | [(name, value)] => quoted name ++ ":" ++ value.compact
  | (name, value) :: rest => quoted name ++ ":" ++ value.compact ++ "," ++ compactMembers rest

end

def indent (depth : Nat) : String :=
  "\n" ++ String.ofList (List.replicate (2 * depth) ' ')

mutual

/-- The value with each item and member on a line of its own, two spaces deeper than its
container. -/
def pretty (depth : Nat) : Json → String
  | arr [] => "[]"
  | arr items => "[" ++ prettyItems (depth + 1) items ++ indent depth ++ "]"
  | obj [] => "\x7b\x7d"
  | obj members => "\x7b" ++ prettyMembers (depth + 1) members ++ indent depth ++ "\x7d"
  | other => other.compact

def prettyItems (depth : Nat) : List Json → String
  | [] => ""
  | [item] => indent depth ++ item.pretty depth
  | item :: rest => indent depth ++ item.pretty depth ++ "," ++ prettyItems depth rest

def prettyMembers (depth : Nat) : List (String × Json) → String
  | [] => ""
  | [(name, value)] => indent depth ++ quoted name ++ ": " ++ value.pretty depth
  | (name, value) :: rest =>
    indent depth ++ quoted name ++ ": " ++ value.pretty depth ++ "," ++ prettyMembers depth rest

end

end PlanarArea.Json
