import PlanarArea.Fault
import PlanarArea.Op
import PlanarArea.Text.Blank
import PlanarArea.Text.Numeric

/-!
Tokens of an expression: names, operators and parentheses, each with its place in the text.

A name starts with a letter or `_` and goes on through letters, numerals, `_` and primes. A group
of digits, points, commas and spaces in parentheses that follows at once belongs to the name, as
in `C(25)` or `E(50, 30)`; every other parenthesis is a token.
-/
namespace PlanarArea

inductive Token.Kind where
  | name
  | operator
  | openParen
  | closeParen
deriving DecidableEq, Repr

structure Token where
  kind : Token.Kind
  text : String
  /-- The number of characters before the token. -/
  pos : Nat
deriving DecidableEq, Repr

namespace Token

/-- The short word by which listings call a kind. -/
def Kind.label : Kind → String
  | name => "name"
  | operator => "op"
  | openParen => "lparen"
  | closeParen => "rparen"

/-- The kind of a token that is the single character `c`. -/
def Kind.ofChar? (c : Char) : Option Kind :=
  match Op.ofSymbol? c with
  | some _ => some operator
  | none => if c = '(' then some openParen else if c = ')' then some closeParen else none

/-- The first character of the text, a space if there is none. -/
def symbol (t : Token) : Char :=
  t.text.toList.headD ' '

/-- The operator that the token stands for, if it is an operator token. -/
def op? (t : Token) : Option Op :=
  match t.kind with
  | .operator => Op.ofSymbol? t.symbol
  | _ => none

def startsName (c : Char) : Bool :=
  Text.isAlphabetic c || c = '_'

def continuesName (c : Char) : Bool :=
  Text.isAlphanumeric c || c = '_' || c = '\''

/-- The characters that a numeric group may hold. -/
def isMeasure (c : Char) : Bool :=
  c.isDigit || c = '.' || c = ',' || c = ' '

/-- The numeric group at the start of `cs`, parentheses included, and what follows it. The group
ends at the first closing parenthesis; nothing is taken unless its body is non-empty and numeric. -/
def splitGroup (cs : List Char) : List Char × List Char :=
  match cs with
  | '(' :: inner =>
    let body := inner.takeWhile (· ≠ ')')
    match inner.dropWhile (· ≠ ')') with
    | close :: rest =>
      if body ≠ [] ∧ body.all isMeasure then ('(' :: body ++ [close], rest) else ([], cs)
    | [] => ([], cs)
  | _ => ([], cs)

/-- The rest of a name whose first character is read, and what follows it. -/
def splitName (cs : List Char) : List Char × List Char :=
  let stem := cs.takeWhile continuesName
  let (group, rest) := splitGroup (cs.dropWhile continuesName)
  (stem ++ group, rest)

theorem splitGroup_append (cs : List Char) : (splitGroup cs).1 ++ (splitGroup cs).2 = cs := by
  unfold splitGroup
  split
  · rename_i inner
    dsimp only
    split
    · rename_i close rest h
      split
      · have := List.takeWhile_append_dropWhile (p := (· ≠ ')')) (l := inner)
        rw [h] at this
        simpa using this
      · simp
    · simp
  · simp

/-- Splitting a name off loses no character. -/
theorem splitName_append (cs : List Char) : (splitName cs).1 ++ (splitName cs).2 = cs := by
  simp [splitName, List.append_assoc, splitGroup_append, List.takeWhile_append_dropWhile]

theorem length_splitName_le (cs : List Char) : (splitName cs).2.length ≤ cs.length := by
  have := congrArg List.length (splitName_append cs)
  simp only [List.length_append] at this
  omega

/-- The tokens of `cs`, which starts at position `pos` of the text. -/
def scan (pos : Nat) (cs : List Char) : Except ParseError (List Token) :=
  match cs with
  | [] => .ok []
  | c :: rest =>
    if Text.isBlank c then scan (pos + 1) rest
    else match Kind.ofChar? c with
      | some kind => (⟨kind, String.singleton c, pos⟩ :: ·) <$> scan (pos + 1) rest
      | none =>
        if startsName c then
          let tail := (splitName rest).1
          (⟨.name, String.ofList (c :: tail), pos⟩ :: ·)
            <$> scan (pos + 1 + tail.length) (splitName rest).2
        else .error (.unexpectedChar c pos)
termination_by cs.length
decreasing_by
  · simp
  · simp
  · have := length_splitName_le rest
    simp
    omega

/-- The tokens of a text, or the first character that starts none. -/
def ofText (text : String) : Except ParseError (List Token) :=
  scan 0 text.toList

end Token

end PlanarArea
