/-!
What can go wrong between the text of an expression and its area, and the wording of each case.

A fault is either a malformed expression or a name that does not become a region. Tangency and
the lack of a crossing are no faults.
-/
namespace PlanarArea

/-- Why a text is not an expression. Positions count characters from the start of the text. -/
inductive ParseError where
  | emptyExpression
  | unbalancedParens
  | unexpectedChar (ch : Char) (pos : Nat)
  | unexpectedOperator (symbol : Char) (pos : Nat)
  | unexpectedCloseParen (pos : Nat)
  /-- The parenthesis opened at `pos` is not closed where it has to be. -/
  | missingCloseParen (pos : Nat)
  | unexpectedEnd
  | trailingToken (text : String) (pos : Nat)
  | tooDeep (limit : Nat)
deriving DecidableEq, Repr

/-- Why a shape encloses no area. -/
inductive Defect where
  | radius
  | radii
  | emptyCircle
  | emptyEllipse
  | fewVertices
  | coincidentEndpoints
  /-- A reason that a host gives in its own words. -/
  | other (reason : String)
deriving DecidableEq, Repr

/-- Why a name does not stand for a region. -/
inductive ShapeError where
  | unknown (name : String)
  | unconvertible (name className : String)
  | degenerate (name : String) (defect : Defect)
deriving DecidableEq, Repr

inductive Fault where
  | malformed (error : ParseError)
  | unresolved (error : ShapeError)
deriving DecidableEq, Repr

/-- Where an evaluation went wrong: in the text, or in what its names stand for. -/
inductive Fault.Category where
  | grammar
  | resolution
deriving DecidableEq, Repr

def Fault.category : Fault → Fault.Category
  | malformed _ => .grammar
  | unresolved _ => .resolution

def ParseError.message : ParseError → String
  | emptyExpression => "syntax error: expression must be a non-empty string"
  | unbalancedParens => "syntax error: unbalanced parentheses in expression"
  | unexpectedChar ch pos => s!"syntax error: unexpected character '{ch}' at position {pos}"
  | unexpectedOperator symbol pos =>
    s!"syntax error: unexpected operator '{symbol}' at position {pos}"
  | unexpectedCloseParen pos =>
    s!"syntax error: unexpected closing parenthesis at position {pos}"
  | missingCloseParen pos =>
    s!"syntax error: missing closing parenthesis for '(' at position {pos}"
  | unexpectedEnd => "syntax error: unexpected end of expression"
  | trailingToken text pos => s!"syntax error: unexpected token '{text}' at position {pos}"
  | tooDeep limit => s!"syntax error: expression nests deeper than {limit} levels"

def Defect.reason : Defect → String
  | radius => "radius must be positive"
  | radii => "radii must be positive"
  | emptyCircle => "circle has no area"
  | emptyEllipse => "ellipse has no area"
  | fewVertices => "fewer than three distinct vertices"
  | coincidentEndpoints => "segment endpoints coincide"
  | other reason => reason

def ShapeError.message : ShapeError → String
  | unknown name => s!"resolution error: drawable '{name}' not found"
  | unconvertible name className =>
    s!"resolution error: cannot convert drawable '{name}' of type '{className}' to a region"
  | degenerate name defect =>
    s!"resolution error: drawable '{name}' is degenerate: {defect.reason}"

def Fault.message : Fault → String
  | malformed error => error.message
  | unresolved error => error.message

end PlanarArea
