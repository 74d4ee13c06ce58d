import PlanarArea.Command.Args
import PlanarArea.Eval.Outcome
import PlanarArea.Json.Write
import PlanarArea.Overlay.Clip
import PlanarArea.Scene.Json

/-!
What each command prints. A fault of an evaluation is part of its report; only a scene that cannot
be read or decoded, and a malformed text given to the other commands, make a command fail.
-/
namespace PlanarArea

/-- One token on a line. -/
def Token.line (t : Token) : String :=
  s!"{t.kind.label}@{t.pos} {t.text}"

def Token.toJson (t : Token) : Json :=
  .obj [("kind", .str t.kind.label), ("text", .str t.text), ("pos", .nat t.pos)]

/-- Why a command fails. -/
inductive Command.Failure where
  | unreadable (path : String)
  | undecodable (path : String)
  | malformed (error : ParseError)
deriving DecidableEq, Repr

def Command.Failure.message : Command.Failure → String
  | unreadable path => "reading scene " ++ path
  | undecodable path => "decoding scene " ++ path
  | malformed error => error.message

namespace Command

/-- The file that a command reads. -/
def path : Command → Option String
  | evaluate scene .. => some scene
  | tokens .. | parse _ => none

def settings (curvePoints : Option Nat) (halfPlaneExtent : Option Float) : Settings Float :=
  let usual : Settings Float := Settings.default
  { usual with
    curvePoints := curvePoints.getD usual.curvePoints
    halfPlaneExtent := halfPlaneExtent.getD usual.halfPlaneExtent }

/-- The tokens of an expression, one on a line or as an indented JSON array. -/
def tokenText (expr : String) (json : Bool) : Except ParseError String :=
  match Token.ofText expr with
  | .error e => .error e
  | .ok ts =>
    .ok (if json then (Json.arr (ts.map Token.toJson)).pretty 0
      else String.intercalate "\n" (ts.map Token.line))

/-- The report on an expression over the scene that a text holds, none if it holds none. -/
def report? (settings : Settings Float) (sceneText expr : String) : Option (Report Float) :=
  (Scene.ofText? sceneText).map fun scene =>
    (Outcome.evaluate Overlay.clipper settings scene.resolver expr).report

/-- What a command prints. `file` is the text of the file that it reads, none if there is no such
text. -/
def run (file : Option String) : Command → Except Failure String
  | evaluate scene expr curvePoints halfPlaneExtent =>
    match file with
    | none => .error (.unreadable scene)
    | some text =>
      match report? (settings curvePoints halfPlaneExtent) text expr with
      | none => .error (.undecodable scene)
      | some report => .ok report.toJson.compact
  | tokens expr json => (tokenText expr json).mapError .malformed
  | parse expr =>
    match Expr.parse expr Expr.defaultLimit with
    | .ok e => .ok e.render
    | .error e => .error (.malformed e)

end Command

end PlanarArea
