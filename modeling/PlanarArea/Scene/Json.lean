import PlanarArea.Json.Read
import PlanarArea.Scene.Basic
import PlanarArea.Shape.Json

/-!
The JSON form of a scene: an object with a member for each shape, named as the shape is.
-/
namespace PlanarArea.Scene

def toJson (s : Scene Float) : Json :=
  .obj (s.entries.map fun (name, shape) => (name, shape.toJson))

/-- Reads every member; of several with one name the last stays, but all have to be shapes. -/
def ofJson? : Json → Option (Scene Float)
  | .obj members => do
    return ofList (← members.mapM fun (name, j) => do return (name, ← Shape.ofJson? j))
  | _ => none

def ofText? (text : String) : Option (Scene Float) :=
  (Json.ofText? text).bind ofJson?

end PlanarArea.Scene
