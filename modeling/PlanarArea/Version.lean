/-!
The version of the library.
-/
namespace PlanarArea

def version : String := "0.1.0"

end PlanarArea
