import PlanarArea.Proofs.Json.RoundTrip
import PlanarArea.Proofs.Scene.RoundTrip

/-!
# Scenes that are read back from text

A scene with finite numbers is read back from its text if its numbers are: its JSON form has no more
than four arrays and objects inside one another.
-/
namespace PlanarArea

/-- Each number is read back from the numeral that is written for it. -/
def AllReadBack (xs : List Float) : Prop :=
  ∀ x ∈ xs, Json.ReadsBack x

@[simp] theorem allReadBack_cons {x : Float} {xs : List Float} :
    AllReadBack (x :: xs) ↔ Json.ReadsBack x ∧ AllReadBack xs :=
  List.forall_mem_cons

@[simp] theorem allReadBack_append {xs ys : List Float} :
    AllReadBack (xs ++ ys) ↔ AllReadBack xs ∧ AllReadBack ys :=
  List.forall_mem_append

theorem allReadBack_flatMap {β : Type} {f : β → List Float} {bs : List β} :
    AllReadBack (bs.flatMap f) ↔ ∀ b ∈ bs, AllReadBack (f b) := by
  simp only [AllReadBack, List.mem_flatMap]
  exact ⟨fun h b hb x hx => h x ⟨b, hb, hx⟩, fun h x ⟨b, hb, hx⟩ => h b hb x hx⟩

theorem Point.readable_toJson {p : Point Float} (h : AllReadBack p.numbers) (room : Nat) :
    Json.Readable (room + 1) p.toJson := by
  simp only [numbers, allReadBack_cons] at h
  exact .arr (by simp [Json.readable_ofFloat, h])

theorem Shape.readable_toJson {s : Shape Float} (h : AllReadBack s.numbers) (room : Nat) :
    Json.Readable (room + 3) s.toJson := by
  refine .obj (List.forall_mem_cons.mpr ⟨.str _ s.tag, ?_⟩)
  cases s with
  | polygon vertices =>
    have hvertices : Json.Readable (room + 2) (.arr (vertices.map Point.toJson)) := by
      refine .arr fun item hitem => ?_
      obtain ⟨p, hp, rfl⟩ := List.mem_map.mp hitem
      exact Point.readable_toJson (allReadBack_flatMap.mp h p hp) room
    simp [fields, hvertices]
  | unsupported className => simp [fields, Json.Readable.str]
  | _ =>
    simp only [numbers, allReadBack_append, allReadBack_cons] at h
    simp [fields, Point.readable_toJson, Json.readable_ofFloat, Json.Readable.bool, h]

namespace Scene

theorem readable_toJson {s : Scene Float} (h : AllReadBack s.numbers) (room : Nat) :
    Json.Readable (room + 4) s.toJson := by
  refine .obj fun m hm => ?_
  obtain ⟨e, he, rfl⟩ := List.mem_map.mp hm
  exact Shape.readable_toJson (allReadBack_flatMap.mp h e he) room

/-- A scene is read back from its text if its numbers are finite and are read back from theirs. -/
theorem ofText?_compact {s : Scene Float} (hfinite : AllFinite s.numbers)
    (hback : AllReadBack s.numbers) : ofText? s.toJson.compact = some s := by
  have hreadable : Json.Readable Json.maxDepth s.toJson := readable_toJson hback 123
  rw [ofText?, Json.ofText?_compact hreadable, Option.bind_some, ofJson?_toJson hfinite]

end Scene

end PlanarArea
