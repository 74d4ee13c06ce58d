import PlanarArea.Proofs.Shape.RoundTrip
import PlanarArea.Scene.Json

/-!
# Scenes that are read back

A scene is written in the order of its names. Reading inserts the members one by one, so those of a
written scene go to the end each time and the scene is the same again. What is read from any JSON
value has finite numbers, so it can be written and read once more without a change.
-/
namespace PlanarArea.Scene

/-- All numbers that make up the shapes of the scene. -/
def numbers {α : Type} (s : Scene α) : List α :=
  s.entries.flatMap fun e => e.2.numbers

section Insertion

variable {α : Type}

/-- A name beyond all others goes to the end. -/
theorem insertEntry_of_lt {name : String} {shape : Shape α} {entries : List (String × Shape α)}
    (h : ∀ e ∈ entries, e.1 < name) :
    insertEntry name shape entries = entries ++ [(name, shape)] := by
  induction entries with
  | nil => rfl
  | cons e entries ih =>
    obtain ⟨hlt, hrest⟩ := List.forall_mem_cons.mp h
    have hle : ¬ name < e.1 := fun hgt => String.lt_irrefl _ (String.lt_trans hlt hgt)
    have hne : name ≠ e.1 := fun heq => String.lt_irrefl _ (heq ▸ hlt)
    rw [insertEntry, if_neg hle, if_neg hne, ih hrest, List.cons_append]

theorem entries_foldl_insert {entries : List (String × Shape α)} {s : Scene α}
    (h : (s.entries ++ entries).Pairwise fun a b => a.1 < b.1) :
    (entries.foldl (fun s e => s.insert e.1 e.2) s).entries = s.entries ++ entries := by
  induction entries generalizing s with
  | nil => simp
  | cons e entries ih =>
    have hlast : (s.insert e.1 e.2).entries = s.entries ++ [e] :=
      insertEntry_of_lt fun e' he' => (List.pairwise_append.mp h).2.2 e' he' e (by simp)
    have hrest := ih (s := s.insert e.1 e.2) (by simpa [hlast] using h)
    rw [List.foldl_cons, hrest, hlast, List.append_assoc, List.singleton_append]

/-- A scene consists of its entries. -/
theorem ofList_entries (s : Scene α) : ofList s.entries = s :=
  ext (entries_foldl_insert s.ascending)

theorem mem_of_mem_foldl_insert {entries : List (String × Shape α)} {s : Scene α}
    {e : String × Shape α} (h : e ∈ (entries.foldl (fun s e => s.insert e.1 e.2) s).entries) :
    e ∈ s.entries ∨ e ∈ entries := by
  induction entries generalizing s with
  | nil => exact .inl h
  | cons a entries ih =>
    rcases ih h with hs | hentries
    · rcases mem_insertEntry hs with rfl | hs
      · exact .inr List.mem_cons_self
      · exact .inl hs
    · exact .inr (List.mem_cons_of_mem a hentries)

/-- A scene has no entry but those that it is made from. -/
theorem mem_of_mem_ofList {entries : List (String × Shape α)} {e : String × Shape α}
    (h : e ∈ (ofList entries).entries) : e ∈ entries :=
  (mem_of_mem_foldl_insert h).resolve_left (List.not_mem_nil)

end Insertion

theorem allFinite_numbers_iff {s : Scene Float} :
    AllFinite s.numbers ↔ ∀ e ∈ s.entries, AllFinite e.2.numbers :=
  allFinite_flatMap

/-- The member of a written scene, as it is read. -/
def readMember? (member : String × Json) : Option (String × Shape Float) :=
  (Shape.ofJson? member.2).map fun shape => (member.1, shape)

theorem ofJson?_obj (members : List (String × Json)) :
    ofJson? (.obj members) = (members.mapM readMember?).map ofList := by
  have hread : (fun m : String × Json => do return (m.1, ← Shape.ofJson? m.2)) = readMember? := by
    funext m
    cases h : Shape.ofJson? m.2 <;> simp [readMember?, h]
  rw [← hread, Option.map_eq_bind]
  rfl

/-- Entries with finite numbers are read back one by one. -/
theorem mapM_readMember?_toJson {entries : List (String × Shape Float)}
    (h : ∀ e ∈ entries, AllFinite e.2.numbers) :
    (entries.map fun e => (e.1, e.2.toJson)).mapM readMember? = some entries := by
  refine Json.mapM_map_of_read fun e he => ?_
  rw [readMember?, Shape.ofJson?_toJson (h e he), Option.map_some]

theorem allFinite_of_mapM_readMember? {members : List (String × Json)}
    {entries : List (String × Shape Float)} (h : members.mapM readMember? = some entries) :
    ∀ e ∈ entries, AllFinite e.2.numbers := by
  refine Json.forall_mem_of_mapM (fun m e he => ?_) h
  obtain ⟨shape, hshape, rfl⟩ := Option.map_eq_some_iff.mp he
  exact Shape.allFinite_of_ofJson? hshape

/-- A scene with finite numbers is read back from its written form. -/
theorem ofJson?_toJson {s : Scene Float} (h : AllFinite s.numbers) :
    ofJson? s.toJson = some s := by
  rw [toJson, ofJson?_obj, mapM_readMember?_toJson (allFinite_numbers_iff.mp h), Option.map_some,
    ofList_entries]

/-- Whatever is read as a scene has finite numbers. -/
theorem allFinite_of_ofJson? {j : Json} {s : Scene Float} (h : ofJson? j = some s) :
    AllFinite s.numbers := by
  cases j with
  | obj members =>
    rw [ofJson?_obj, Option.map_eq_some_iff] at h
    obtain ⟨entries, hentries, rfl⟩ := h
    exact allFinite_numbers_iff.mpr fun e he =>
      allFinite_of_mapM_readMember? hentries e (mem_of_mem_ofList he)
  | _ => cases h

/-- A scene is read back from its written form exactly if all its numbers are finite. Every scene
that is read from a JSON value is such a scene, so writing and reading it once more gives the same
scene. -/
theorem json_round_trip (s : Scene Float) :
    (ofJson? s.toJson = some s ↔ ∀ x ∈ s.numbers, x.isFinite = true) ∧
    ∀ j, ofJson? j = some s → ofJson? s.toJson = some s :=
  ⟨⟨allFinite_of_ofJson?, ofJson?_toJson⟩, fun _ h => ofJson?_toJson (allFinite_of_ofJson? h)⟩

/-- Members out of order, as arrays and as an object whose type comes last. The name `B` is there
twice, the last one stays. -/
def mixed : Json :=
  .obj [("B", .arr [.str "unsupported", .str "Point"]),
    ("A", .arr [.str "segment", .arr [.int 0, .float 0.5], .arr [.int 3, .int (-4)]]),
    ("B", .obj [("radius", .int 5), ("center", .arr [.int 1, .float 2]), ("type", .str "circle")])]

def mixedScene : Scene Float where
  entries := [("A", .segment ⟨0, 0.5⟩ ⟨3, -4⟩), ("B", .circle ⟨1, 2⟩ 5)]
  ascending := List.pairwise_pair.mpr (by decide)

theorem json_round_trip_mixed :
    ofJson? mixed = some mixedScene ∧ ofJson? mixedScene.toJson = some mixedScene := by
  have hread : ofJson? mixed = some mixedScene := by rfl
  exact ⟨hread, (json_round_trip mixedScene).2 mixed hread⟩

end PlanarArea.Scene
