import PlanarArea.Fault
import PlanarArea.Shape.Basic

/-!
Scenes: named shapes, kept in the order of their names.
-/
namespace PlanarArea

variable {α : Type}

/-- What a name stands for. -/
abbrev Resolver (α : Type) := String → Option (Shape α)

/-- The shape that a name stands for, or the fault that there is none. -/
def Resolver.resolve (r : Resolver α) (name : String) : Except ShapeError (Shape α) :=
  match r name with
  | some shape => .ok shape
  | none => .error (.unknown name)

structure Scene (α : Type) where
  entries : List (String × Shape α)
  ascending : entries.Pairwise (fun a b => a.1 < b.1)

namespace Scene

theorem ext {s t : Scene α} (h : s.entries = t.entries) : s = t := by
  cases s; cases t; cases h; rfl

/-- Puts a shape under a name, in place of the one that had it. -/
def insertEntry (name : String) (shape : Shape α) :
    List (String × Shape α) → List (String × Shape α)
  | [] => [(name, shape)]
  | (n, s) :: rest =>
    if name < n then (name, shape) :: (n, s) :: rest
    else if name = n then (name, shape) :: rest
    else (n, s) :: insertEntry name shape rest

theorem mem_insertEntry {name : String} {shape : Shape α} {e : String × Shape α}
    {entries : List (String × Shape α)} (h : e ∈ insertEntry name shape entries) :
    e = (name, shape) ∨ e ∈ entries := by
  induction entries with
  | nil => simpa [insertEntry] using h
  | cons a rest ih =>
    simp only [insertEntry] at h
    split at h
    · simpa using h
    · split at h
      · simp only [List.mem_cons] at h ⊢
        rcases h with h | h
        · exact .inl h
        · exact .inr (.inr h)
      · simp only [List.mem_cons] at h ⊢
        rcases h with h | h
        · exact .inr (.inl h)
        · rcases ih h with h | h
          · exact .inl h
          · exact .inr (.inr h)

theorem insertEntry_ascending (name : String) (shape : Shape α)
    {entries : List (String × Shape α)} (h : entries.Pairwise (fun a b => a.1 < b.1)) :
    (insertEntry name shape entries).Pairwise (fun a b => a.1 < b.1) := by
  induction entries with
  | nil => simp [insertEntry]
  | cons a rest ih =>
    obtain ⟨ha, hr⟩ := List.pairwise_cons.1 h
    simp only [insertEntry]
    split
    · rename_i hlt
      refine List.pairwise_cons.2 ⟨fun e he => ?_, h⟩
      rcases List.mem_cons.1 he with rfl | he
      · exact hlt
      · exact String.lt_trans hlt (ha e he)
    · split
      · rename_i heq
        subst heq
        exact List.pairwise_cons.2 ⟨ha, hr⟩
      · rename_i hlt hne
        refine List.pairwise_cons.2 ⟨fun e he => ?_, ih hr⟩
        rcases mem_insertEntry he with rfl | he
        · refine Classical.byContradiction fun hc => hne ?_
          exact String.le_antisymm (String.not_lt.1 hc) (String.not_lt.1 hlt)
        · exact ha e he

def empty : Scene α := ⟨[], List.Pairwise.nil⟩

instance : Inhabited (Scene α) := ⟨empty⟩

def insert (s : Scene α) (name : String) (shape : Shape α) : Scene α :=
  ⟨insertEntry name shape s.entries, insertEntry_ascending name shape s.ascending⟩

/-- The scene of the listed shapes; of several with one name the last stays. -/
def ofList (entries : List (String × Shape α)) : Scene α :=
  entries.foldl (fun s e => s.insert e.1 e.2) empty

def get? (s : Scene α) (name : String) : Option (Shape α) :=
  s.entries.lookup name

def size (s : Scene α) : Nat :=
  s.entries.length

def isEmpty (s : Scene α) : Bool :=
  s.entries.isEmpty

def resolver (s : Scene α) : Resolver α :=
  s.get?

theorem lookup_cons_if {β : Type} (n k : String) (v : β) (es : List (String × β)) :
    ((k, v) :: es).lookup n = if n = k then some v else es.lookup n := by
  by_cases h : n = k
  · subst h
    simp
  · rw [List.lookup_cons, beq_false_of_ne h]
    simp [h]

theorem lookup_insertEntry (name : String) (shape : Shape α) (entries : List (String × Shape α))
    (n : String) :
    (insertEntry name shape entries).lookup n =
      if n = name then some shape else entries.lookup n := by
  induction entries with
  | nil => simp [insertEntry, lookup_cons_if]
  | cons a rest ih =>
    obtain ⟨k, v⟩ := a
    simp only [insertEntry]
    split
    · simp [lookup_cons_if]
    · split
      · rename_i heq
        subst heq
        simp only [lookup_cons_if]
        split <;> rfl
      · rename_i hne
        simp only [lookup_cons_if, ih]
        by_cases h : n = k
        · simp [h, Ne.symm hne]
        · simp [h]

/-- After an insertion the name has its new shape and every other name what it had. -/
theorem get?_insert (s : Scene α) (name : String) (shape : Shape α) (n : String) :
    (s.insert name shape).get? n = if n = name then some shape else s.get? n :=
  lookup_insertEntry name shape s.entries n

end Scene

end PlanarArea
