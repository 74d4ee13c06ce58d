import PlanarArea.Proofs.Json.RoundTrip

/-!
# Values that are read back from indented text

The indented text of a value holds the same items and members as the text on one line, with a line
feed and spaces before each of them and before the end of their container. Spaces between values are
skipped, so the same values are read back.
-/
namespace PlanarArea.Json

variable {room : Nat} {j : Json}

theorem all_isSpace_indent (depth : Nat) : (indent depth).toList.all isSpace := by
  simp [indent, isSpace]

theorem toList_prettyItems (depth : Nat) (items : List Json) :
    (prettyItems depth items).toList =
      separated (indent depth).toList (items.map fun item => (item.pretty depth).toList) := by
  induction items with
  | nil => rfl
  | cons item items ih =>
    cases items with
    | nil => simp [prettyItems, separated]
    | cons next items =>
      rw [List.map_cons] at ih
      simp [prettyItems, separated, ih]

theorem toList_prettyMembers (depth : Nat) (members : List (String × Json)) :
    (prettyMembers depth members).toList =
      separated (indent depth).toList (members.map fun m =>
        (quoted m.1).toList ++ ':' :: ([' '] ++ (m.2.pretty depth).toList)) := by
  induction members with
  | nil => rfl
  | cons m members ih =>
    cases members with
    | nil => simp [prettyMembers, separated]
    | cons next members =>
      rw [List.map_cons] at ih
      simp [prettyMembers, separated, ih]

/-- The text of a number is the same in both forms. -/
theorem IsNumeral.pretty_eq (h : j.IsNumeral) (depth : Nat) : j.pretty depth = j.compact := by
  obtain ⟨n, -, hvalue⟩ := h
  rw [Numeral.value?] at hvalue
  split at hvalue
  · cases hvalue
    rw [pretty] <;> simp
  · obtain ⟨x, -, rfl⟩ := Option.map_eq_some_iff.mp hvalue
    rw [pretty] <;> simp

/-- A value is read from its indented text. -/
theorem Readable.isRead_pretty (h : Readable room j) (depth : Nat) :
    IsRead room (j.pretty depth) j := by
  induction h generalizing depth with
  | null room => exact (Readable.null room).isRead_compact
  | bool room b => exact (Readable.bool room b).isRead_compact
  | number room h =>
    rw [h.pretty_eq]
    exact h.isRead
  | str room s => exact (Readable.str room s).isRead_compact
  | @arr room items _ ih =>
    intro gap rest hgap _
    cases items with
    | nil =>
      have htext : (pretty depth (.arr [])).toList ++ rest = '[' :: ']' :: rest := by simp [pretty]
      rw [htext]
      exact value?_array (skipSpace_append hgap _) (.inl ⟨rfl, rfl⟩)
    | cons item items =>
      have htext : (pretty depth (.arr (item :: items))).toList ++ rest =
          '[' :: ((prettyItems (depth + 1) (item :: items)).toList ++
            ((indent depth).toList ++ ']' :: rest)) := by
        simp [pretty]
      rw [htext, toList_prettyItems]
      exact value?_array (skipSpace_append hgap _) (.inr (items?_separated (all_isSpace_indent _)
        (all_isSpace_indent _) (List.cons_ne_nil _ _) (fun i hi => ih i hi (depth + 1)) rest))
  | @obj room members _ ih =>
    intro gap rest hgap _
    cases members with
    | nil =>
      have htext : (pretty depth (.obj [])).toList ++ rest = '\x7b' :: '\x7d' :: rest := by
        simp [pretty]
      rw [htext]
      exact value?_object (skipSpace_append hgap _) (.inl ⟨rfl, rfl⟩)
    | cons m members =>
      have htext : (pretty depth (.obj (m :: members))).toList ++ rest =
          '\x7b' :: ((prettyMembers (depth + 1) (m :: members)).toList ++
            ((indent depth).toList ++ '\x7d' :: rest)) := by
        simp [pretty]
      rw [htext, toList_prettyMembers]
      exact value?_object (skipSpace_append hgap _) (.inr (members?_separated (all_isSpace_indent _)
        (all_isSpace_indent _) rfl (List.cons_ne_nil _ _) (fun i hi => ih i hi (depth + 1)) rest))

/-- A value that is written with indents is read back. -/
theorem ofText?_pretty (h : Readable maxDepth j) : ofText? (j.pretty 0) = some j :=
  (h.isRead_pretty 0).ofText?_eq

end PlanarArea.Json
