import PlanarArea.Proofs.Eval.OperandOrder

/-!
# The order of the operands of an intersection

Of its ways, `&` takes the same one whichever operand comes first. A cut is made along the one
segment among the operands, on whatever side it stands, and where no cut is made both operands
become regions. Only the fault may change: of two segments without a half plane it is the one on the
left that is named.
-/
namespace PlanarArea

variable {α : Type} [Scalar α] {clip : Clipper α} {settings : Settings α}

namespace Tagged

variable (clip settings) in
/-- The segment is cut along, not the operand on the left. -/
theorem cut_comm (left right : Tagged α) :
    cut clip settings left right = cut clip settings right left := by
  by_cases hleft : left.kind = .segment
  · by_cases hright : right.kind = .segment
    · rw [cut_of_same (iff_of_true hleft hright), cut_of_same (iff_of_true hright hleft)]
    · rw [cut_of_left_segment hleft hright, cut_of_right_segment hright hleft]
  · by_cases hright : right.kind = .segment
    · rw [cut_of_right_segment hleft hright, cut_of_left_segment hright hleft]
    · rw [cut_of_same (iff_of_false hleft hright), cut_of_same (iff_of_false hright hleft)]

/-- A cut fails only where the segment has no half plane. -/
theorem toRegion_of_cutAlong {segment shape : Tagged α} {err : ShapeError}
    (h : cutAlong clip settings segment shape = .error err) :
    segment.toRegion settings = .error err := by
  unfold cutAlong at h
  split at h
  · split at h
    · cases h
    · cases h
    · split at h
      · cases h
      · rename_i e he
        cases h
        exact he
    · split at h
      · cases h
      · rename_i e he
        cases h
        exact he
    · cases h
  · cases h

theorem toRegion_of_cut {left right : Tagged α} {err : ShapeError}
    (h : cut clip settings left right = .error err) :
    left.toRegion settings = .error err ∨ right.toRegion settings = .error err := by
  unfold cut at h
  split at h
  · cases h
  · exact .inl (toRegion_of_cutAlong h)
  · exact .inr (toRegion_of_cutAlong h)
  · cases h

/-- Nothing but a pending segment fails to have a region, and then it is named. -/
theorem isPending_of_toRegion {t : Tagged α} {err : ShapeError}
    (h : t.toRegion settings = .error err) :
    t.isPending = true ∧ err = .degenerate t.name .coincidentEndpoints := by
  unfold toRegion at h
  split at h
  · cases h
  · rename_i start stop hslot
    split at h
    · cases h
    · cases h
      exact ⟨by simp only [isPending, hslot, Slot.isPending], rfl⟩

end Tagged

namespace Value

variable {l r v : Value α}

variable (clip settings) in
theorem cut_comm (l r : Value α) : cut clip settings l r = cut clip settings r l := by
  cases l with
  | derived a => cases r <;> rfl
  | shape t =>
    cases r with
    | derived b => rfl
    | shape u => exact Tagged.cut_comm clip settings t u

theorem toRegion_of_cut {err : ShapeError} (h : cut clip settings l r = .error err) :
    l.toRegion settings = .error err ∨ r.toRegion settings = .error err := by
  cases l with
  | derived a => cases h
  | shape t =>
    cases r with
    | derived b => cases h
    | shape u => exact Tagged.toRegion_of_cut h

theorem toRegion_of_combine {op : Op} {err : ShapeError}
    (h : combine clip settings op l r = .error err) :
    l.toRegion settings = .error err ∨ r.toRegion settings = .error err := by
  unfold combine at h
  split at h
  · rename_i e he
    cases h
    exact .inl he
  · split at h
    · rename_i e he
      cases h
      exact .inr he
    · cases h

/-- An intersection fails only where an operand has no region. -/
theorem toRegion_of_apply_inter {err : ShapeError}
    (h : apply clip settings .inter l r = .error err) :
    l.toRegion settings = .error err ∨ r.toRegion settings = .error err := by
  simp only [apply] at h
  split at h
  · rename_i e he
    cases h
    exact toRegion_of_cut he
  · cases h
  · exact toRegion_of_combine h

theorem combine_eq_ok_iff {op : Op} : combine clip settings op l r = .ok v ↔
    ∃ a b, l.toRegion settings = .ok a ∧ r.toRegion settings = .ok b ∧
      v = .derived (clip.combine op a b) := by
  unfold combine
  cases l.toRegion settings with
  | error e => simp
  | ok a =>
    cases r.toRegion settings with
    | error e => simp
    | ok b => simp [eq_comm]

/-- What succeeds in one order gives the same value in the other one. -/
theorem apply_inter_of_swapped (hcomm : ∀ a b, clip.combine .inter a b = clip.combine .inter b a)
    (h : apply clip settings .inter l r = .ok v) : apply clip settings .inter r l = .ok v := by
  cases hcut : cut clip settings l r with
  | error e => simp only [apply, hcut, reduceCtorEq] at h
  | ok made =>
    cases made with
    | some region => simpa only [apply, cut_comm clip settings r l, hcut] using h
    | none =>
      rw [apply_inter_of_none hcut] at h
      rw [apply_inter_of_none ((cut_comm clip settings r l).trans hcut)]
      obtain ⟨a, b, hl, hr, rfl⟩ := combine_eq_ok_iff.mp h
      exact combine_eq_ok_iff.mpr ⟨b, a, hr, hl, by rw [hcomm a b]⟩

/-- With a clipper that intersects alike in either order, `&` succeeds on two values in one order
exactly if it does in the other one. Both orders then give the same region. If they fail, the fault
of each order is that a pending segment among the two values has no half plane. -/
theorem apply_inter_swap (hcomm : ∀ a b, clip.combine .inter a b = clip.combine .inter b a)
    (l r : Value α) :
    (∀ v, apply clip settings .inter l r = .ok v ↔ apply clip settings .inter r l = .ok v) ∧
      (∀ v, apply clip settings .inter l r = .ok v → ∃ region, v = .derived region) ∧
      ∀ err, apply clip settings .inter l r = .error err ∨
          apply clip settings .inter r l = .error err →
        ∃ t, (l = .shape t ∨ r = .shape t) ∧ t.isPending = true ∧
          t.toRegion settings = .error err ∧ err = .degenerate t.name .coincidentEndpoints := by
  refine ⟨fun v => ⟨apply_inter_of_swapped hcomm, apply_inter_of_swapped hcomm⟩, ?_, ?_⟩
  · intro v h
    obtain hderived | ⟨hop, -⟩ := apply_ok_cases h
    · exact hderived
    · exact absurd rfl hop
  · intro err h
    have hfails : l.toRegion settings = .error err ∨ r.toRegion settings = .error err :=
      h.elim toRegion_of_apply_inter fun h => (toRegion_of_apply_inter h).symm
    obtain ⟨v, hv, hvalue⟩ : ∃ v : Value α, (l = v ∨ r = v) ∧ v.toRegion settings = .error err :=
      hfails.elim (fun h => ⟨l, .inl rfl, h⟩) fun h => ⟨r, .inr rfl, h⟩
    cases v with
    | derived region => cases hvalue
    | shape t => exact ⟨t, hv, (Tagged.isPending_of_toRegion hvalue).1, hvalue,
        (Tagged.isPending_of_toRegion hvalue).2⟩

/-- Two triangles intersect alike in either order, and so do a segment and a disc, which is cut. Two
segments without length fail in either order, each time under the name of the left one. -/
theorem apply_inter_swap_dots :
    let clip := Clipper.ofPieceSets
    let settings : Settings ℝ := Settings.default
    let triangle := fun x : ℝ => shape ⟨"A", .polygon, .resolved (.ofRing (Outcome.triangleAt x)),
      .polygon (Outcome.triangleAt x)⟩
    let disc := fun whole : Region ℝ => shape ⟨"c", .circle, .resolved whole, .circle ⟨0, 0⟩ 1⟩
    let s := Outcome.axisSegment "S" 0
    let t := Outcome.axisSegment "T" 0
    (∀ a b, clip.combine .inter a b = clip.combine .inter b a) ∧
      (∃ region, apply clip settings .inter (triangle 0) (triangle 3) = .ok (.derived region) ∧
        apply clip settings .inter (triangle 3) (triangle 0) = .ok (.derived region)) ∧
      (∀ whole, ∃ region,
        apply clip settings .inter (Outcome.axisSegment "S" 1) (disc whole) =
          .ok (.derived region) ∧
        apply clip settings .inter (disc whole) (Outcome.axisSegment "S" 1) =
          .ok (.derived region)) ∧
      apply clip settings .inter s t = .error (.degenerate "S" .coincidentEndpoints) ∧
      apply clip settings .inter t s = .error (.degenerate "T" .coincidentEndpoints) ∧
      ∃ u, (s = shape u ∨ t = shape u) ∧ u.isPending = true ∧ u.name = "T" := by
  intro clip settings triangle disc s t
  have hholds : ∀ x y, Op.inter.holds x y = Op.inter.holds y x := by decide
  have hcomm := Clipper.ofPieceSets_comm hholds
  have hswap := @apply_inter_swap ℝ _ clip settings hcomm
  have hfails : ∀ n n', apply clip settings .inter (Outcome.axisSegment n 0)
      (Outcome.axisSegment n' 0) = .error (.degenerate n .coincidentEndpoints) := by
    intro n n'
    have hnone : cut clip settings (Outcome.axisSegment n 0) (Outcome.axisSegment n' 0) =
        .ok none := rfl
    rw [apply_inter_of_none hnone]
    simp only [combine, Outcome.axisSegment, toRegion, Tagged.toRegion, Outcome.ofHalfPlane?_dot]
  refine ⟨hcomm, ⟨_, rfl, ((hswap _ _).1 _).mp rfl⟩,
    fun whole => ⟨_, rfl, ((hswap _ _).1 _).mp rfl⟩, hfails "S" "T", hfails "T" "S", ?_⟩
  obtain ⟨u, hu, hpending, -, hname⟩ := (hswap s t).2.2 _ (.inr (hfails "T" "S"))
  exact ⟨u, hu, hpending, (ShapeError.degenerate.inj hname).1.symm⟩

end Value

end PlanarArea
