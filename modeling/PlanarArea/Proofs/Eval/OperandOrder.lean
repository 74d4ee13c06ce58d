import PlanarArea.Proofs.Eval.Faults
import PlanarArea.Proofs.Eval.SetAlgebra
import PlanarArea.Proofs.Region.HalfPlane

/-!
# The order of operands

For `|` and `^` an operand that is pending or empty gives way to the other one. If at most one of
two operands gives way, or if both are empty, their order does not matter to the area. But of two
operands that both give way it is the left one that does, also where it is a segment that the right
one could have given way to; then the order decides which of the two is kept.
-/
namespace PlanarArea

variable {α : Type} [Scalar α]

namespace Value

variable {clip : Clipper α} {settings : Settings α} {resolver : Resolver α}

/-- Whether `|` and `^` leave the value out. -/
def givesWay (v : Value α) : Bool :=
  v.isPending || v.isEmpty

variable {op : Op} {l r : Value α}

theorem apply_of_left_givesWay (hop : op = .union ∨ op = .xor) (hl : l.givesWay = true) :
    apply clip settings op l r = .ok r := by
  rcases hop with rfl | rfl
  · exact if_pos hl
  · exact if_pos hl

theorem apply_of_right_givesWay (hop : op = .union ∨ op = .xor) (hl : l.givesWay = false)
    (hr : r.givesWay = true) : apply clip settings op l r = .ok l := by
  have hl' : ¬ (l.isPending || l.isEmpty) = true := Bool.eq_false_iff.mp hl
  rcases hop with rfl | rfl
  · exact (if_neg hl').trans (if_pos hr)
  · exact (if_neg hl').trans (if_pos hr)

theorem apply_of_neither_givesWay (hop : op = .union ∨ op = .xor) (hl : l.givesWay = false)
    (hr : r.givesWay = false) :
    apply clip settings op l r = combine clip settings op l r := by
  have hl' : ¬ (l.isPending || l.isEmpty) = true := Bool.eq_false_iff.mp hl
  have hr' : ¬ (r.isPending || r.isEmpty) = true := Bool.eq_false_iff.mp hr
  rcases hop with rfl | rfl
  · exact (if_neg hl').trans (if_neg hr')
  · exact (if_neg hl').trans (if_neg hr')

/-- With a commutative clipper, values with regions are combined alike in either order. -/
theorem combine_swap (hcomm : ∀ a b, clip.combine op a b = clip.combine op b a) {a b : Region α}
    (hl : l.toRegion settings = .ok a) (hr : r.toRegion settings = .ok b) :
    combine clip settings op l r = combine clip settings op r l := by
  simp only [combine, hl, hr, hcomm a b]

/-- Unless both operands give way their order does not matter at all. -/
theorem apply_swap (hop : op = .union ∨ op = .xor)
    (hcomm : ∀ a b, clip.combine op a b = clip.combine op b a) {a b : Region α}
    (hl : l.toRegion settings = .ok a) (hr : r.toRegion settings = .ok b)
    (h : ¬ (l.givesWay = true ∧ r.givesWay = true)) :
    apply clip settings op l r = apply clip settings op r l := by
  cases hleft : l.givesWay with
  | true =>
    have hright : r.givesWay = false := Bool.eq_false_iff.mpr fun hright => h ⟨hleft, hright⟩
    rw [apply_of_left_givesWay hop hleft, apply_of_right_givesWay hop hright hleft]
  | false =>
    cases hright : r.givesWay with
    | true => rw [apply_of_right_givesWay hop hleft hright, apply_of_left_givesWay hop hright]
    | false =>
      rw [apply_of_neither_givesWay hop hleft hright, apply_of_neither_givesWay hop hright hleft,
        combine_swap hcomm hl hr]

/-- Both values give way, and one of them is a segment. -/
def Clash (l r : Value α) : Prop :=
  (l.givesWay = true ∧ r.givesWay = true) ∧ (l.isPending = true ∨ r.isPending = true)

theorem ofExpr_binary {left right : Expr} (hl : ofExpr clip settings resolver left = .ok l)
    (hr : ofExpr clip settings resolver right = .ok r) :
    ofExpr clip settings resolver (.binary op left right) = apply clip settings op l r := by
  simp only [ofExpr, hl, hr]

variable (settings) in
/-- An empty value has an empty region. -/
theorem exists_empty_of_isEmpty {v : Value α} (h : v.isEmpty = true) :
    ∃ region, v.toRegion settings = .ok region ∧ region.isEmpty = true := by
  cases v with
  | derived region => exact ⟨region, rfl, h⟩
  | shape t =>
    simp only [isEmpty] at h
    split at h
    · rename_i region hslot
      exact ⟨region, by simp only [toRegion, Tagged.toRegion, hslot], h⟩
    · cases h

end Value

namespace Outcome

variable {clip : Clipper α} {settings : Settings α} {resolver : Resolver α}
variable {op : Op} {left right e e' : Expr} {l r v : Value α}

/-- The outcome of a tree depends on its value only. -/
theorem ofExpr_congr
    (h : Value.ofExpr clip settings resolver e = Value.ofExpr clip settings resolver e') :
    ofExpr clip settings resolver e = ofExpr clip settings resolver e' := by
  simp only [ofExpr, regionOfExpr, h]

theorem ofExpr_binary_of_givesWay (hop : op = .union ∨ op = .xor)
    (hl : Value.ofExpr clip settings resolver left = .ok l)
    (hr : Value.ofExpr clip settings resolver right = .ok r) (hgives : l.givesWay = true) :
    ofExpr clip settings resolver (.binary op left right) =
      ofExpr clip settings resolver right := by
  apply ofExpr_congr
  rw [Value.ofExpr_binary hl hr, Value.apply_of_left_givesWay hop hgives, hr]

theorem area_ofExpr_of_isEmpty (hv : Value.ofExpr clip settings resolver e = .ok v)
    (hempty : v.isEmpty = true) : (ofExpr clip settings resolver e).area = 0 := by
  obtain ⟨region, hregion, hnone⟩ := Value.exists_empty_of_isEmpty settings hempty
  rw [ofExpr_of_ok (regionOfExpr_eq_ok_iff.mpr ⟨v, hv, hregion⟩)]
  simp [ofRegions, hnone, Region.merge?]

/-- For `|` and `^` every outcome is one of the operands or combines both. -/
theorem isOk_ofExpr_binary (hop : op = .union ∨ op = .xor)
    (hleft : (ofExpr clip settings resolver left).isOk = true)
    (hright : (ofExpr clip settings resolver right).isOk = true) :
    (ofExpr clip settings resolver (.binary op left right)).isOk = true := by
  obtain ⟨a, ha⟩ := isOk_ofExpr_iff.mp hleft
  obtain ⟨b, hb⟩ := isOk_ofExpr_iff.mp hright
  obtain ⟨l, hl, hla⟩ := regionOfExpr_eq_ok_iff.mp ha
  obtain ⟨r, hr, hrb⟩ := regionOfExpr_eq_ok_iff.mp hb
  rw [isOk_ofExpr_iff]
  simp only [regionOfExpr_eq_ok_iff, Value.ofExpr_binary hl hr]
  cases hl' : l.givesWay with
  | true => exact ⟨b, r, Value.apply_of_left_givesWay hop hl', hrb⟩
  | false =>
    cases hr' : r.givesWay with
    | true => exact ⟨a, l, Value.apply_of_right_givesWay hop hl' hr', hla⟩
    | false =>
      refine ⟨clip.combine op a b, .derived (clip.combine op a b), ?_, rfl⟩
      rw [Value.apply_of_neither_givesWay hop hl' hr']
      simp only [Value.combine, hla, hrb]

end Outcome

/-- The clipper of regions whose pieces are equal or disjoint, with the pieces in an order of their
own. -/
noncomputable def Clipper.ofPieceSets : Clipper ℝ where
  combine op r s := ⟨((r.polygons.toFinset ∪ s.polygons.toFinset).filter fun p =>
    op.holds (p ∈ r.polygons) (p ∈ s.polygons)).toList⟩

/-- It does not tell its operands apart where the operator does not. -/
theorem Clipper.ofPieceSets_comm {op : Op} (hholds : ∀ x y, op.holds x y = op.holds y x)
    (a b : Region ℝ) : ofPieceSets.combine op a b = ofPieceSets.combine op b a := by
  simp only [ofPieceSets]
  congr 2
  rw [Finset.union_comm]
  apply Finset.filter_congr
  intro p _
  rw [hholds]

theorem Clipper.ofPieceSets_swap {op : Op} (hop : op = .union ∨ op = .xor) (a b : Region ℝ) :
    ofPieceSets.combine op a b = ofPieceSets.combine op b a := by
  refine ofPieceSets_comm ?_ a b
  rcases hop with rfl | rfl <;> decide

namespace Outcome

/-- Two segments of lengths one and two on the horizontal axis, and triangles. -/
noncomputable def segmentsAndTriangles : Resolver ℝ := fun n =>
  if n = "S" then some (.segment ⟨0, 0⟩ ⟨1, 0⟩)
  else if n = "T" then some (.segment ⟨0, 0⟩ ⟨2, 0⟩)
  else triangles n

/-- A segment on the horizontal axis as a value of its own. -/
def axisSegment (name : String) (w : ℝ) : Value ℝ :=
  .shape ⟨name, .segment, .pending ⟨0, 0⟩ ⟨w, 0⟩, .segment ⟨0, 0⟩ ⟨w, 0⟩⟩

theorem ofExpr_axisSegment (clip : Clipper ℝ) {resolver : Resolver ℝ} {name : String} {w : ℝ}
    (hw : 1 ≤ w) (hname : resolver name = some (.segment ⟨0, 0⟩ ⟨w, 0⟩)) :
    Value.ofExpr clip Settings.default resolver (.name name) = .ok (axisSegment name w) ∧
      (ofExpr clip Settings.default resolver (.name name)).isOk = true ∧
      (ofExpr clip Settings.default resolver (.name name)).area = (w + 20000) * 10000 := by
  have hvalue : Value.ofExpr clip Settings.default resolver (.name name) =
      .ok (axisSegment name w) :=
    Value.ofExpr_name_eq_ok_iff.mpr ⟨_, rfl, _, hname, rfl⟩
  have hextent : (Settings.default : Settings ℝ).halfPlaneExtent = 10000 := by
    simp only [Settings.default, Scalar.real_decimal]
    norm_num
  have hnorm : ((⟨w, 0⟩ : Point ℝ) - ⟨0, 0⟩).norm = w := by
    simp [Point.norm, Real.sqrt_mul_self (by linarith : (0 : ℝ) ≤ w)]
  have hlen : 1e-10 ≤ ((⟨w, 0⟩ : Point ℝ) - ⟨0, 0⟩).norm := by
    rw [hnorm]
    linarith
  have hhalf := Region.ofHalfPlane?_eq hlen (by norm_num : (1e-10 : ℝ) ≤ 10000)
  have harea := Region.area_halfPlane hlen (by norm_num) hhalf
  have hregion := regionOfExpr_eq_ok_iff.mpr ⟨_, hvalue, (by
    simp only [axisSegment, Value.toRegion, Tagged.toRegion, hextent, hhalf]
    rfl)⟩
  refine ⟨hvalue, isOk_ofExpr_iff.mpr ⟨_, hregion⟩, ?_⟩
  rw [ofExpr_of_ok hregion, area_ofRegions, harea, hnorm]
  ring

section Swap

variable {clip : Clipper α} {settings : Settings α} {resolver : Resolver α}
variable {op : Op} {left right : Expr}

/-- Let the clipper be commutative in an operator that is `|` or `^`, and let two trees have areas.
Then they have one together, in either order, and the same one in both, unless both give way and one
of them is a segment. In that case each order has the outcome of its right operand. -/
theorem area_swap (hop : op = .union ∨ op = .xor)
    (hcomm : ∀ a b, clip.combine op a b = clip.combine op b a)
    (hleft : (ofExpr clip settings resolver left).isOk = true)
    (hright : (ofExpr clip settings resolver right).isOk = true) :
    ∃ l r, Value.ofExpr clip settings resolver left = .ok l ∧
      Value.ofExpr clip settings resolver right = .ok r ∧
      (ofExpr clip settings resolver (.binary op left right)).isOk = true ∧
      (ofExpr clip settings resolver (.binary op right left)).isOk = true ∧
      (¬ Value.Clash l r → (ofExpr clip settings resolver (.binary op left right)).area =
        (ofExpr clip settings resolver (.binary op right left)).area) ∧
      (Value.Clash l r →
        ofExpr clip settings resolver (.binary op left right) =
          ofExpr clip settings resolver right ∧
        ofExpr clip settings resolver (.binary op right left) =
          ofExpr clip settings resolver left) := by
  obtain ⟨a, ha⟩ := isOk_ofExpr_iff.mp hleft
  obtain ⟨b, hb⟩ := isOk_ofExpr_iff.mp hright
  obtain ⟨l, hl, hla⟩ := regionOfExpr_eq_ok_iff.mp ha
  obtain ⟨r, hr, hrb⟩ := regionOfExpr_eq_ok_iff.mp hb
  refine ⟨l, r, hl, hr, isOk_ofExpr_binary hop hleft hright, isOk_ofExpr_binary hop hright hleft,
    ?_, ?_⟩
  · intro hclash
    by_cases hboth : l.givesWay = true ∧ r.givesWay = true
    · -- Neither of the two is pending, so both are empty.
      have hempty : ∀ {v : Value α}, v.givesWay = true → ¬ v.isPending = true →
          v.isEmpty = true := fun hgives hpending =>
        ((Bool.or_eq_true _ _).mp hgives).resolve_left hpending
      have hlpending : ¬ l.isPending = true := fun h => hclash ⟨hboth, .inl h⟩
      have hrpending : ¬ r.isPending = true := fun h => hclash ⟨hboth, .inr h⟩
      rw [ofExpr_binary_of_givesWay hop hl hr hboth.1,
        ofExpr_binary_of_givesWay hop hr hl hboth.2,
        area_ofExpr_of_isEmpty hl (hempty hboth.1 hlpending),
        area_ofExpr_of_isEmpty hr (hempty hboth.2 hrpending)]
    · congr 1
      apply ofExpr_congr
      rw [Value.ofExpr_binary hl hr, Value.ofExpr_binary hr hl,
        Value.apply_swap hop hcomm hla hrb hboth]
  · rintro ⟨⟨hlgives, hrgives⟩, -⟩
    exact ⟨ofExpr_binary_of_givesWay hop hl hr hlgives,
      ofExpr_binary_of_givesWay hop hr hl hrgives⟩

end Swap

theorem exists_stands_triangle (clip : Clipper ℝ) {n : String} (hs : n ≠ "S") (ht : n ≠ "T") :
    ∃ v region, Value.ofExpr clip Settings.default segmentsAndTriangles (.name n) = .ok v ∧
      Value.Stands v region := by
  have hname : segmentsAndTriangles n = triangles n := by
    simp only [segmentsAndTriangles, if_neg hs, if_neg ht]
  have hdraws : segmentsAndTriangles.Draws Settings.default n :=
    ⟨_, _, hname, by simp [Shape.kind?], ofShape_triangleAt Settings.default n _⟩
  obtain ⟨v, hv, hstands⟩ := Value.ofExpr_name_stands clip hdraws
  exact ⟨v, _, hv, hstands⟩

/-- The order of two triangles apart does not matter to `^`, and that of two segments decides on
`|`. -/
theorem area_swap_apart :
    let clip := Clipper.ofPieceSets
    let settings : Settings ℝ := Settings.default
    let a := Expr.name "A"
    let b := Expr.name "B"
    let s := Expr.name "S"
    let t := Expr.name "T"
    (∀ r r', clip.combine .xor r r' = clip.combine .xor r' r) ∧
      (ofExpr clip settings segmentsAndTriangles a).isOk = true ∧
      (ofExpr clip settings segmentsAndTriangles b).isOk = true ∧
      (ofExpr clip settings segmentsAndTriangles (.binary .xor a b)).area =
        (ofExpr clip settings segmentsAndTriangles (.binary .xor b a)).area ∧
      ofExpr clip settings segmentsAndTriangles (.binary .union s t) =
        ofExpr clip settings segmentsAndTriangles t ∧
      ofExpr clip settings segmentsAndTriangles (.binary .union t s) =
        ofExpr clip settings segmentsAndTriangles s := by
  intro clip settings a b s t
  obtain ⟨v, x, hv, hvx⟩ := exists_stands_triangle clip (n := "A") (by decide) (by decide)
  obtain ⟨w, y, hw, hwy⟩ := exists_stands_triangle clip (n := "B") (by decide) (by decide)
  have hswap := Clipper.ofPieceSets_swap (.inr rfl)
  have haok := isOk_ofExpr_iff.mpr ⟨x, regionOfExpr_eq_ok_iff.mpr ⟨v, hv, hvx.toRegion⟩⟩
  have hbok := isOk_ofExpr_iff.mpr ⟨y, regionOfExpr_eq_ok_iff.mpr ⟨w, hw, hwy.toRegion⟩⟩
  obtain ⟨hs, hsok, -⟩ := ofExpr_axisSegment clip (le_refl 1)
    (rfl : segmentsAndTriangles "S" = some (.segment ⟨0, 0⟩ ⟨1, 0⟩))
  obtain ⟨ht, htok, -⟩ := ofExpr_axisSegment clip one_le_two
    (rfl : segmentsAndTriangles "T" = some (.segment ⟨0, 0⟩ ⟨2, 0⟩))
  obtain ⟨l, r, hl, hr, -, -, hsame, -⟩ := area_swap (.inr rfl) hswap haok hbok
  obtain ⟨l', r', hl', hr', -, -, -, hclash⟩ :=
    area_swap (.inl rfl) (Clipper.ofPieceSets_swap (.inl rfl)) hsok htok
  refine ⟨hswap, haok, hbok, hsame ?_, hclash ?_⟩
  · rintro ⟨-, hpending⟩
    cases hl.symm.trans hv
    cases hr.symm.trans hw
    rw [hvx.isPending, hwy.isPending] at hpending
    simp at hpending
  · cases hl'.symm.trans hs
    cases hr'.symm.trans ht
    exact ⟨⟨rfl, rfl⟩, .inl rfl⟩

/-- Of two lone segments the right one is kept, so that the order of `|` decides on the area. -/
theorem area_swap_fails_on_segments :
    let clip := Clipper.ofPieceSets
    let settings : Settings ℝ := Settings.default
    let s := Expr.name "S"
    let t := Expr.name "T"
    (∀ a b, clip.combine .union a b = clip.combine .union b a) ∧
      (ofExpr clip settings segmentsAndTriangles s).isOk = true ∧
      (ofExpr clip settings segmentsAndTriangles t).isOk = true ∧
      (ofExpr clip settings segmentsAndTriangles (.binary .union s t)).area = 200020000 ∧
      (ofExpr clip settings segmentsAndTriangles (.binary .union t s)).area = 200010000 ∧
      (ofExpr clip settings segmentsAndTriangles (.binary .union s t)).area ≠
        (ofExpr clip settings segmentsAndTriangles (.binary .union t s)).area := by
  intro clip settings s t
  obtain ⟨hs, hsok, hsarea⟩ := ofExpr_axisSegment clip (le_refl 1)
    (rfl : segmentsAndTriangles "S" = some (.segment ⟨0, 0⟩ ⟨1, 0⟩))
  obtain ⟨ht, htok, htarea⟩ := ofExpr_axisSegment clip one_le_two
    (rfl : segmentsAndTriangles "T" = some (.segment ⟨0, 0⟩ ⟨2, 0⟩))
  have hst : (ofExpr clip settings segmentsAndTriangles (.binary .union s t)).area =
      200020000 := by
    rw [ofExpr_binary_of_givesWay (.inl rfl) hs ht rfl, htarea]
    norm_num
  have hts : (ofExpr clip settings segmentsAndTriangles (.binary .union t s)).area =
      200010000 := by
    rw [ofExpr_binary_of_givesWay (.inl rfl) ht hs rfl, hsarea]
    norm_num
  refine ⟨Clipper.ofPieceSets_swap (.inl rfl), hsok, htok, hst, hts, ?_⟩
  rw [hst, hts]
  norm_num

end Outcome

end PlanarArea
