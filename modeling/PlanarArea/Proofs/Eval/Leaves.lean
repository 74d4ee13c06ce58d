import PlanarArea.Eval.Outcome
import PlanarArea.Proofs.Plane.Exact

/-!
# Leaves of an expression

An operator hands on one of its operands as it is or makes a new region. So a value that still is a
shape is a leaf of the tree, just as its shape was converted, and the kind, the slot and the source
of a shape agree wherever it meets `&`. Whether `&` cuts then depends on the number of segments
alone.
-/
namespace PlanarArea

/-- The tree and all trees inside it. -/
def Expr.subtrees : Expr → List Expr
  | name text => [name text]
  | binary op left right => binary op left right :: (left.subtrees ++ right.subtrees)

theorem Expr.names_subset_of_mem_subtrees {e s : Expr} (h : s ∈ e.subtrees) :
    s.names ⊆ e.names := by
  induction e with
  | name text =>
    rw [List.mem_singleton.mp h]
    exact List.Subset.refl _
  | binary op left right hl hr =>
    cases List.mem_cons.mp h with
    | inl h =>
      rw [h]
      exact List.Subset.refl _
    | inr h =>
      cases List.mem_append.mp h with
      | inl h => exact List.subset_append_of_subset_left _ (hl h)
      | inr h => exact List.subset_append_of_subset_right _ (hr h)

variable {α : Type}

namespace Tagged

/-- Kind, slot and source agree: the forms that a converted shape can have. -/
inductive Genuine : Tagged α → Prop
  | circle (name region center radius) :
    Genuine ⟨name, .circle, .resolved region, .circle center radius⟩
  | ellipse (name region center radiusX radiusY rotation) :
    Genuine ⟨name, .ellipse, .resolved region, .ellipse center radiusX radiusY rotation⟩
  | circleArc (name region center radius start stop major) :
    Genuine ⟨name, .circleArc, .resolved region, .circleArc center radius start stop major⟩
  | segment (name start stop) :
    Genuine ⟨name, .segment, .pending start stop, .segment start stop⟩
  | polygon (name region vertices) :
    Genuine ⟨name, .polygon, .resolved region, .polygon vertices⟩

namespace Genuine

variable {t : Tagged α}

theorem kind? (h : t.Genuine) : t.source.kind? = some t.kind := by
  cases h <;> rfl

theorem exists_resolved (h : t.Genuine) (hkind : t.kind ≠ .segment) :
    ∃ r, t.slot = .resolved r := by
  cases h with
  | segment => exact absurd rfl hkind
  | circle => exact ⟨_, rfl⟩
  | ellipse => exact ⟨_, rfl⟩
  | circleArc => exact ⟨_, rfl⟩
  | polygon => exact ⟨_, rfl⟩

/-- Only a segment is left pending, with its own end points. -/
theorem pending_iff (h : t.Genuine) (start stop : Point α) :
    t.slot = .pending start stop ↔ t.source = .segment start stop := by
  cases h <;> simp

end Genuine

/-- What a cut of `shape` along `segment` reads is there: two end points, a region to fall back on,
the center of a circle and the span of an arc. -/
structure Cuttable [Scalar α] (segment shape : Tagged α) : Prop where
  ends : ∃ start stop, segment.slot = .pending start stop
  whole : ∃ region, shape.slot = .resolved region
  circle : shape.kind = .circle → ∃ center radius, shape.source = .circle center radius
  arc : shape.kind = .circleArc → ∃ arc, shape.source.arc? = some arc

variable [Scalar α] {settings : Settings α} {clip : Clipper α}

theorem cuttable_of_genuine {segment shape : Tagged α} (hs : segment.Genuine) (ht : shape.Genuine)
    (hsegment : segment.kind = .segment) (hshape : shape.kind ≠ .segment) :
    Cuttable segment shape where
  ends := by
    cases hs with
    | segment => exact ⟨_, _, rfl⟩
    | _ => cases hsegment
  whole := ht.exists_resolved hshape
  circle hkind := by
    cases ht with
    | circle => exact ⟨_, _, rfl⟩
    | _ => cases hkind
  arc hkind := by
    cases ht with
    | circleArc => exact ⟨_, rfl⟩
    | _ => cases hkind

/-- A cut along a segment is a region or a fault. -/
theorem cutAlong_ne_none {segment shape : Tagged α} (hs : segment.Genuine) (ht : shape.Genuine)
    (hsegment : segment.kind = .segment) (hshape : shape.kind ≠ .segment) :
    cutAlong clip settings segment shape ≠ .ok none := by
  cases hs with
  | segment name start stop =>
    cases ht with
    | segment => exact absurd rfl hshape
    | circle => simp [cutAlong]
    | circleArc => simp [cutAlong]
    | polygon =>
      simp only [cutAlong]
      split <;> simp
    | ellipse =>
      simp only [cutAlong]
      split <;> simp
  | _ => cases hsegment

theorem cut_of_left_segment {left right : Tagged α} (hleft : left.kind = .segment)
    (hright : right.kind ≠ .segment) :
    cut clip settings left right = cutAlong clip settings left right := by
  unfold cut
  rw [hleft]
  cases hkind : right.kind with
  | segment => exact absurd hkind hright
  | _ => rfl

theorem cut_of_right_segment {left right : Tagged α} (hleft : left.kind ≠ .segment)
    (hright : right.kind = .segment) :
    cut clip settings left right = cutAlong clip settings right left := by
  unfold cut
  rw [hright]
  cases hkind : left.kind with
  | segment => exact absurd hkind hleft
  | _ => rfl

/-- Without a segment, or with two, there is nothing to cut. -/
theorem cut_of_same {left right : Tagged α}
    (h : left.kind = .segment ↔ right.kind = .segment) :
    cut clip settings left right = .ok none := by
  unfold cut
  cases hleft : left.kind with
  | segment => rw [h.mp hleft]
  | _ =>
    cases hright : right.kind with
    | segment => cases (h.mpr hright).symm.trans hleft
    | _ => rfl

/-- Of two converted shapes, a cut is made exactly if one of them is a segment and the other one is
not. -/
theorem cut_eq_none_iff {left right : Tagged α} (hl : left.Genuine) (hr : right.Genuine) :
    cut clip settings left right = .ok none ↔
      [left, right].countP (fun t => t.kind = .segment) ≠ 1 := by
  by_cases hleft : left.kind = .segment
  · by_cases hright : right.kind = .segment
    · rw [cut_of_same (iff_of_true hleft hright)]
      simp [hleft, hright]
    · rw [cut_of_left_segment hleft hright]
      simp [cutAlong_ne_none hl hr hleft hright, hleft, hright]
  · by_cases hright : right.kind = .segment
    · rw [cut_of_right_segment hleft hright]
      simp [cutAlong_ne_none hr hl hright hleft, hleft, hright]
    · rw [cut_of_same (iff_of_false hleft hright)]
      simp [hleft, hright]

omit [Scalar α] in
theorem orDefect_map_ok {name : String} {defect : Defect} {found : Option (Region α)}
    {wrap : Region α → Tagged α} {t : Tagged α}
    (h : (orDefect name defect found).map wrap = .ok t) : ∃ r, found = some r ∧ t = wrap r := by
  cases found with
  | none => cases h
  | some r =>
    cases h
    exact ⟨r, rfl, rfl⟩

/-- What a shape becomes keeps the name and the shape, and its kind and slot agree with them. -/
theorem ofShape_ok {name : String} {shape : Shape α} {t : Tagged α}
    (h : ofShape settings name shape = .ok t) : t.Genuine ∧ t.name = name ∧ t.source = shape := by
  cases shape with
  | circle center radius =>
    simp only [ofShape] at h
    split at h
    · obtain ⟨r, -, rfl⟩ := orDefect_map_ok h
      exact ⟨.circle .., rfl, rfl⟩
    · cases h
  | ellipse center rx ry rotation =>
    simp only [ofShape] at h
    split at h
    · obtain ⟨r, -, rfl⟩ := orDefect_map_ok h
      exact ⟨.ellipse .., rfl, rfl⟩
    · cases h
  | circleArc center radius start stop major =>
    simp only [ofShape] at h
    split at h
    · cases h
      exact ⟨.circleArc .., rfl, rfl⟩
    · cases h
  | segment start stop =>
    cases h
    exact ⟨.segment .., rfl, rfl⟩
  | polygon vertices =>
    obtain ⟨r, -, rfl⟩ := orDefect_map_ok h
    exact ⟨.polygon .., rfl, rfl⟩
  | unsupported className => cases h

end Tagged

variable [Scalar α] {settings : Settings α} {clip : Clipper α} {resolver : Resolver α}

/-- The name stands for a shape that is converted to `t`. -/
def Resolver.Adapts (settings : Settings α) (resolver : Resolver α) (name : String)
    (t : Tagged α) : Prop :=
  ∃ shape, resolver name = some shape ∧ Tagged.ofShape settings name shape = .ok t

theorem Resolver.Adapts.genuine {name : String} {t : Tagged α}
    (h : resolver.Adapts settings name t) :
    t.Genuine ∧ t.name = name ∧ resolver name = some t.source := by
  obtain ⟨shape, hshape, ht⟩ := h
  obtain ⟨hgenuine, hname, hsource⟩ := Tagged.ofShape_ok ht
  exact ⟨hgenuine, hname, hsource ▸ hshape⟩

namespace Value

theorem ofExpr_name_eq_ok_iff {name : String} {v : Value α} :
    ofExpr clip settings resolver (.name name) = .ok v ↔
      ∃ t, v = .shape t ∧ resolver.Adapts settings name t := by
  simp only [ofExpr, Resolver.resolve, Resolver.Adapts]
  cases hshape : resolver name with
  | none => simp
  | some shape =>
    cases ht : Tagged.ofShape settings name shape with
    | error e => simp [ht]
    | ok t => simp [ht, eq_comm]

theorem ofExpr_binary_eq_ok_iff {op : Op} {left right : Expr} {v : Value α} :
    ofExpr clip settings resolver (.binary op left right) = .ok v ↔
      ∃ l r, ofExpr clip settings resolver left = .ok l ∧
        ofExpr clip settings resolver right = .ok r ∧ apply clip settings op l r = .ok v := by
  simp only [ofExpr]
  cases ofExpr clip settings resolver left with
  | error e => simp
  | ok l =>
    cases ofExpr clip settings resolver right with
    | error e => simp
    | ok r => simp

theorem exists_derived_of_combine {op : Op} {l r v : Value α}
    (h : combine clip settings op l r = .ok v) : ∃ region, v = .derived region := by
  unfold combine at h
  split at h
  · cases h
  · split at h
    · cases h
    · cases h
      exact ⟨_, rfl⟩

/-- An operator other than `&` hands on an operand or makes a region, and `&` makes a region. -/
theorem apply_ok_cases {op : Op} {l r v : Value α} (h : apply clip settings op l r = .ok v) :
    (∃ region, v = .derived region) ∨ op ≠ .inter ∧ (v = l ∨ v = r) := by
  cases op with
  | inter =>
    apply Or.inl
    simp only [apply] at h
    split at h
    · cases h
    · cases h
      exact ⟨_, rfl⟩
    · exact exists_derived_of_combine h
  | union | xor =>
    simp only [apply] at h
    split at h
    · cases h
      exact .inr ⟨nofun, .inr rfl⟩
    · split at h
      · cases h
        exact .inr ⟨nofun, .inl rfl⟩
      · exact .inl (exists_derived_of_combine h)
  | diff =>
    simp only [apply] at h
    split at h
    · cases h
      exact .inl ⟨_, rfl⟩
    · split at h
      · cases h
        exact .inr ⟨nofun, .inl rfl⟩
      · exact .inl (exists_derived_of_combine h)

/-- A value that still is a shape is one of the leaves. -/
theorem exists_leaf_of_ofExpr {e : Expr} {t : Tagged α}
    (h : ofExpr clip settings resolver e = .ok (.shape t)) :
    ∃ n ∈ e.names, resolver.Adapts settings n t := by
  induction e with
  | name text =>
    obtain ⟨u, hu, hadapts⟩ := ofExpr_name_eq_ok_iff.mp h
    cases hu
    exact ⟨text, List.mem_singleton.mpr rfl, hadapts⟩
  | binary op left right ihl ihr =>
    obtain ⟨l, r, hl, hr, happly⟩ := ofExpr_binary_eq_ok_iff.mp h
    rcases apply_ok_cases happly with ⟨region, hderived⟩ | ⟨-, rfl | rfl⟩
    · cases hderived
    · obtain ⟨n, hn, hadapts⟩ := ihl hl
      exact ⟨n, List.mem_append_left _ hn, hadapts⟩
    · obtain ⟨n, hn, hadapts⟩ := ihr hr
      exact ⟨n, List.mem_append_right _ hn, hadapts⟩

theorem genuine_of_ofExpr {e : Expr} {t : Tagged α}
    (h : ofExpr clip settings resolver e = .ok (.shape t)) : t.Genuine := by
  obtain ⟨n, -, hadapts⟩ := exists_leaf_of_ofExpr h
  exact hadapts.genuine.1

/-- A shape that is the value of a tree is a leaf as it was converted, under the name of the leaf
and with its kind, and pending exactly for a segment; `&` gives no shape. So wherever two shapes
meet at an `&`, no cut is made exactly if the number of segments is not one, and otherwise all that
the cut reads is there. -/
theorem shapes_are_leaves (clip : Clipper α) (settings : Settings α) (resolver : Resolver α)
    (e : Expr) :
    (∀ t, ofExpr clip settings resolver e = .ok (.shape t) →
      (∀ left right, e ≠ .binary .inter left right) ∧
      ∃ n ∈ e.names, ∃ shape, resolver n = some shape ∧
        Tagged.ofShape settings n shape = .ok t ∧ t.name = n ∧ t.source = shape ∧
        shape.kind? = some t.kind ∧
        ∀ start stop, t.slot = .pending start stop ↔ shape = .segment start stop) ∧
    ∀ left right l r, .binary .inter left right ∈ e.subtrees →
      ofExpr clip settings resolver left = .ok (.shape l) →
      ofExpr clip settings resolver right = .ok (.shape r) →
      (Tagged.cut clip settings l r = .ok none ↔
        [l, r].countP (fun t => t.kind = .segment) ≠ 1) ∧
      (l.kind = .segment → r.kind ≠ .segment → Tagged.Cuttable l r) ∧
      (r.kind = .segment → l.kind ≠ .segment → Tagged.Cuttable r l) := by
  constructor
  · intro t ht
    constructor
    · rintro left right rfl
      obtain ⟨l, r, -, -, happly⟩ := ofExpr_binary_eq_ok_iff.mp ht
      rcases apply_ok_cases happly with ⟨region, hderived⟩ | ⟨hop, -⟩
      · cases hderived
      · exact hop rfl
    · obtain ⟨n, hn, shape, hshape, hadapts⟩ := exists_leaf_of_ofExpr ht
      obtain ⟨hgenuine, hname, rfl⟩ := Tagged.ofShape_ok hadapts
      exact ⟨n, hn, _, hshape, hadapts, hname, rfl, hgenuine.kind?, hgenuine.pending_iff⟩
  · intro left right l r _ hl hr
    have hleft := genuine_of_ofExpr hl
    have hright := genuine_of_ofExpr hr
    exact ⟨Tagged.cut_eq_none_iff hleft hright, Tagged.cuttable_of_genuine hleft hright,
      Tagged.cuttable_of_genuine hright hleft⟩

/-- A segment under the name `S`, and a quarter of a circle under every other name. -/
def segmentAndArc : Resolver ℝ := fun n =>
  if n = "S" then some (.segment ⟨0, 0⟩ ⟨1, 0⟩)
  else some (.circleArc ⟨0, 0⟩ 1 ⟨1, 0⟩ ⟨0, 1⟩ false)

/-- In `(S | a) & S` the segment gives way to the arc, which is then cut along it. -/
theorem shapes_are_leaves_arc :
    let clip : Clipper ℝ := ⟨fun _ left _ => left⟩
    let settings : Settings ℝ := Settings.default
    let e := Expr.binary .union (.name "S") (.name "a")
    let segment : Tagged ℝ :=
      ⟨"S", .segment, .pending ⟨0, 0⟩ ⟨1, 0⟩, .segment ⟨0, 0⟩ ⟨1, 0⟩⟩
    let arc : Tagged ℝ := ⟨"a", .circleArc,
      .resolved ((Arc.ofEndpoints ⟨0, 0⟩ 1 ⟨1, 0⟩ ⟨0, 1⟩ false).region settings),
      .circleArc ⟨0, 0⟩ 1 ⟨1, 0⟩ ⟨0, 1⟩ false⟩
    ofExpr clip settings segmentAndArc e = .ok (.shape arc) ∧
      ofExpr clip settings segmentAndArc (.name "S") = .ok (.shape segment) ∧
      (∃ n ∈ e.names, ∃ shape, segmentAndArc n = some shape ∧
        Tagged.ofShape settings n shape = .ok arc ∧ arc.name = n ∧ arc.source = shape ∧
        shape.kind? = some arc.kind ∧
        ∀ start stop, arc.slot = .pending start stop ↔ shape = .segment start stop) ∧
      (Tagged.cut clip settings arc segment = .ok none ↔
        [arc, segment].countP (fun t => t.kind = .segment) ≠ 1) ∧
      Tagged.Cuttable segment arc := by
  intro clip settings e segment arc
  have hsegment : ofExpr clip settings segmentAndArc (.name "S") = .ok (.shape segment) :=
    ofExpr_name_eq_ok_iff.mpr ⟨segment, rfl, _, rfl, rfl⟩
  have hconverted : Tagged.ofShape settings "a" arc.source = .ok arc := by
    simp [Tagged.ofShape, arc, isPositive]
  have harc : ofExpr clip settings segmentAndArc (.name "a") = .ok (.shape arc) :=
    ofExpr_name_eq_ok_iff.mpr ⟨arc, rfl, _, rfl, hconverted⟩
  have hunion : ofExpr clip settings segmentAndArc e = .ok (.shape arc) :=
    ofExpr_binary_eq_ok_iff.mpr ⟨_, _, hsegment, harc, rfl⟩
  obtain ⟨hcut, -, hcuttable⟩ := (shapes_are_leaves clip settings segmentAndArc
    (.binary .inter e (.name "S"))).2 e (.name "S") arc segment List.mem_cons_self hunion hsegment
  exact ⟨hunion, hsegment, ((shapes_are_leaves clip settings segmentAndArc e).1 arc hunion).2, hcut,
    hcuttable rfl nofun⟩

end Value

end PlanarArea
