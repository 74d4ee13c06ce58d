import PlanarArea.Proofs.Eval.Leaves

/-!
# The half planes that operators take

A segment that can neither cut the other operand nor give way to it becomes the half plane on its
left. This is all in which an operator can fail: its fault is that of the first segment that has no
half plane.
-/
namespace PlanarArea

/-- The fault of a result that has one. -/
def faultOf {ε β : Type} : Except ε β → Option ε
  | .error e => some e
  | .ok _ => none

section FaultOf

variable {ε β : Type} {x : Except ε β}

@[simp] theorem faultOf_error (e : ε) : faultOf (.error e : Except ε β) = some e := rfl

@[simp] theorem faultOf_ok (b : β) : faultOf (.ok b : Except ε β) = none := rfl

theorem faultOf_eq_some_iff {e : ε} : faultOf x = some e ↔ x = .error e := by
  cases x with
  | error e' => simp
  | ok b => simp

theorem faultOf_eq_none_iff : faultOf x = none ↔ ∃ b, x = .ok b := by
  cases x with
  | error e => simp
  | ok b => simp

end FaultOf

variable {α : Type}

/-- A step of an evaluation that can fail. -/
inductive Step (α : Type) where
  /-- The name is resolved and its shape is converted. -/
  | leaf (name : String)
  /-- The segment becomes the half plane on its left. -/
  | halfPlane (name : String) (start stop : Point α)

namespace Value

/-- The half plane that a value stands for, if it is a pending segment. -/
def halfPlane : Value α → List (Step α)
  | shape t => match t.slot with
    | .pending start stop => [.halfPlane t.name start stop]
    | .resolved _ => []
  | derived _ => []

/-- Whether the value is a shape that the line of a segment cuts without a half plane. -/
def isRound : Value α → Bool
  | shape t => t.kind = .circle || t.kind = .circleArc
  | derived _ => false

/-- A value that is a shape is a converted one. -/
def Genuine (v : Value α) : Prop :=
  ∀ t, v = .shape t → t.Genuine

theorem halfPlane_of_kind {t : Tagged α} (ht : t.Genuine) (hkind : t.kind ≠ .segment) :
    (shape t).halfPlane = [] := by
  obtain ⟨r, hr⟩ := ht.exists_resolved hkind
  simp only [halfPlane, hr]

theorem halfPlane_of_not_isPending {v : Value α} (h : v.isPending = false) : v.halfPlane = [] := by
  cases v with
  | derived region => rfl
  | shape t =>
    simp only [isPending, Tagged.isPending] at h
    simp only [halfPlane]
    cases hslot : t.slot with
    | resolved region => rfl
    | pending start stop =>
      rw [hslot] at h
      cases h

theorem isRound_of_segment {t : Tagged α} (hkind : t.kind = .segment) :
    (shape t).isRound = false := by
  simp [isRound, hkind]

/-- A circle or an arc is no segment. -/
theorem halfPlane_of_isRound {v : Value α} (hv : v.Genuine) (h : v.isRound = true) :
    v.halfPlane = [] := by
  cases v with
  | derived region => rfl
  | shape t =>
    apply halfPlane_of_kind (hv t rfl)
    intro hkind
    rw [isRound_of_segment hkind] at h
    cases h

end Value

variable [Scalar α]

/-- How a step fails, if it does. -/
def Step.fault? (settings : Settings α) (resolver : Resolver α) : Step α → Option ShapeError
  | leaf name =>
    match resolver name with
    | none => some (.unknown name)
    | some shape => faultOf (Tagged.ofShape settings name shape)
  | halfPlane name start stop =>
    if (Region.ofHalfPlane? start stop settings.halfPlaneExtent).isSome then none
    else some (.degenerate name .coincidentEndpoints)

namespace Value

/-- The half planes that an operator takes of its operands: none next to a circle or an arc, which
is cut along the line of the segment, and none where an operand gives way. -/
def halfPlanes (op : Op) (left right : Value α) : List (Step α) :=
  match op with
  | .inter => if left.isRound || right.isRound then [] else left.halfPlane ++ right.halfPlane
  | .diff => if left.isEmpty || right.isEmpty then [] else left.halfPlane ++ right.halfPlane
  | .union | .xor => []

variable {clip : Clipper α} {settings : Settings α} {resolver : Resolver α}

theorem faultOf_toRegion (v : Value α) :
    faultOf (v.toRegion settings) = v.halfPlane.findSome? (Step.fault? settings resolver) := by
  cases v with
  | derived region => rfl
  | shape t =>
    simp only [toRegion, Tagged.toRegion, halfPlane]
    cases t.slot with
    | resolved region => rfl
    | pending start stop =>
      simp only [List.findSome?_singleton, Step.fault?]
      cases Region.ofHalfPlane? start stop settings.halfPlaneExtent with
      | none => rfl
      | some region => rfl

variable (resolver) in
theorem faultOf_combine (op : Op) (l r : Value α) :
    faultOf (combine clip settings op l r) =
      (l.halfPlane ++ r.halfPlane).findSome? (Step.fault? settings resolver) := by
  rw [List.findSome?_append, ← faultOf_toRegion, ← faultOf_toRegion, combine]
  cases l.toRegion settings with
  | error e => rfl
  | ok a =>
    cases r.toRegion settings with
    | error e => rfl
    | ok b => rfl

/-- A circle or an arc is cut without a fault, another shape by the half plane of the segment. -/
theorem faultOf_cutAlong {t u : Tagged α} (ht : t.Genuine) (hu : u.Genuine)
    (htkind : t.kind = .segment) (hukind : u.kind ≠ .segment) :
    faultOf (Tagged.cutAlong clip settings t u) =
      if (shape u).isRound then none
      else (shape t).halfPlane.findSome? (Step.fault? settings resolver) := by
  cases ht with
  | segment name start stop =>
    rw [← faultOf_toRegion, toRegion]
    cases hu with
    | segment => exact absurd rfl hukind
    | circle => rfl
    | circleArc => rfl
    | polygon =>
      simp only [Tagged.cutAlong, isRound]
      cases Tagged.toRegion settings _ with
      | error e => rfl
      | ok half => rfl
    | ellipse =>
      simp only [Tagged.cutAlong, isRound]
      cases Tagged.toRegion settings _ with
      | error e => rfl
      | ok half => rfl
  | _ => cases htkind

theorem apply_inter_of_none {l r : Value α} (h : cut clip settings l r = .ok none) :
    apply clip settings .inter l r = combine clip settings .inter l r := by
  simp only [apply, h]

theorem faultOf_apply_inter_of_cut {l r : Value α} (h : cut clip settings l r ≠ .ok none) :
    faultOf (apply clip settings .inter l r) = faultOf (cut clip settings l r) := by
  simp only [apply]
  split
  · rename_i hcut
    rw [hcut]
    rfl
  · rename_i hcut
    rw [hcut]
    rfl
  · rename_i hcut
    exact absurd hcut h

theorem faultOf_apply_inter {l r : Value α} (hl : l.Genuine) (hr : r.Genuine) :
    faultOf (apply clip settings .inter l r) =
      (halfPlanes .inter l r).findSome? (Step.fault? settings resolver) := by
  -- Where no cut is made, a round operand has no half plane beside it.
  have hcombine : cut clip settings l r = .ok none →
      (l.isRound = true ∨ r.isRound = true → l.halfPlane ++ r.halfPlane = []) →
      faultOf (apply clip settings .inter l r) =
        (halfPlanes .inter l r).findSome? (Step.fault? settings resolver) := by
    intro hcut hround
    rw [apply_inter_of_none hcut, faultOf_combine resolver]
    simp only [halfPlanes, Bool.or_eq_true]
    split
    · rename_i h
      rw [hround h]
    · rfl
  cases l with
  | derived a =>
    apply hcombine rfl
    rintro (h | h)
    · cases h
    · rw [halfPlane_of_isRound hr h]
      rfl
  | shape t =>
    cases r with
    | derived b =>
      apply hcombine rfl
      rintro (h | h)
      · rw [halfPlane_of_isRound hl h]
        rfl
      · cases h
    | shape u =>
      have ht := hl t rfl
      have hu := hr u rfl
      by_cases htkind : t.kind = .segment
      · by_cases hukind : u.kind = .segment
        · apply hcombine (Tagged.cut_of_same (iff_of_true htkind hukind))
          rw [isRound_of_segment htkind, isRound_of_segment hukind]
          rintro (h | h) <;> cases h
        · have hcut : cut clip settings (shape t) (shape u) = Tagged.cutAlong clip settings t u :=
            Tagged.cut_of_left_segment htkind hukind
          rw [faultOf_apply_inter_of_cut, hcut, faultOf_cutAlong ht hu htkind hukind]
          · simp only [halfPlanes, isRound_of_segment htkind, halfPlane_of_kind hu hukind,
              Bool.false_or, List.append_nil]
            split <;> rfl
          · rw [hcut]
            exact Tagged.cutAlong_ne_none ht hu htkind hukind
      · by_cases hukind : u.kind = .segment
        · have hcut : cut clip settings (shape t) (shape u) = Tagged.cutAlong clip settings u t :=
            Tagged.cut_of_right_segment htkind hukind
          rw [faultOf_apply_inter_of_cut, hcut, faultOf_cutAlong hu ht hukind htkind]
          · simp only [halfPlanes, isRound_of_segment hukind, halfPlane_of_kind ht htkind,
              Bool.or_false, List.nil_append]
            split <;> rfl
          · rw [hcut]
            exact Tagged.cutAlong_ne_none hu ht hukind htkind
        · apply hcombine (Tagged.cut_of_same (iff_of_false htkind hukind))
          rw [halfPlane_of_kind ht htkind, halfPlane_of_kind hu hukind]
          exact fun _ => rfl

/-- An operator fails as the first half plane fails that it takes. -/
theorem faultOf_apply {op : Op} {l r : Value α} (hl : l.Genuine) (hr : r.Genuine) :
    faultOf (apply clip settings op l r) =
      (halfPlanes op l r).findSome? (Step.fault? settings resolver) := by
  cases op with
  | inter => exact faultOf_apply_inter hl hr
  | union | xor =>
    simp only [apply, Bool.or_eq_true]
    split
    · rfl
    · rename_i hleft
      split
      · rfl
      · rename_i hright
        rw [faultOf_combine resolver,
          halfPlane_of_not_isPending (Bool.eq_false_iff.mpr fun h => hleft (.inl h)),
          halfPlane_of_not_isPending (Bool.eq_false_iff.mpr fun h => hright (.inl h))]
        rfl
  | diff =>
    simp only [apply, halfPlanes, Bool.or_eq_true]
    split
    · rename_i hleft
      rw [if_pos (.inl hleft)]
      rfl
    · rename_i hleft
      split
      · rename_i hright
        rw [if_pos (.inr hright)]
        rfl
      · rename_i hright
        rw [if_neg (not_or.mpr ⟨hleft, hright⟩), faultOf_combine resolver]

end Value

end PlanarArea
