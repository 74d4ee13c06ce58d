import Mathlib.Order.SymmDiff
import PlanarArea.Proofs.Eval.Leaves
import PlanarArea.Proofs.Region.Corners

/-!
# Expressions as set algebra

Regions denote elements of a Boolean algebra, such as the measurable sets up to null sets, so that
the clipper acts as the four set operations and a region is empty exactly if it denotes the least
element. Then an expression without segments denotes the Boolean combination that it is written as.
The values of an evaluation are decided all the way up, so no cut is made, and each shortcut returns
what the set operation would have returned.
-/
namespace PlanarArea

section Denotation

variable {B : Type*} [BooleanAlgebra B]

/-- The operation of a Boolean algebra that an operator stands for. -/
def Op.act : Op → B → B → B
  | inter, a, b => a ⊓ b
  | union, a, b => a ⊔ b
  | diff, a, b => a \ b
  | xor, a, b => symmDiff a b

/-- The Boolean combination that a tree describes. -/
def Expr.denote (leaf : String → B) : Expr → B
  | name text => leaf text
  | binary op left right => op.act (left.denote leaf) (right.denote leaf)

end Denotation

variable {α : Type} [Scalar α]

/-- The tree with every operator applied by the clipper, without a shortcut. -/
def Expr.fold (clip : Clipper α) (leaf : String → Region α) : Expr → Region α
  | name text => leaf text
  | binary op left right => clip.combine op (left.fold clip leaf) (right.fold clip leaf)

namespace Clipper

/-- The regions that evaluations make out of `leaves`. -/
inductive Makes (clip : Clipper α) (leaves : Set (Region α)) : Region α → Prop
  | leaf {r} : r ∈ leaves → Makes clip leaves r
  | empty : Makes clip leaves Region.empty
  | combine (op) {r s} :
      Makes clip leaves r → Makes clip leaves s → Makes clip leaves (clip.combine op r s)

/-- On what evaluations make out of `leaves`, the clipper acts as set algebra and emptiness is
seen. -/
structure Denotes {B : Type*} [BooleanAlgebra B] (clip : Clipper α) (leaves : Set (Region α))
    (den : Region α → B) : Prop where
  combine : ∀ op {r s}, clip.Makes leaves r → clip.Makes leaves s →
    den (clip.combine op r s) = op.act (den r) (den s)
  isEmpty_iff : ∀ {r}, clip.Makes leaves r → (r.isEmpty = true ↔ den r = ⊥)

theorem Denotes.fold {B : Type*} [BooleanAlgebra B] {clip : Clipper α} {leaves : Set (Region α)}
    {den : Region α → B} (h : clip.Denotes leaves den) {leaf : String → Region α} {e : Expr}
    (hleaves : ∀ n ∈ e.names, leaf n ∈ leaves) :
    clip.Makes leaves (e.fold clip leaf) ∧
      den (e.fold clip leaf) = e.denote fun n => den (leaf n) := by
  induction e with
  | name text => exact ⟨.leaf (hleaves text (List.mem_singleton.mpr rfl)), rfl⟩
  | binary op left right hl hr =>
    obtain ⟨hml, hdl⟩ := hl fun n hn => hleaves n (List.mem_append_left _ hn)
    obtain ⟨hmr, hdr⟩ := hr fun n hn => hleaves n (List.mem_append_right _ hn)
    refine ⟨.combine op hml hmr, ?_⟩
    simp only [Expr.fold, Expr.denote, h.combine op hml hmr, hdl, hdr]

/-- The set operation with the ways round an empty side that an evaluation takes. -/
def shortcut (clip : Clipper α) (op : Op) (r s : Region α) : Region α :=
  match op with
  | .inter => clip.combine .inter r s
  | .union | .xor =>
    if r.isEmpty then s else if s.isEmpty then r else clip.combine op r s
  | .diff =>
    if r.isEmpty then Region.empty else if s.isEmpty then r else clip.combine .diff r s

/-- Each shortcut returns what the set operation would have returned. -/
theorem Denotes.shortcut {B : Type*} [BooleanAlgebra B] {clip : Clipper α}
    {leaves : Set (Region α)} {den : Region α → B} (h : clip.Denotes leaves den) (op : Op)
    {r s : Region α} (hr : clip.Makes leaves r) (hs : clip.Makes leaves s) :
    clip.Makes leaves (clip.shortcut op r s) ∧
      den (clip.shortcut op r s) = op.act (den r) (den s) := by
  have hclip := And.intro (Makes.combine op hr hs) (h.combine op hr hs)
  have hbot : ∀ {x}, clip.Makes leaves x → x.isEmpty = true → den x = ⊥ :=
    fun hx hempty => (h.isEmpty_iff hx).mp hempty
  cases op with
  | inter => exact hclip
  | union =>
    simp only [Clipper.shortcut]
    split
    · rename_i hempty
      exact ⟨hs, by rw [hbot hr hempty]; exact (bot_sup_eq _).symm⟩
    · split
      · rename_i hempty
        exact ⟨hr, by rw [hbot hs hempty]; exact (sup_bot_eq _).symm⟩
      · exact hclip
  | xor =>
    simp only [Clipper.shortcut]
    split
    · rename_i hempty
      exact ⟨hs, by rw [hbot hr hempty]; exact (bot_symmDiff _).symm⟩
    · split
      · rename_i hempty
        exact ⟨hr, by rw [hbot hs hempty]; exact (symmDiff_bot _).symm⟩
      · exact hclip
  | diff =>
    simp only [Clipper.shortcut]
    split
    · rename_i hempty
      have hnone : den (Region.empty : Region α) = ⊥ := hbot .empty Region.isEmpty_empty
      exact ⟨.empty, by rw [hnone, hbot hr hempty]; exact bot_sdiff.symm⟩
    · split
      · rename_i hempty
        exact ⟨hr, by rw [hbot hs hempty]; exact sdiff_bot.symm⟩
      · exact hclip

end Clipper

namespace Resolver

/-- The name stands for a shape that is no segment and has a region. -/
def Draws (settings : Settings α) (resolver : Resolver α) (name : String) : Prop :=
  ∃ shape t, resolver name = some shape ∧ shape.kind? ≠ some .segment ∧
    Tagged.ofShape settings name shape = .ok t

/-- The region of the shape that a name stands for, the empty one if it has none. -/
def region (settings : Settings α) (resolver : Resolver α) (name : String) : Region α :=
  match resolver name with
  | none => Region.empty
  | some shape =>
    match Tagged.ofShape settings name shape with
    | .error _ => Region.empty
    | .ok t =>
      match t.slot with
      | .pending .. => Region.empty
      | .resolved r => r

/-- A drawn shape is converted to its region. -/
theorem Draws.exists_slot {settings : Settings α} {resolver : Resolver α} {name : String}
    (h : resolver.Draws settings name) :
    ∃ t, resolver.Adapts settings name t ∧ t.kind ≠ .segment ∧
      t.slot = .resolved (resolver.region settings name) := by
  obtain ⟨source, t, hsource, hkind, ht⟩ := h
  obtain ⟨hgenuine, -, rfl⟩ := Tagged.ofShape_ok ht
  have hne : t.kind ≠ .segment := by
    intro heq
    rw [hgenuine.kind?, heq] at hkind
    exact hkind rfl
  obtain ⟨r, hr⟩ := hgenuine.exists_resolved hne
  refine ⟨t, ⟨_, hsource, ht⟩, hne, ?_⟩
  simp only [region, hsource, ht, hr]

end Resolver

namespace Value

variable {settings : Settings α} {clip : Clipper α} {resolver : Resolver α}

/-- The value is decided: it has this region, and it is no segment. -/
inductive Stands : Value α → Region α → Prop
  | shape {t : Tagged α} {r : Region α} (hslot : t.slot = .resolved r) (hkind : t.kind ≠ .segment) :
      Stands (.shape t) r
  | derived (r : Region α) : Stands (.derived r) r

namespace Stands

variable {v w : Value α} {r s : Region α}

theorem toRegion (h : Stands v r) : v.toRegion settings = .ok r := by
  cases h with
  | shape hslot _ => simp only [Value.toRegion, Tagged.toRegion, hslot]
  | derived => rfl

omit [Scalar α] in
theorem isPending (h : Stands v r) : v.isPending = false := by
  cases h with
  | shape hslot _ => simp only [Value.isPending, Tagged.isPending, hslot, Slot.isPending]
  | derived => rfl

theorem isEmpty (h : Stands v r) : v.isEmpty = r.isEmpty := by
  cases h with
  | shape hslot _ => simp only [Value.isEmpty, hslot]
  | derived => rfl

theorem combine (hv : Stands v r) (hw : Stands w s) (op : Op) :
    Value.combine clip settings op v w = .ok (.derived (clip.combine op r s)) := by
  simp only [Value.combine, hv.toRegion, hw.toRegion]

/-- Without a segment there is nothing to cut. -/
theorem cut (hv : Stands v r) (hw : Stands w s) : Value.cut clip settings v w = .ok none := by
  cases hv with
  | derived => rfl
  | shape _ ht =>
    cases hw with
    | derived => rfl
    | shape _ hu => exact Tagged.cut_of_same (iff_of_false ht hu)

end Stands

/-- One operator on decided values gives a decided value. -/
theorem apply_stands (clip : Clipper α) (settings : Settings α) (op : Op) {v w : Value α}
    {r s : Region α} (hv : Stands v r) (hw : Stands w s) :
    ∃ u, apply clip settings op v w = .ok u ∧ Stands u (clip.shortcut op r s) := by
  have hclip : combine clip settings op v w = .ok (.derived (clip.combine op r s)) ∧
      Stands (.derived (clip.combine op r s)) (clip.combine op r s) :=
    ⟨hv.combine hw op, .derived _⟩
  cases op with
  | inter =>
    simp only [apply, hv.cut hw]
    exact ⟨_, hclip⟩
  | union | xor =>
    simp only [apply, Clipper.shortcut, hv.isPending, hw.isPending, hv.isEmpty, hw.isEmpty,
      Bool.false_or]
    split
    · exact ⟨w, rfl, hw⟩
    · split
      · exact ⟨v, rfl, hv⟩
      · exact ⟨_, hclip⟩
  | diff =>
    simp only [apply, Clipper.shortcut, hv.isEmpty, hw.isEmpty]
    split
    · exact ⟨_, rfl, .derived _⟩
    · split
      · exact ⟨v, rfl, hv⟩
      · exact ⟨_, hclip⟩

variable {B : Type*} [BooleanAlgebra B] {leaves : Set (Region α)} {den : Region α → B}

/-- A drawn name is a decided value. -/
theorem ofExpr_name_stands (clip : Clipper α) {name : String} (h : resolver.Draws settings name) :
    ∃ v, ofExpr clip settings resolver (.name name) = .ok v ∧
      Stands v (resolver.region settings name) := by
  obtain ⟨t, hadapts, hkind, hslot⟩ := h.exists_slot
  exact ⟨.shape t, ofExpr_name_eq_ok_iff.mpr ⟨t, rfl, hadapts⟩, .shape hslot hkind⟩

/-- A tree over drawn names is a decided value that denotes what the tree describes. -/
theorem ofExpr_stands (hden : clip.Denotes leaves den) {e : Expr}
    (hdraws : ∀ n ∈ e.names, resolver.Draws settings n)
    (hleaves : ∀ n ∈ e.names, resolver.region settings n ∈ leaves) :
    ∃ v region, ofExpr clip settings resolver e = .ok v ∧ Stands v region ∧
      clip.Makes leaves region ∧
      den region = e.denote fun n => den (resolver.region settings n) := by
  induction e with
  | name text =>
    have hmem : text ∈ (Expr.name text).names := List.mem_singleton.mpr rfl
    obtain ⟨v, hv, hstands⟩ := ofExpr_name_stands clip (hdraws text hmem)
    exact ⟨v, _, hv, hstands, .leaf (hleaves text hmem), rfl⟩
  | binary op left right hl hr =>
    obtain ⟨v, r, hv, hvr, hmr, hdr⟩ := hl
      (fun n hn => hdraws n (List.mem_append_left _ hn))
      (fun n hn => hleaves n (List.mem_append_left _ hn))
    obtain ⟨w, s, hw, hws, hms, hds⟩ := hr
      (fun n hn => hdraws n (List.mem_append_right _ hn))
      (fun n hn => hleaves n (List.mem_append_right _ hn))
    obtain ⟨u, hu, hstands⟩ := apply_stands clip settings op hvr hws
    obtain ⟨hmakes, hdenote⟩ := hden.shortcut op hmr hms
    refine ⟨u, _, ?_, hstands, hmakes, ?_⟩
    · simp only [ofExpr, hv, hw, hu]
    · rw [hdenote, hdr, hds]
      rfl

end Value

namespace Outcome

variable {clip : Clipper α} {settings : Settings α} {resolver : Resolver α}
variable {B : Type*} [BooleanAlgebra B] {den : Region α → B}

/-- Let every name of `e` stand for a drawn shape, and let the regions of those shapes and what the
clipper makes of them denote sets. Then every tree inside `e` has a region. It denotes the Boolean
combination that the tree describes, which is also what the clipper gives without a shortcut. -/
theorem regionOfExpr_denotes {e : Expr} (hdraws : ∀ n ∈ e.names, resolver.Draws settings n)
    (hden : clip.Denotes {r | ∃ n ∈ e.names, resolver.region settings n = r} den) :
    ∀ s ∈ e.subtrees, ∃ region, regionOfExpr clip settings resolver s = .ok region ∧
      den region = s.denote (fun n => den (resolver.region settings n)) ∧
      den region = den (s.fold clip (resolver.region settings)) := by
  intro s hs
  have hsub := Expr.names_subset_of_mem_subtrees hs
  have hleaves : ∀ n ∈ s.names,
      resolver.region settings n ∈ {r | ∃ n ∈ e.names, resolver.region settings n = r} :=
    fun n hn => ⟨n, hsub hn, rfl⟩
  obtain ⟨v, region, hv, hstands, -, hdenote⟩ :=
    Value.ofExpr_stands hden (fun n hn => hdraws n (hsub hn)) hleaves
  refine ⟨region, ?_, hdenote, ?_⟩
  · simp only [regionOfExpr, hv, hstands.toRegion]
  · rw [hdenote, (hden.fold hleaves).2]

/-- The area of an outcome with exact numbers is that of its region. -/
theorem area_ofRegions (settings : Settings ℝ) (r : Region ℝ) :
    (ofRegions settings [r]).area = r.area := by
  by_cases h : r.isEmpty = true
  · simp [ofRegions, h, Region.merge?, Region.isEmpty_iff.mp h]
  · simp [ofRegions, h, Region.merge?, r.area_nonneg]

end Outcome

namespace Clipper

/-- The clipper of regions whose pieces are equal or disjoint: a piece stays whole or goes. -/
def ofPieces {α : Type} [DecidableEq α] : Clipper α where
  combine op r s := ⟨(r.polygons ++ s.polygons).dedup.filter fun p =>
    op.holds (p ∈ r.polygons) (p ∈ s.polygons)⟩

theorem mem_ofPieces {α : Type} [DecidableEq α] {op : Op} {r s : Region α} {p : Polygon α} :
    p ∈ (ofPieces.combine op r s).polygons ↔
      op.holds (p ∈ r.polygons) (p ∈ s.polygons) = true := by
  simp only [ofPieces, List.mem_filter, List.mem_dedup, List.mem_append, and_iff_right_iff_imp]
  intro h
  by_cases hr : p ∈ r.polygons
  · exact .inl hr
  · by_cases hs : p ∈ s.polygons
    · exact .inr hs
    · cases op <;> simp [Op.holds, hr, hs] at h

/-- Every piece comes from a leaf. -/
theorem ofPieces_makes {leaves : Set (Region ℝ)}
    (h : ∀ r ∈ leaves, ∀ p ∈ r.polygons, 0 < p.area) {r : Region ℝ}
    (hr : ofPieces.Makes leaves r) : ∀ p ∈ r.polygons, 0 < p.area := by
  induction hr with
  | leaf hr => exact h _ hr
  | empty =>
    intro p hp
    cases hp
  | combine op _ _ ihr ihs =>
    rename_i r s _ _
    intro p hp
    have hmem : p ∈ r.polygons ∨ p ∈ s.polygons := by
      have hp := (List.mem_filter.mp hp).1
      exact List.mem_append.mp (List.mem_dedup.mp hp)
    cases hmem with
    | inl hr => exact ihr p hr
    | inr hs => exact ihs p hs

/-- With pieces of positive area, a region denotes the set of its pieces. -/
theorem ofPieces_denotes {leaves : Set (Region ℝ)}
    (h : ∀ r ∈ leaves, ∀ p ∈ r.polygons, 0 < p.area) :
    ofPieces.Denotes leaves fun r => {p | p ∈ r.polygons} where
  combine op r s _ _ := by
    ext p
    simp only [Set.mem_ofPred_eq, mem_ofPieces]
    cases op with
    | inter => simp [Op.holds, Op.act]
    | union => simp [Op.holds, Op.act]
    | diff => simp [Op.holds, Op.act]
    | xor =>
      by_cases hr : p ∈ r.polygons <;> by_cases hs : p ∈ s.polygons <;>
        simp [Op.holds, Op.act, Set.mem_symmDiff, hr, hs]
  isEmpty_iff {r} hr := by
    rw [Set.bot_eq_empty, Set.eq_empty_iff_forall_notMem]
    constructor
    · intro hempty p hp
      have harea : 0 < r.area := by
        rw [Region.area_eq_sum]
        refine List.sum_pos _ ?_ (List.ne_nil_of_mem (List.mem_map_of_mem hp))
        intro a ha
        obtain ⟨q, hq, rfl⟩ := List.mem_map.mp ha
        exact ofPieces_makes h hr q hq
      exact harea.ne' (Region.isEmpty_iff.mp hempty)
    · intro hnone
      have hnil : r.polygons = [] := List.eq_nil_iff_forall_not_mem.mpr hnone
      simp only [Region.isEmpty, hnil, List.isEmpty_nil, Bool.true_or]

end Clipper

namespace Outcome

/-- A right triangle with legs of length one, its right angle at `(x, 0)`. -/
def triangleAt (x : ℝ) : Ring ℝ :=
  [⟨x, 0⟩, ⟨x + 1, 0⟩, ⟨x, 1⟩]

theorem signedArea_triangleAt (x : ℝ) : Ring.signedArea (triangleAt x) = 1 / 2 := by
  have hhalf : (0.5 : ℝ) = 2⁻¹ := by norm_num
  simp [Ring.signedArea, Ring.edges, triangleAt, hhalf]

theorem area_triangleAt (x : ℝ) : 0 < Polygon.area ⟨triangleAt x, []⟩ := by
  simp [Polygon.area, Ring.area, Ring.edges, triangleAt]

/-- `A` is one triangle and every other name one that lies apart from it. -/
noncomputable def triangles : Resolver ℝ := fun n =>
  some (.polygon (triangleAt (if n = "A" then 0 else 3)))

theorem ofShape_triangleAt (settings : Settings ℝ) (n : String) (x : ℝ) :
    Tagged.ofShape settings n (.polygon (triangleAt x)) =
      .ok ⟨n, .polygon, .resolved (.ofRing (triangleAt x)), .polygon (triangleAt x)⟩ := by
  have hring : Ring.ofPoints? (triangleAt x) = some (triangleAt x) := by
    apply Ring.ofPoints?_triangle
    · exact Point.near_eq_false (by ring_nf; norm_num)
    · exact Point.near_eq_false (by ring_nf; norm_num)
    · exact Point.near_eq_false (by ring_nf; norm_num)
    · exact (by norm_num : (0 : ℝ) ≤ 1 / 2).trans_eq (signedArea_triangleAt x).symm
  simp only [Tagged.ofShape, Region.ofPoints?, hring, Option.map_some]
  rfl

theorem region_triangles (settings : Settings ℝ) (n : String) :
    triangles.region settings n = .ofRing (triangleAt (if n = "A" then 0 else 3)) := by
  simp only [Resolver.region, triangles, ofShape_triangleAt]

/-- On two triangles apart, `(A - B) | (A ^ A)` takes the way round an empty side. -/
theorem regionOfExpr_denotes_triangles :
    let settings : Settings ℝ := Settings.default
    let e := Expr.binary .union (.binary .diff (.name "A") (.name "B"))
      (.binary .xor (.name "A") (.name "A"))
    let den := fun r : Region ℝ => {p | p ∈ r.polygons}
    (∀ n ∈ e.names, triangles.Draws settings n) ∧
      Clipper.ofPieces.Denotes {r | ∃ n ∈ e.names, triangles.region settings n = r} den ∧
      ∀ s ∈ e.subtrees, ∃ region,
        regionOfExpr Clipper.ofPieces settings triangles s = .ok region ∧
        den region = s.denote (fun n => den (triangles.region settings n)) ∧
        den region = den (s.fold Clipper.ofPieces (triangles.region settings)) := by
  intro settings e den
  have hdraws : ∀ n ∈ e.names, triangles.Draws settings n :=
    fun n _ => ⟨_, _, rfl, by simp [Shape.kind?], ofShape_triangleAt settings n _⟩
  have hden : Clipper.ofPieces.Denotes
      {r | ∃ n ∈ e.names, triangles.region settings n = r} den := by
    apply Clipper.ofPieces_denotes
    rintro r ⟨n, -, rfl⟩ p hp
    rw [region_triangles] at hp
    rw [List.mem_singleton.mp hp]
    exact area_triangleAt _
  exact ⟨hdraws, hden, regionOfExpr_denotes hdraws hden⟩

end Outcome

end PlanarArea
