import PlanarArea.Proofs.Eval.HalfPlanes
import PlanarArea.Proofs.Expr.Render

/-!
# The first fault

An evaluation walks a tree in post-order, left before right. It resolves every leaf and converts its
shape, also where an operator drops the operand afterwards, and an operator takes its half planes
after the steps of both operands. The fault of an evaluation is that of the first of these steps
that fails, and there is none if all succeed.
-/
namespace PlanarArea

/-- The name that a fault is about. -/
def ShapeError.name : ShapeError → String
  | unknown name => name
  | unconvertible name _ => name
  | degenerate name _ => name

namespace Fault

/-- How the message of a fault begins. -/
def Category.head : Category → String
  | grammar => "syntax error: "
  | resolution => "resolution error: "

/-- The text begins with `head`. -/
def Begins (head text : String) : Prop :=
  head.toList <+: text.toList

instance (head text : String) : Decidable (Begins head text) :=
  inferInstanceAs (Decidable (_ <+: _))

theorem Begins.append {head text : String} (h : Begins head text) (rest : String) :
    Begins head (text ++ rest) := by
  rw [Begins, String.toList_append]
  exact h.trans (List.prefix_append _ _)

theorem begins_grammar (error : ParseError) : Begins Category.grammar.head error.message := by
  have hlead : ∀ {lead : String}, Begins Category.grammar.head lead → ∀ a b c,
      Begins Category.grammar.head (lead ++ a ++ b ++ c) :=
    fun h a b c => ((h.append a).append b).append c
  cases error with
  | emptyExpression => decide +kernel
  | unbalancedParens => decide +kernel
  | unexpectedEnd => decide +kernel
  | unexpectedChar ch pos => exact hlead (by decide +kernel) _ _ _
  | unexpectedOperator symbol pos => exact hlead (by decide +kernel) _ _ _
  | unexpectedCloseParen pos => exact Begins.append (by decide +kernel) _
  | missingCloseParen pos => exact Begins.append (by decide +kernel) _
  | trailingToken text pos => exact hlead (by decide +kernel) _ _ _
  | tooDeep limit => exact (Begins.append (by decide +kernel) _).append _

theorem begins_resolution (error : ShapeError) :
    Begins Category.resolution.head error.message := by
  cases error with
  | unknown name => exact (Begins.append (by decide +kernel) _).append _
  | unconvertible name className =>
    exact (((Begins.append (by decide +kernel) _).append _).append _).append _
  | degenerate name defect => exact ((Begins.append (by decide +kernel) _).append _).append _

/-- The message tells the category. -/
theorem begins_message_iff {fault : Fault} {c : Category} :
    Begins c.head fault.message ↔ fault.category = c := by
  have hapart : ∀ {text}, Begins Category.grammar.head text →
      ¬ Begins Category.resolution.head text := by
    rintro text ⟨x, hx⟩ ⟨y, hy⟩
    have hfirst := congrArg List.head? (hx.trans hy.symm)
    revert hfirst
    simp [Category.head]
  cases fault with
  | malformed e =>
    cases c with
    | grammar => exact iff_of_true (begins_grammar e) rfl
    | resolution => exact iff_of_false (hapart (begins_grammar e)) nofun
  | unresolved e =>
    cases c with
    | grammar => exact iff_of_false (fun h => hapart h (begins_resolution e)) nofun
    | resolution => exact iff_of_true (begins_resolution e) rfl

end Fault

variable {α : Type} [Scalar α]

namespace Tagged

omit [Scalar α] in
theorem orDefect_map_error {name : String} {defect : Defect} {found : Option (Region α)}
    {wrap : Region α → Tagged α} {err : ShapeError}
    (h : (orDefect name defect found).map wrap = .error err) : err = .degenerate name defect := by
  cases found with
  | none =>
    cases h
    rfl
  | some r => cases h

/-- A conversion fails under the name that it is given. -/
theorem name_of_ofShape_eq_error {settings : Settings α} {name : String} {shape : Shape α}
    {err : ShapeError} (h : ofShape settings name shape = .error err) : err.name = name := by
  cases shape with
  | circle center radius =>
    simp only [ofShape] at h
    split at h
    · rw [orDefect_map_error h]
      rfl
    · cases h
      rfl
  | ellipse center rx ry rotation =>
    simp only [ofShape] at h
    split at h
    · rw [orDefect_map_error h]
      rfl
    · cases h
      rfl
  | circleArc center radius start stop major =>
    simp only [ofShape] at h
    split at h
    · cases h
    · cases h
      rfl
  | segment start stop => cases h
  | polygon vertices =>
    rw [orDefect_map_error h]
    rfl
  | unsupported className =>
    cases h
    rfl

end Tagged

namespace Step

/-- The step is about one of the names, and its half plane is that of the segment of this name. -/
inductive Concerns (resolver : Resolver α) (names : List String) : Step α → Prop
  | leaf {name} : name ∈ names → Concerns resolver names (.leaf name)
  | halfPlane {name start stop} : name ∈ names → resolver name = some (.segment start stop) →
    Concerns resolver names (.halfPlane name start stop)

omit [Scalar α] in
theorem Concerns.mono {resolver : Resolver α} {names names' : List String} {s : Step α}
    (h : s.Concerns resolver names) (hsub : names ⊆ names') : s.Concerns resolver names' := by
  cases h with
  | leaf hn => exact .leaf (hsub hn)
  | halfPlane hn hresolver => exact .halfPlane (hsub hn) hresolver

theorem fault?_leaf_eq_none_iff {settings : Settings α} {resolver : Resolver α} {name : String} :
    (leaf name : Step α).fault? settings resolver = none ↔
      ∃ t, resolver.Adapts settings name t := by
  simp only [fault?, Resolver.Adapts]
  cases resolver name with
  | none => simp
  | some shape => simp [faultOf_eq_none_iff]

theorem name_mem_of_fault? {settings : Settings α} {resolver : Resolver α} {names : List String}
    {s : Step α} {err : ShapeError} (hs : s.Concerns resolver names)
    (h : s.fault? settings resolver = some err) : err.name ∈ names := by
  cases hs with
  | @leaf name hn =>
    simp only [fault?] at h
    split at h
    · cases h
      exact hn
    · rw [Tagged.name_of_ofShape_eq_error (faultOf_eq_some_iff.mp h)]
      exact hn
  | halfPlane hn =>
    simp only [fault?] at h
    split at h
    · cases h
    · cases h
      exact hn

end Step

namespace Value

/-- The steps of an evaluation in post-order. Without the value of an operand, for which an earlier
step has failed, an operator takes none. -/
def steps (clip : Clipper α) (settings : Settings α) (resolver : Resolver α) :
    Expr → List (Step α)
  | .name name => [.leaf name]
  | .binary op left right =>
    steps clip settings resolver left ++ steps clip settings resolver right ++
      match ofExpr clip settings resolver left, ofExpr clip settings resolver right with
      | .ok l, .ok r => halfPlanes op l r
      | _, _ => []

/-- The steps that lead to the region of a tree: a tree that is a segment in the end becomes a half
plane as well. -/
def regionSteps (clip : Clipper α) (settings : Settings α) (resolver : Resolver α) (e : Expr) :
    List (Step α) :=
  steps clip settings resolver e ++
    match ofExpr clip settings resolver e with
    | .ok v => v.halfPlane
    | .error _ => []

variable {clip : Clipper α} {settings : Settings α} {resolver : Resolver α}

theorem genuine_ofExpr {e : Expr} {v : Value α} (h : ofExpr clip settings resolver e = .ok v) :
    v.Genuine := by
  rintro t rfl
  exact genuine_of_ofExpr h

/-- The value of a tree fails as the first step fails. -/
theorem faultOf_ofExpr (e : Expr) : faultOf (ofExpr clip settings resolver e) =
    (steps clip settings resolver e).findSome? (Step.fault? settings resolver) := by
  induction e with
  | name text =>
    simp only [ofExpr, steps, Resolver.resolve, List.findSome?_singleton, Step.fault?]
    cases resolver text with
    | none => rfl
    | some shape =>
      cases ht : Tagged.ofShape settings text shape with
      | error e => simp [ht]
      | ok t => simp [ht]
  | binary op left right ihl ihr =>
    rw [steps, List.findSome?_append, List.findSome?_append, ← ihl, ← ihr]
    simp only [ofExpr]
    cases hl : ofExpr clip settings resolver left with
    | error e => rfl
    | ok l =>
      cases hr : ofExpr clip settings resolver right with
      | error e => rfl
      | ok r => exact faultOf_apply (genuine_ofExpr hl) (genuine_ofExpr hr)

theorem leaf_mem_steps {e : Expr} {n : String} (h : n ∈ e.names) :
    .leaf n ∈ steps clip settings resolver e := by
  induction e with
  | name text =>
    rw [List.mem_singleton.mp h]
    exact List.mem_singleton.mpr rfl
  | binary op left right ihl ihr =>
    apply List.mem_append_left
    cases List.mem_append.mp h with
    | inl h => exact List.mem_append_left _ (ihl h)
    | inr h => exact List.mem_append_right _ (ihr h)

theorem concerns_of_mem_halfPlane {e : Expr} {v : Value α} {s : Step α}
    (hv : ofExpr clip settings resolver e = .ok v) (hs : s ∈ v.halfPlane) :
    s.Concerns resolver e.names := by
  cases v with
  | derived region => cases hs
  | shape t =>
    obtain ⟨n, hn, hadapts⟩ := exists_leaf_of_ofExpr hv
    obtain ⟨hgenuine, rfl, hsource⟩ := hadapts.genuine
    simp only [halfPlane] at hs
    cases hslot : t.slot with
    | resolved region =>
      rw [hslot] at hs
      cases hs
    | pending start stop =>
      rw [hslot] at hs
      rw [List.mem_singleton.mp hs]
      exact .halfPlane hn (((hgenuine.pending_iff start stop).mp hslot) ▸ hsource)

theorem mem_halfPlane_of_mem_halfPlanes {op : Op} {l r : Value α} {s : Step α}
    (h : s ∈ halfPlanes op l r) : s ∈ l.halfPlane ∨ s ∈ r.halfPlane := by
  cases op with
  | inter | diff =>
    simp only [halfPlanes] at h
    split at h
    · cases h
    · exact List.mem_append.mp h
  | union | xor => cases h

/-- Every step is about a leaf, and every half plane about a leaf that is a segment. -/
theorem concerns_of_mem_steps {e : Expr} {s : Step α}
    (h : s ∈ steps clip settings resolver e) : s.Concerns resolver e.names := by
  induction e with
  | name text =>
    rw [List.mem_singleton.mp h]
    exact .leaf (List.mem_singleton.mpr rfl)
  | binary op left right ihl ihr =>
    have hsub : left.names ⊆ (Expr.binary op left right).names := List.subset_append_left _ _
    have hsub' : right.names ⊆ (Expr.binary op left right).names := List.subset_append_right _ _
    rw [steps, List.mem_append, List.mem_append] at h
    rcases h with (h | h) | h
    · exact (ihl h).mono hsub
    · exact (ihr h).mono hsub'
    · split at h
      · rename_i l r hl hr
        cases mem_halfPlane_of_mem_halfPlanes h with
        | inl h => exact (concerns_of_mem_halfPlane hl h).mono hsub
        | inr h => exact (concerns_of_mem_halfPlane hr h).mono hsub'
      · cases h

theorem concerns_of_mem_regionSteps {e : Expr} {s : Step α}
    (h : s ∈ regionSteps clip settings resolver e) : s.Concerns resolver e.names := by
  cases List.mem_append.mp h with
  | inl h => exact concerns_of_mem_steps h
  | inr h =>
    split at h
    · rename_i v hv
      exact concerns_of_mem_halfPlane hv h
    · cases h

end Value

namespace Outcome

variable {clip : Clipper α} {settings : Settings α} {resolver : Resolver α}

/-- The region of a tree fails as the first step fails. -/
theorem faultOf_regionOfExpr (e : Expr) : faultOf (regionOfExpr clip settings resolver e) =
    (Value.regionSteps clip settings resolver e).findSome? (Step.fault? settings resolver) := by
  rw [Value.regionSteps, List.findSome?_append, ← Value.faultOf_ofExpr, regionOfExpr]
  cases Value.ofExpr clip settings resolver e with
  | error err => rfl
  | ok v => exact Value.faultOf_toRegion v

theorem evaluate_of_error {text : String} {e : ParseError}
    (h : Expr.parse text settings.maxDepth = .error e) :
    evaluate clip settings resolver text = ofFault (.malformed e) := by
  simp only [evaluate, h]

/-- The outcome of a tree. -/
def ofExpr (clip : Clipper α) (settings : Settings α) (resolver : Resolver α) (e : Expr) :
    Outcome α :=
  match regionOfExpr clip settings resolver e with
  | .error err => ofFault (.unresolved err)
  | .ok region => ofRegions settings [region]

theorem ofExpr_of_ok {e : Expr} {region : Region α}
    (h : regionOfExpr clip settings resolver e = .ok region) :
    ofExpr clip settings resolver e = ofRegions settings [region] := by
  simp only [ofExpr, h]

theorem evaluate_of_ok {text : String} {tree : Expr}
    (h : Expr.parse text settings.maxDepth = .ok tree) :
    evaluate clip settings resolver text = ofExpr clip settings resolver tree := by
  simp only [evaluate, h]
  rfl

theorem fault_ofExpr (e : Expr) : (ofExpr clip settings resolver e).fault =
    (faultOf (regionOfExpr clip settings resolver e)).map .unresolved := by
  rw [ofExpr]
  cases regionOfExpr clip settings resolver e with
  | error err => rfl
  | ok region => rfl

theorem isOk_ofExpr_iff {e : Expr} : (ofExpr clip settings resolver e).isOk = true ↔
    ∃ region, regionOfExpr clip settings resolver e = .ok region := by
  rw [isOk, fault_ofExpr, ← faultOf_eq_none_iff]
  cases faultOf (regionOfExpr clip settings resolver e) with
  | none => simp
  | some err => simp

theorem regionOfExpr_eq_ok_iff {e : Expr} {region : Region α} :
    regionOfExpr clip settings resolver e = .ok region ↔
      ∃ v, Value.ofExpr clip settings resolver e = .ok v ∧ v.toRegion settings = .ok region := by
  rw [regionOfExpr]
  cases Value.ofExpr clip settings resolver e with
  | error err => simp
  | ok v => simp

/-- Without a leaf that fails and a segment without a half plane there is no fault. -/
theorem exists_regionOfExpr {e : Expr}
    (hleaves : ∀ n ∈ e.names, ∃ t, resolver.Adapts settings n t)
    (hsegments : ∀ n ∈ e.names, ∀ start stop, resolver n = some (.segment start stop) →
      (Region.ofHalfPlane? start stop settings.halfPlaneExtent).isSome) :
    ∃ region, regionOfExpr clip settings resolver e = .ok region := by
  rw [← faultOf_eq_none_iff, faultOf_regionOfExpr, List.findSome?_eq_none_iff]
  intro s hs
  cases Value.concerns_of_mem_regionSteps hs with
  | leaf hn => exact Step.fault?_leaf_eq_none_iff.mpr (hleaves _ hn)
  | halfPlane hn hsegment => exact if_pos (hsegments _ hn _ _ hsegment)

theorem exists_adapts_of_ofExpr {e : Expr} {v : Value α}
    (h : Value.ofExpr clip settings resolver e = .ok v) :
    ∀ n ∈ e.names, ∃ t, resolver.Adapts settings n t := by
  intro n hn
  have hnone := faultOf_eq_none_iff.mpr ⟨v, h⟩
  rw [Value.faultOf_ofExpr, List.findSome?_eq_none_iff] at hnone
  exact Step.fault?_leaf_eq_none_iff.mp (hnone _ (Value.leaf_mem_steps hn))

theorem name_mem_of_regionOfExpr {e : Expr} {err : ShapeError}
    (h : regionOfExpr clip settings resolver e = .error err) : err.name ∈ e.names := by
  rw [← faultOf_eq_some_iff, faultOf_regionOfExpr, List.findSome?_eq_some_iff] at h
  obtain ⟨before, s, after, hsteps, hs, -⟩ := h
  have hmem : s ∈ Value.regionSteps clip settings resolver e := by
    rw [hsteps]
    exact List.mem_append_right _ List.mem_cons_self
  exact Step.name_mem_of_fault? (Value.concerns_of_mem_regionSteps hmem) hs

/-- The category of the fault of a text. -/
theorem category_of_fault {text : String} {fault : Fault}
    (h : (evaluate clip settings resolver text).fault = some fault) :
    (fault.category = .grammar ↔ ∃ e, Expr.parse text settings.maxDepth = .error e) ∧
    (fault.category = .resolution ↔ ∃ tree e, Expr.parse text settings.maxDepth = .ok tree ∧
      regionOfExpr clip settings resolver tree = .error e ∧ fault = .unresolved e) := by
  cases hparse : Expr.parse text settings.maxDepth with
  | error e =>
    rw [evaluate_of_error hparse] at h
    cases h
    exact ⟨iff_of_true rfl ⟨e, rfl⟩, iff_of_false nofun nofun⟩
  | ok tree =>
    rw [evaluate_of_ok hparse, fault_ofExpr] at h
    obtain ⟨err, hregion, rfl⟩ := Option.map_eq_some_iff.mp h
    exact ⟨iff_of_false nofun nofun,
      iff_of_true rfl ⟨tree, err, rfl, faultOf_eq_some_iff.mp hregion, rfl⟩⟩

theorem parse_eq_error_iff {text : String} {e : ParseError} :
    Expr.parse text settings.maxDepth = .error e ↔
      (evaluate clip settings resolver text).fault = some (.malformed e) := by
  cases hparse : Expr.parse text settings.maxDepth with
  | error e' => simp [evaluate_of_error hparse, ofFault]
  | ok tree => simp [evaluate_of_ok hparse, fault_ofExpr]

theorem fault_eq_unresolved_iff {text : String} {e : ShapeError} :
    (evaluate clip settings resolver text).fault = some (.unresolved e) ↔
      ∃ tree, Expr.parse text settings.maxDepth = .ok tree ∧
        regionOfExpr clip settings resolver tree = .error e := by
  cases hparse : Expr.parse text settings.maxDepth with
  | error e' => simp [evaluate_of_error hparse, ofFault]
  | ok tree => simp [evaluate_of_ok hparse, fault_ofExpr, faultOf_eq_some_iff]

theorem fault_eq_none_iff {text : String} :
    (evaluate clip settings resolver text).fault = none ↔
      ∃ tree region, Expr.parse text settings.maxDepth = .ok tree ∧
        regionOfExpr clip settings resolver tree = .ok region := by
  cases hparse : Expr.parse text settings.maxDepth with
  | error e => simp [evaluate_of_error hparse, ofFault]
  | ok tree => simp [evaluate_of_ok hparse, fault_ofExpr, faultOf_eq_none_iff]

/-- What a tree evaluates to has resolved and converted every leaf. If every leaf does and every
segment among them has a half plane, there is a region. A fault is that of the first step that
fails, in post-order, and it is about a leaf. A text has a fault of grammar exactly if it is not
read, whatever its names stand for, the fault of its tree exactly if it is read as a tree that
fails, and no fault exactly if it is read as a tree with a region. -/
theorem fault_is_first_failing_step (clip : Clipper α) (settings : Settings α)
    (resolver : Resolver α) :
    (∀ e : Expr,
      (∀ v, Value.ofExpr clip settings resolver e = .ok v →
        ∀ n ∈ e.names, ∃ t, resolver.Adapts settings n t) ∧
      ((∀ n ∈ e.names, ∃ t, resolver.Adapts settings n t) →
        (∀ n ∈ e.names, ∀ start stop, resolver n = some (.segment start stop) →
          (Region.ofHalfPlane? start stop settings.halfPlaneExtent).isSome) →
        ∃ v region, Value.ofExpr clip settings resolver e = .ok v ∧
          v.toRegion settings = .ok region) ∧
      (∀ err, Value.ofExpr clip settings resolver e = .error err ↔
        (Value.steps clip settings resolver e).findSome? (Step.fault? settings resolver) =
          some err) ∧
      (∀ err, regionOfExpr clip settings resolver e = .error err ↔
        (Value.regionSteps clip settings resolver e).findSome? (Step.fault? settings resolver) =
          some err) ∧
      ∀ err, regionOfExpr clip settings resolver e = .error err → err.name ∈ e.names) ∧
    ∀ text,
      (∀ e, Expr.parse text settings.maxDepth = .error e ↔
        (evaluate clip settings resolver text).fault = some (.malformed e)) ∧
      (∀ e, Expr.parse text settings.maxDepth = .error e →
        (evaluate clip settings resolver text).report = .error e.message) ∧
      (∀ e, (evaluate clip settings resolver text).fault = some (.unresolved e) ↔
        ∃ tree, Expr.parse text settings.maxDepth = .ok tree ∧
          regionOfExpr clip settings resolver tree = .error e) ∧
      ((evaluate clip settings resolver text).fault = none ↔
        ∃ tree region, Expr.parse text settings.maxDepth = .ok tree ∧
          regionOfExpr clip settings resolver tree = .ok region) ∧
      ∀ fault, (evaluate clip settings resolver text).fault = some fault →
        (fault.category = .grammar ↔ ∃ e, Expr.parse text settings.maxDepth = .error e) ∧
        (fault.category = .resolution ↔ ∃ tree e, Expr.parse text settings.maxDepth = .ok tree ∧
          regionOfExpr clip settings resolver tree = .error e ∧ fault = .unresolved e) ∧
        ∀ c, Fault.Begins c.head fault.message ↔ fault.category = c := by
  constructor
  · intro e
    refine ⟨fun v hv => exists_adapts_of_ofExpr hv, ?_, ?_, ?_, ?_⟩
    · intro hleaves hsegments
      obtain ⟨region, hregion⟩ := exists_regionOfExpr hleaves hsegments
      obtain ⟨v, hv⟩ := regionOfExpr_eq_ok_iff.mp hregion
      exact ⟨v, region, hv⟩
    · intro err
      rw [← Value.faultOf_ofExpr, faultOf_eq_some_iff]
    · intro err
      rw [← faultOf_regionOfExpr, faultOf_eq_some_iff]
    · intro err
      exact name_mem_of_regionOfExpr
  · intro text
    refine ⟨fun e => parse_eq_error_iff, ?_, fun e => fault_eq_unresolved_iff,
      fault_eq_none_iff, ?_⟩
    · intro e he
      rw [evaluate_of_error he]
      rfl
    · intro fault hfault
      obtain ⟨hgrammar, hresolution⟩ := category_of_fault hfault
      exact ⟨hgrammar, hresolution, fun c => Fault.begins_message_iff⟩

/-- A segment without length under the name `S`, and a quarter of a circle under every other
name. -/
def dotAndArc : Resolver ℝ := fun n =>
  if n = "S" then some (.segment ⟨0, 0⟩ ⟨0, 0⟩)
  else some (.circleArc ⟨0, 0⟩ 1 ⟨1, 0⟩ ⟨0, 1⟩ false)

theorem ofHalfPlane?_dot (extent : ℝ) : Region.ofHalfPlane? ⟨0, 0⟩ ⟨0, 0⟩ extent = none := by
  have hlen : ¬ (1e-10 : ℝ) ≤ 0 := by norm_num
  simp [Region.ofHalfPlane?, Point.norm, hlen]

/-- The segment under the name `S`. -/
def dot : Tagged ℝ :=
  ⟨"S", .segment, .pending ⟨0, 0⟩ ⟨0, 0⟩, .segment ⟨0, 0⟩ ⟨0, 0⟩⟩

theorem ofExpr_dot {clip : Clipper ℝ} {settings : Settings ℝ} :
    Value.ofExpr clip settings dotAndArc (.name "S") = .ok (.shape dot) :=
  Value.ofExpr_name_eq_ok_iff.mpr ⟨dot, rfl, _, rfl, rfl⟩

theorem regionOfExpr_dots {clip : Clipper ℝ} {settings : Settings ℝ} :
    regionOfExpr clip settings dotAndArc (.binary .inter (.name "S") (.name "S")) =
      .error (.degenerate "S" .coincidentEndpoints) := by
  have hnone : Value.cut clip settings (.shape dot) (.shape dot) = .ok none := rfl
  have hfails : dot.toRegion settings = .error (.degenerate "S" .coincidentEndpoints) := by
    simp [Tagged.toRegion, dot, ofHalfPlane?_dot]
  rw [regionOfExpr, Value.ofExpr, ofExpr_dot]
  simp [Value.apply, hnone, Value.combine, Value.toRegion, hfails]

theorem adapts_arc : ∃ t, dotAndArc.Adapts (Settings.default : Settings ℝ) "a" t :=
  ⟨_, _, rfl, by simp [Tagged.ofShape, isPositive]; rfl⟩

theorem isNameText_dotAndArc : Token.IsNameText "S" ∧ Token.IsNameText "a" :=
  ⟨Token.isNameText_of_letter rfl (by decide), Token.isNameText_of_letter rfl (by decide)⟩

theorem parse_dots : Expr.parse "S & S" Expr.defaultLimit =
    .ok (.binary .inter (.name "S") (.name "S")) :=
  Expr.parse_bare_names isNameText_dotAndArc.1 isNameText_dotAndArc.1 .inter (by decide)

theorem parse_arcs : Expr.parse "a - a" Expr.defaultLimit =
    .ok (.binary .diff (.name "a") (.name "a")) :=
  Expr.parse_bare_names isNameText_dotAndArc.2 isNameText_dotAndArc.2 .diff (by decide)

/-- The segment `S` is a value, but `S & S` takes its half plane and fails, as a tree and as a text.
The region of `a - a` needs none, and its text has no fault. The empty text is a fault of
grammar. -/
theorem fault_is_first_failing_step_dot :
    let clip : Clipper ℝ := ⟨fun _ left _ => left⟩
    let settings : Settings ℝ := Settings.default
    let s := Expr.name "S"
    let a := Expr.name "a"
    let err := ShapeError.degenerate "S" .coincidentEndpoints
    (∃ v, Value.ofExpr clip settings dotAndArc s = .ok v) ∧
      (∀ n ∈ s.names, ∃ t, dotAndArc.Adapts settings n t) ∧
      (∃ v region, Value.ofExpr clip settings dotAndArc (.binary .diff a a) = .ok v ∧
        v.toRegion settings = .ok region) ∧
      regionOfExpr clip settings dotAndArc (.binary .inter s s) = .error err ∧
      (Value.regionSteps clip settings dotAndArc (.binary .inter s s)).findSome?
        (Step.fault? settings dotAndArc) = some err ∧
      err.name ∈ (Expr.binary .inter s s).names ∧
      (evaluate clip settings dotAndArc "").report =
        .error ParseError.emptyExpression.message ∧
      (Fault.malformed .emptyExpression).category = .grammar ∧
      (evaluate clip settings dotAndArc "S & S").fault = some (.unresolved err) ∧
      (Fault.unresolved err).category = .resolution ∧
      (evaluate clip settings dotAndArc "a - a").fault = none := by
  intro clip settings s a err
  obtain ⟨hexpr, htext⟩ := fault_is_first_failing_step clip settings dotAndArc
  have hdot : Value.ofExpr clip settings dotAndArc s = .ok (.shape dot) := ofExpr_dot
  have herror : regionOfExpr clip settings dotAndArc (.binary .inter s s) = .error err :=
    regionOfExpr_dots
  have hregion := (hexpr (.binary .diff a a)).2.1 (by simpa [a, Expr.names] using adapts_arc)
    (by simp [a, Expr.names, dotAndArc])
  obtain ⟨v, region, hv⟩ := hregion
  have hempty : Expr.parse "" settings.maxDepth = .error .emptyExpression := rfl
  have hmalformed := ((htext "").1 _).mp hempty
  have hdots : Expr.parse "S & S" settings.maxDepth = .ok (.binary .inter s s) := parse_dots
  have hunresolved := ((htext "S & S").2.2.1 err).mpr ⟨_, hdots, herror⟩
  have harcs : Expr.parse "a - a" settings.maxDepth = .ok (.binary .diff a a) := parse_arcs
  exact ⟨⟨_, hdot⟩, (hexpr s).1 _ hdot, ⟨v, region, hv⟩, herror, ((hexpr _).2.2.2.1 err).mp herror,
    (hexpr _).2.2.2.2 err herror, (htext "").2.1 _ hempty,
    ((htext "").2.2.2.2 _ hmalformed).1.mpr ⟨_, hempty⟩, hunresolved,
    ((htext "S & S").2.2.2.2 _ hunresolved).2.1.mpr ⟨_, _, hdots, herror, rfl⟩,
    (htext "a - a").2.2.2.1.mpr ⟨_, region, harcs, regionOfExpr_eq_ok_iff.mpr ⟨v, hv⟩⟩⟩

end Outcome

end PlanarArea
