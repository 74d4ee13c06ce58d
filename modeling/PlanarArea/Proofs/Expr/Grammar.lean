import PlanarArea.Proofs.Expr.Reading

/-!
# The grammar of expressions

The grammar has the rules `expr := term (('|' or '^') term)*`, `term := primary (('&' or '-')
primary)*` and `primary := NAME or '(' expr ')'`, where a repetition associates to the left. It is
stratified and says nothing of thresholds or cursors. The reader accepts exactly its sentences,
with the tree of the derivation, as long as nesting and height stay within the limit.
-/
namespace PlanarArea.Expr

/-- The syntactic categories, from the loosest to the tightest. -/
inductive Category where
  | expr
  | term
  | primary
  deriving DecidableEq, Repr

/-- `Derives c ts e`: the tokens `ts` are a phrase of category `c` with tree `e`. A repetition is
unrolled from the left, so that each further operator takes all before it as its left operand. -/
inductive Derives : Category → List Token → Expr → Prop where
  | name {t : Token} (ht : t.kind = .name) : Derives .primary [t] (.name t.text)
  | parens {l r : Token} {ts : List Token} {e : Expr} (hl : l.kind = .openParen)
      (hr : r.kind = .closeParen) (h : Derives .expr ts e) :
      Derives .primary (l :: (ts ++ [r])) e
  | factor {ts : List Token} {e : Expr} (h : Derives .primary ts e) : Derives .term ts e
  | product {ts us : List Token} {t : Token} {op : Op} {e f : Expr} (he : Derives .term ts e)
      (ht : t.op? = some op) (hop : op = .inter ∨ op = .diff) (hf : Derives .primary us f) :
      Derives .term (ts ++ t :: us) (.binary op e f)
  | summand {ts : List Token} {e : Expr} (h : Derives .term ts e) : Derives .expr ts e
  | sum {ts us : List Token} {t : Token} {op : Op} {e f : Expr} (he : Derives .expr ts e)
      (ht : t.op? = some op) (hop : op = .union ∨ op = .xor) (hf : Derives .term us f) :
      Derives .expr (ts ++ t :: us) (.binary op e f)

/-- The parentheses that the tokens open. -/
def opened (ts : List Token) : Nat :=
  ts.countP (·.kind = .openParen)

/-- The parentheses that the tokens close. -/
def closed (ts : List Token) : Nat :=
  ts.countP (·.kind = .closeParen)

/-- At no place are more than `depth` parentheses open. -/
def NestsWithin (depth : Nat) (ts : List Token) : Prop :=
  ∀ front, front <+: ts → opened front ≤ closed front + depth

/-- The names and operators of a tree in the order in which they are written. -/
def inorder : Expr → List (String ⊕ Op)
  | name text => [.inl text]
  | binary op left right => left.inorder ++ .inr op :: right.inorder

/-- The names and operators that tokens other than parentheses stand for, `none` for an operator
token that stands for no operator. -/
def words (ts : List Token) : List (Option (String ⊕ Op)) :=
  (ts.filter fun t => t.kind = .name ∨ t.kind = .operator).map fun t =>
    if t.kind = .name then some (.inl t.text) else t.op?.map .inr

@[simp] theorem opened_append (ts us : List Token) : opened (ts ++ us) = opened ts + opened us :=
  List.countP_append

@[simp] theorem closed_append (ts us : List Token) : closed (ts ++ us) = closed ts + closed us :=
  List.countP_append

@[simp] theorem words_append (ts us : List Token) : words (ts ++ us) = words ts ++ words us := by
  simp [words]

theorem opened_cons (t : Token) (ts : List Token) :
    opened (t :: ts) = (if t.kind = .openParen then 1 else 0) + opened ts := by
  by_cases h : t.kind = .openParen <;> simp [opened, h, Nat.add_comm]

theorem closed_cons (t : Token) (ts : List Token) :
    closed (t :: ts) = (if t.kind = .closeParen then 1 else 0) + closed ts := by
  by_cases h : t.kind = .closeParen <;> simp [closed, h, Nat.add_comm]

@[simp] theorem opened_nil : opened [] = 0 := rfl
@[simp] theorem closed_nil : closed [] = 0 := rfl
@[simp] theorem words_nil : words [] = [] := rfl

theorem words_cons_operator {t : Token} {op : Op} (h : t.op? = some op) (ts : List Token) :
    words (t :: ts) = some (.inr op) :: words ts := by
  simp [words, Token.kind_of_op? h, h]

theorem words_cons_paren {t : Token} (h : t.kind = .openParen ∨ t.kind = .closeParen)
    (ts : List Token) : words (t :: ts) = words ts := by
  rcases h with h | h <;> simp [words, h]

/-- A phrase closes every parenthesis that it opens. -/
theorem Derives.opened_eq_closed {c : Category} {ts : List Token} {e : Expr} (h : Derives c ts e) :
    opened ts = closed ts := by
  induction h with
  | name ht => simp [opened_cons, closed_cons, ht]
  | parens hl hr _ ih => simp [opened_cons, closed_cons, hl, hr, ih]; omega
  | factor _ ih => exact ih
  | product _ ht _ _ ihe ihf => simp [opened_cons, closed_cons, Token.kind_of_op? ht, ihe, ihf]
  | summand _ ih => exact ih
  | sum _ ht _ _ ihe ihf => simp [opened_cons, closed_cons, Token.kind_of_op? ht, ihe, ihf]

/-- The tree holds the names and operators of its phrase, in their order. -/
theorem Derives.words_eq {c : Category} {ts : List Token} {e : Expr} (h : Derives c ts e) :
    words ts = e.inorder.map some := by
  induction h with
  | name ht => simp [words, inorder, ht]
  | parens hl hr _ ih => simp [words_cons_paren, hl, hr, ih]
  | factor _ ih => exact ih
  | product _ ht _ _ ihe ihf => simp [words_cons_operator ht, inorder, ihe, ihf]
  | summand _ ih => exact ih
  | sum _ ht _ _ ihe ihf => simp [words_cons_operator ht, inorder, ihe, ihf]

/-- Every leaf of the tree is the text of a name of the phrase. -/
theorem Derives.exists_token_of_mem_names {c : Category} {ts : List Token} {e : Expr}
    (h : Derives c ts e) {n : String} (hn : n ∈ e.names) :
    ∃ t ∈ ts, t.kind = .name ∧ t.text = n := by
  induction h with
  | name ht =>
    rw [names, List.mem_singleton] at hn
    exact ⟨_, List.mem_singleton.mpr rfl, ht, hn.symm⟩
  | parens _ _ _ ih =>
    obtain ⟨t, ht, hk⟩ := ih hn
    exact ⟨t, by simp [ht], hk⟩
  | factor _ ih => exact ih hn
  | summand _ ih => exact ih hn
  | product _ _ _ _ ihe ihf | sum _ _ _ _ ihe ihf =>
    rcases List.mem_append.mp hn with hn | hn
    · obtain ⟨t, ht, hk⟩ := ihe hn
      exact ⟨t, by simp [ht], hk⟩
    · obtain ⟨t, ht, hk⟩ := ihf hn
      exact ⟨t, by simp [ht], hk⟩

theorem Derives.ne_nil {c : Category} {ts : List Token} {e : Expr} (h : Derives c ts e) :
    ts ≠ [] := by
  induction h with
  | name | parens => exact List.cons_ne_nil _ _
  | factor _ ih | summand _ ih => exact ih
  | product | sum => exact List.append_ne_nil_of_right_ne_nil _ (List.cons_ne_nil _ _)

theorem NestsWithin.left {depth : Nat} {ts us : List Token} (h : NestsWithin depth (ts ++ us)) :
    NestsWithin depth ts :=
  fun front hf => h front (hf.trans (List.prefix_append ts us))

/-- What follows a phrase may nest as deep as the whole. -/
theorem NestsWithin.right {depth : Nat} {ts us : List Token} (h : NestsWithin depth (ts ++ us))
    (hb : opened ts = closed ts) : NestsWithin depth us := by
  intro front hf
  have := h (ts ++ front) (by simpa using hf)
  simp only [opened_append, closed_append] at this
  omega

theorem NestsWithin.append {depth : Nat} {ts us : List Token} (ht : NestsWithin depth ts)
    (hb : opened ts = closed ts) (hu : NestsWithin depth us) : NestsWithin depth (ts ++ us) := by
  intro front hf
  rcases List.prefix_or_prefix_of_prefix hf (List.prefix_append ts us) with h | ⟨rest, rfl⟩
  · exact ht front h
  · have := hu rest ((List.prefix_append_right_inj ts).mp hf)
    simp
    omega

/-- A token that is no parenthesis does not change the nesting. -/
theorem NestsWithin.cons {depth : Nat} {t : Token} {ts : List Token}
    (ht : t.kind = .name ∨ t.kind = .operator) (h : NestsWithin depth ts) :
    NestsWithin depth (t :: ts) := by
  intro front hf
  rcases List.prefix_cons_iff.mp hf with rfl | ⟨rest, rfl, hr⟩
  · simp
  · have := h rest hr
    rcases ht with ht | ht <;> simp [opened_cons, closed_cons, ht] <;> omega

theorem nestsWithin_name {depth : Nat} {t : Token} (ht : t.kind = .name) :
    NestsWithin depth [t] :=
  .cons (.inl ht) fun front hf => by simp [List.prefix_nil.mp hf]

theorem NestsWithin.tail {depth : Nat} {t : Token} {ts : List Token}
    (ht : t.kind = .name ∨ t.kind = .operator) (h : NestsWithin depth (t :: ts)) :
    NestsWithin depth ts := by
  intro front hf
  have := h (t :: front) (List.cons_prefix_cons.mpr ⟨rfl, hf⟩)
  cases ht with
  | inl ht =>
    simp only [opened_cons, closed_cons, ht, reduceCtorEq, if_false] at this
    omega
  | inr ht =>
    simp only [opened_cons, closed_cons, ht, reduceCtorEq, if_false] at this
    omega

/-- An operator between a phrase and more does not change the nesting. -/
theorem nestsWithin_join {depth : Nat} {ts us : List Token} {t : Token}
    (hb : opened ts = closed ts) (ht : t.kind = .operator) :
    NestsWithin depth (ts ++ t :: us) ↔ NestsWithin depth ts ∧ NestsWithin depth us :=
  ⟨fun h => ⟨h.left, (h.right hb).tail (.inr ht)⟩, fun h => h.1.append hb (.cons (.inr ht) h.2)⟩

/-- Parentheses around a phrase need one more level. -/
theorem nestsWithin_parens {depth : Nat} {l r : Token} {ts : List Token} (hl : l.kind = .openParen)
    (hr : r.kind = .closeParen) (hb : opened ts = closed ts) :
    NestsWithin depth (l :: (ts ++ [r])) ↔ ∃ inner, depth = inner + 1 ∧ NestsWithin inner ts := by
  constructor
  · intro h
    have h0 := h [l] (by simp)
    simp only [opened_cons, closed_cons, hl, reduceCtorEq, if_true, if_false, opened_nil,
      closed_nil] at h0
    refine ⟨depth - 1, by omega, fun front hf => ?_⟩
    have := h (l :: front)
      (List.cons_prefix_cons.mpr ⟨rfl, hf.trans (List.prefix_append ts [r])⟩)
    simp only [opened_cons, closed_cons, hl, reduceCtorEq, if_true, if_false] at this
    omega
  · rintro ⟨inner, rfl, h⟩ front hf
    rcases List.prefix_cons_iff.mp hf with rfl | ⟨rest, rfl, hrest⟩
    · simp
    · have hclose : NestsWithin inner [r] := by
        intro front hf
        rcases List.prefix_cons_iff.mp hf with rfl | ⟨rest, rfl, hrest⟩
        · simp
        · simp [opened_cons, closed_cons, hr, List.prefix_nil.mp hrest]
      have := h.append hb hclose rest hrest
      simp [opened_cons, closed_cons, hl]
      omega

end PlanarArea.Expr
