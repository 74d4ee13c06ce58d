import PlanarArea.Expr.Parse

/-!
# The steps of the expression reader

One equation for each way in which `expression`, `operators` and `operand` go on. Later proofs
about the reader cite these equations and do not open the three functions.
-/
namespace PlanarArea

/-- The operator that comes next. -/
def Token.nextOp? (ts : List Token) : Option Op :=
  ts.head?.bind Token.op?

@[simp] theorem Token.nextOp?_nil : Token.nextOp? [] = none := rfl
@[simp] theorem Token.nextOp?_cons (t : Token) (ts : List Token) :
    Token.nextOp? (t :: ts) = t.op? := rfl

theorem Token.op?_eq_none_of_kind {t : Token} (h : t.kind ≠ .operator) : t.op? = none := by
  unfold Token.op?
  split
  · contradiction
  · rfl

theorem Token.kind_of_op? {t : Token} {op : Op} (h : t.op? = some op) : t.kind = .operator := by
  by_cases hk : t.kind = .operator
  · exact hk
  · rw [Token.op?_eq_none_of_kind hk] at h
    contradiction

theorem Token.length_lt_cons (t : Token) (ts : List Token) : ts.length < (t :: ts).length :=
  Nat.lt_succ_self ts.length

theorem Parsed.shorter_join {ts after : List Token} {t : Token} (left : Parsed ts)
    (h : left.rest = t :: after) (right : Parsed after) : right.rest.length < ts.length := by
  have hleft := left.shorter
  have hright := right.shorter
  rw [h, List.length_cons] at hleft
  omega

theorem Parsed.shorter_close {after rest : List Token} {close : Token} (inner : Parsed after)
    (h : inner.rest = close :: rest) (t : Token) : rest.length < (t :: after).length := by
  have hinner := inner.shorter
  rw [h, List.length_cons] at hinner
  rw [List.length_cons]
  omega

/-- The expression that `left` and the operator and operand after it make. -/
def Parsed.join {ts after : List Token} {t : Token} (left : Parsed ts) (op : Op)
    (h : left.rest = t :: after) (right : Parsed after) : Parsed ts where
  expr := .binary op left.expr right.expr
  height := 1 + max left.height right.height
  rest := right.rest
  shorter := shorter_join left h right

namespace Expr

variable {limit room minPrec : Nat} {ts after : List Token} {t : Token} {op : Op}
  {left : Parsed ts} {right : Parsed after} {e : ParseError}

theorem expression_of_error (h : operand limit room ts = .error e) :
    expression limit room minPrec ts = .error e := by
  rw [expression, h]

theorem expression_of_ok (h : operand limit room ts = .ok left) :
    expression limit room minPrec ts = operators limit room minPrec ts left := by
  rw [expression, h]

/-- The reader stops where no operator of the wanted precedence comes next. -/
theorem operators_of_stop (h : ∀ op, Token.nextOp? left.rest = some op → op.precedence < minPrec) :
    operators limit room minPrec ts left = .ok left := by
  rw [operators]
  split
  · rfl
  · rename_i t after hr
    rw [hr, Token.nextOp?_cons] at h
    cases ho : t.op? with
    | none => rfl
    | some op => simp only [if_pos (h op ho)]

/-- An operator that binds less tightly than wanted is left where it is. -/
theorem operators_of_looser (h : left.rest = t :: after) (ho : t.op? = some op)
    (hp : op.precedence < minPrec) : operators limit room minPrec ts left = .ok left := by
  refine operators_of_stop fun op' ho' => ?_
  rw [h, Token.nextOp?_cons, ho] at ho'
  cases ho'
  exact hp

theorem operators_of_error (h : left.rest = t :: after) (ho : t.op? = some op)
    (hp : minPrec ≤ op.precedence)
    (he : expression limit room (op.precedence + 1) after = .error e) :
    operators limit room minPrec ts left = .error e := by
  rw [operators]
  split
  · rename_i hnil
    cases h.symm.trans hnil
  · rename_i t' after' hr
    obtain ⟨rfl, rfl⟩ : t' = t ∧ after' = after := by simpa [hr] using h
    simp only [ho, if_neg (Nat.not_lt.mpr hp), he]

theorem operators_of_ok (h : left.rest = t :: after) (ho : t.op? = some op)
    (hp : minPrec ≤ op.precedence)
    (hr : expression limit room (op.precedence + 1) after = .ok right) :
    operators limit room minPrec ts left =
      if limit < 1 + max left.height right.height then .error (.tooDeep limit)
      else operators limit room minPrec ts (left.join op h right) := by
  rw [operators]
  split
  · rename_i hnil
    cases h.symm.trans hnil
  · rename_i t' after' hr'
    obtain ⟨rfl, rfl⟩ : t' = t ∧ after' = after := by simpa [hr'] using h
    simp only [ho, if_neg (Nat.not_lt.mpr hp), hr]
    rfl

theorem operand_of_name (h : t.kind = .name) :
    operand limit room (t :: after) =
      .ok ⟨.name t.text, 0, after, Token.length_lt_cons t after⟩ := by
  simp only [operand.eq_def, h]

theorem operand_of_operator (h : t.kind = .operator) :
    operand limit room (t :: after) = .error (.unexpectedOperator t.symbol t.pos) := by
  simp only [operand.eq_def, h]

theorem operand_of_closeParen (h : t.kind = .closeParen) :
    operand limit room (t :: after) = .error (.unexpectedCloseParen t.pos) := by
  simp only [operand.eq_def, h]

/-- No parenthesis may be opened any more. -/
theorem operand_of_full (h : t.kind = .openParen) :
    operand limit 0 (t :: after) = .error (.tooDeep limit) := by
  rw [operand, h]

theorem operand_of_error (h : t.kind = .openParen)
    (he : expression limit room 1 after = .error e) :
    operand limit (room + 1) (t :: after) = .error e := by
  rw [operand, h]
  simp only [he]

theorem operand_of_closed {close : Token} {rest : List Token} (h : t.kind = .openParen)
    (hi : expression limit room 1 after = .ok right) (hr : right.rest = close :: rest)
    (hc : close.kind = .closeParen) (hs : rest.length < (t :: after).length) :
    operand limit (room + 1) (t :: after) = .ok ⟨right.expr, right.height, rest, hs⟩ := by
  rw [operand, h]
  simp only [hi]
  split
  · rename_i hnil
    cases hr.symm.trans hnil
  · rename_i close' rest' hr'
    obtain ⟨rfl, rfl⟩ : close' = close ∧ rest' = rest := by simpa [hr'] using hr
    simp only [hc]

/-- What follows the expression in parentheses is no closing parenthesis. -/
theorem operand_of_unclosed (h : t.kind = .openParen)
    (hi : expression limit room 1 after = .ok right)
    (hc : ∀ close, right.rest.head? = some close → close.kind ≠ .closeParen) :
    operand limit (room + 1) (t :: after) = .error (.missingCloseParen t.pos) := by
  rw [operand, h]
  simp only [hi]
  split
  · rfl
  · rename_i close rest hr
    split
    · rename_i hk
      exact absurd hk (hc close (by rw [hr]; rfl))
    · rfl

theorem ofTokens_of_error (h : expression limit limit 1 (t :: after) = .error e) :
    ofTokens (t :: after) limit = .error e := by
  simp only [ofTokens, h]

theorem ofTokens_of_ok (h : expression limit limit 1 ts = .ok left) (hr : left.rest = []) :
    ofTokens ts limit = .ok left.expr := by
  cases ts with
  | nil => exact absurd left.shorter (by simp)
  | cons t ts => simp only [ofTokens, h, hr]

theorem ofTokens_of_trailing (h : expression limit limit 1 ts = .ok left)
    (hr : left.rest = t :: after) :
    ofTokens ts limit = .error (.trailingToken t.text t.pos) := by
  cases ts with
  | nil => exact absurd left.shorter (by simp)
  | cons u us => simp only [ofTokens, h, hr]

end Expr

end PlanarArea
