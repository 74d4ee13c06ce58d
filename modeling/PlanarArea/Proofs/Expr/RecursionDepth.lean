import PlanarArea.Eval.Value
import PlanarArea.Proofs.Expr.Acceptance

/-!
# How deep reading and folding descend

A second reader hands a budget of nested calls down its recursion, one unit less at each call of
`expression`, and logs its calls. With three units for each level of the limit and three more it
agrees with the first reader on every token list. Three, since each right operand is read at a
higher precedence than its operator and only a parenthesis starts again at the lowest.

A tree that is read is no higher than the limit, which bounds the descent of the fold.
-/
namespace PlanarArea

namespace Expr

/-- A call of `expression` or `operand`: the parentheses that are open at it, and the tree that it
returns, if it returns one. -/
structure Call where
  nesting : Nat
  tree? : Option Expr

/-- What a reader with a budget does: the calls that it makes, and its result, none if the budget
runs out. -/
structure Run (β : Type) where
  calls : List Call
  result? : Option (Except ParseError β)

namespace Run

variable {β γ : Type}

def done (x : Except ParseError β) : Run β :=
  ⟨[], some x⟩

def exhausted : Run β :=
  ⟨[], none⟩

/-- Goes on with the result, unless it is an error or the budget ran out. -/
def andThen (run : Run β) (next : β → Run γ) : Run γ :=
  match run.result? with
  | none => ⟨run.calls, none⟩
  | some (.error e) => ⟨run.calls, some (.error e)⟩
  | some (.ok b) => ⟨run.calls ++ (next b).calls, (next b).result?⟩

/-- Logs the run as that of one call. -/
def asCall {ts : List Token} (nesting : Nat) (run : Run (Parsed ts)) : Run (Parsed ts) where
  calls := ⟨nesting, run.result?.bind fun x => x.toOption.map Parsed.expr⟩ :: run.calls
  result? := run.result?

end Run

/-- The expression `inner` in parentheses, of which `t` is the opening one. -/
def close {after : List Token} (t : Token) (inner : Parsed after) :
    Except ParseError (Parsed (t :: after)) :=
  match h : inner.rest with
  | [] => .error (.missingCloseParen t.pos)
  | close :: rest =>
    match close.kind with
    | .closeParen => .ok ⟨inner.expr, inner.height, rest, inner.shorter_close h t⟩
    | _ => .error (.missingCloseParen t.pos)

mutual

/-- `expression` with a budget: it spends one unit and hands the rest to each of its callees. The
open parentheses are counted up. -/
def expressionWithin (limit budget nesting minPrec : Nat) (ts : List Token) : Run (Parsed ts) :=
  match budget with
  | 0 => .exhausted
  | budget + 1 => .asCall nesting <|
    (operandWithin limit budget nesting ts).andThen fun first =>
      operatorsWithin limit budget nesting minPrec ts first
termination_by (ts.length, 2)
decreasing_by
  · apply Prod.Lex.right; decide
  · exact Prod.Lex.left _ _ first.shorter

/-- `operators`, the loop of `expression`, with what it hands to each right operand. -/
def operatorsWithin (limit budget nesting minPrec : Nat) (ts : List Token) (left : Parsed ts) :
    Run (Parsed ts) :=
  match h : left.rest with
  | [] => .done (.ok left)
  | t :: after =>
    match t.op? with
    | none => .done (.ok left)
    | some op =>
      if op.precedence < minPrec then .done (.ok left)
      else (expressionWithin limit budget nesting (op.precedence + 1) after).andThen fun right =>
        if limit < 1 + max left.height right.height then .done (.error (.tooDeep limit))
        else operatorsWithin limit budget nesting minPrec ts (left.join op h right)
termination_by (left.rest.length, 3)
decreasing_by
  all_goals have := left.shorter; simp [h] at *
  · apply Prod.Lex.left; omega
  · apply Prod.Lex.left; have := right.shorter; simp [Parsed.join]; omega

/-- `operand`, which hands its own budget on. -/
def operandWithin (limit budget nesting : Nat) (ts : List Token) : Run (Parsed ts) :=
  .asCall nesting <| match ts with
  | [] => .done (.error .unexpectedEnd)
  | t :: after =>
    match t.kind with
    | .name => .done (.ok ⟨.name t.text, 0, after, Token.length_lt_cons t after⟩)
    | .operator => .done (.error (.unexpectedOperator t.symbol t.pos))
    | .closeParen => .done (.error (.unexpectedCloseParen t.pos))
    | .openParen =>
      if limit ≤ nesting then .done (.error (.tooDeep limit))
      else (expressionWithin limit budget (nesting + 1) 1 after).andThen fun inner =>
        .done (close t inner)
termination_by (ts.length, 1)

end

/-- The expression of all tokens, which must leave no rest. -/
def whole {ts : List Token} (parsed : Parsed ts) : Except ParseError Expr :=
  match parsed.rest with
  | [] => .ok parsed.expr
  | t :: _ => .error (.trailingToken t.text t.pos)

/-- `ofTokens` with a budget. -/
def ofTokensWithin (budget : Nat) (ts : List Token) (limit : Nat) : Run Expr :=
  match ts with
  | [] => .done (.error .emptyExpression)
  | _ => (expressionWithin limit budget 0 1 ts).andThen fun parsed => .done (whole parsed)

/-- The run has this result, with all calls and all trees that they return within the limit. -/
structure Run.Agrees {β : Type} (limit : Nat) (run : Run β) (x : Except ParseError β) : Prop where
  result : run.result? = some x
  nesting_le : ∀ c ∈ run.calls, c.nesting ≤ limit
  height_le : ∀ c ∈ run.calls, ∀ e, c.tree? = some e → e.height ≤ limit

namespace Run.Agrees

variable {β γ : Type} {limit nesting : Nat}

theorem done (x : Except ParseError β) : (Run.done x).Agrees limit x :=
  ⟨rfl, nofun, nofun⟩

theorem andThen {run : Run β} {x : Except ParseError β} {next : β → Run γ}
    {f : β → Except ParseError γ} (h : run.Agrees limit x)
    (hnext : ∀ b, x = .ok b → (next b).Agrees limit (f b)) :
    (run.andThen next).Agrees limit (x.bind f) := by
  cases x with
  | error e =>
    rw [Run.andThen, h.result]
    exact ⟨rfl, h.nesting_le, h.height_le⟩
  | ok b =>
    have hb := hnext b rfl
    rw [Run.andThen, h.result]
    refine ⟨hb.result, fun c hc => ?_, fun c hc => ?_⟩
    · exact (List.mem_append.mp hc).elim (h.nesting_le c) (hb.nesting_le c)
    · exact (List.mem_append.mp hc).elim (h.height_le c) (hb.height_le c)

theorem asCall {ts : List Token} {run : Run (Parsed ts)} {x : Except ParseError (Parsed ts)}
    (h : run.Agrees limit x) (hnesting : nesting ≤ limit)
    (hheight : ∀ p, x = .ok p → p.expr.height ≤ limit) : (run.asCall nesting).Agrees limit x where
  result := h.result
  nesting_le c hc := by
    obtain rfl | hc := List.mem_cons.mp hc
    · exact hnesting
    · exact h.nesting_le c hc
  height_le c hc e he := by
    obtain rfl | hc := List.mem_cons.mp hc
    · simp only [h.result, Option.bind_some] at he
      cases x with
      | error err => cases he
      | ok p =>
        cases he
        exact hheight p rfl
    · exact h.height_le c hc e he

end Run.Agrees

section Steps

variable {limit budget nesting room minPrec : Nat} {ts after : List Token} {t : Token} {op : Op}
  {left : Parsed ts}

theorem expression_eq_bind : expression limit room minPrec ts =
    (operand limit room ts).bind (operators limit room minPrec ts) := by
  cases h : operand limit room ts with
  | error e => exact expression_of_error h
  | ok first => exact expression_of_ok h

theorem operators_eq_bind (h : left.rest = t :: after) (ho : t.op? = some op)
    (hp : minPrec ≤ op.precedence) : operators limit room minPrec ts left =
      (expression limit room (op.precedence + 1) after).bind fun right =>
        if limit < 1 + max left.height right.height then .error (.tooDeep limit)
        else operators limit room minPrec ts (left.join op h right) := by
  cases hright : expression limit room (op.precedence + 1) after with
  | error e => exact operators_of_error h ho hp hright
  | ok right => exact operators_of_ok h ho hp hright

theorem operand_eq_bind (h : t.kind = .openParen) : operand limit (room + 1) (t :: after) =
    (expression limit room 1 after).bind (close t) := by
  cases hi : expression limit room 1 after with
  | error e => exact operand_of_error h hi
  | ok inner =>
    simp only [Except.bind, close]
    split
    · rename_i hr
      exact operand_of_unclosed h hi (by simp [hr])
    · rename_i c rest hr
      split
      · rename_i hc
        exact operand_of_closed h hi hr hc (inner.shorter_close hr t)
      · rename_i hc
        exact operand_of_unclosed h hi (by simpa [hr] using hc)

theorem operatorsWithin_of_stop
    (h : ∀ op, Token.nextOp? left.rest = some op → op.precedence < minPrec) :
    operatorsWithin limit budget nesting minPrec ts left = .done (.ok left) := by
  rw [operatorsWithin]
  split
  · rfl
  · rename_i t after hr
    rw [hr, Token.nextOp?_cons] at h
    cases ho : t.op? with
    | none => rfl
    | some op => simp only [if_pos (h op ho)]

theorem operatorsWithin_of_op (h : left.rest = t :: after) (ho : t.op? = some op)
    (hp : minPrec ≤ op.precedence) : operatorsWithin limit budget nesting minPrec ts left =
      (expressionWithin limit budget nesting (op.precedence + 1) after).andThen fun right =>
        if limit < 1 + max left.height right.height then .done (.error (.tooDeep limit))
        else operatorsWithin limit budget nesting minPrec ts (left.join op h right) := by
  rw [operatorsWithin]
  split
  · rename_i hr
    cases h.symm.trans hr
  · rename_i t' after' hr
    obtain ⟨rfl, rfl⟩ : t' = t ∧ after' = after := by simpa [hr] using h
    simp only [ho, if_neg (Nat.not_lt.mpr hp)]

/-- Where `operators` stops, so does the reader with a budget. -/
theorem Run.Agrees.stop
    (h : ∀ op, Token.nextOp? left.rest = some op → op.precedence < minPrec) :
    (operatorsWithin limit budget nesting minPrec ts left).Agrees limit
      (operators limit room minPrec ts left) := by
  rw [operatorsWithin_of_stop h, operators_of_stop h]
  exact .done _

theorem ofTokens_eq_bind :
    ofTokens (t :: after) limit = (expression limit limit 1 (t :: after)).bind whole := by
  cases h : expression limit limit 1 (t :: after) with
  | error e => exact ofTokens_of_error h
  | ok parsed =>
    simp only [Except.bind, whole]
    split
    · exact ofTokens_of_ok h ‹_›
    · exact ofTokens_of_trailing h ‹_›

theorem height_le_of_expression {p : Parsed ts} (hmin : minPrec ≤ 3)
    (h : expression limit room minPrec ts = .ok p) : p.expr.height ≤ limit := by
  obtain ⟨⟨c, -, hread⟩, -⟩ := (finished_of_ok limit).1 room minPrec ts hmin p h
  exact hread.height ▸ hread.short

theorem height_le_of_operand {p : Parsed ts} (h : operand limit room ts = .ok p) :
    p.expr.height ≤ limit := by
  have hread := (finished_of_ok limit).2.2 room ts p h
  exact hread.height ▸ hread.short

end Steps

/-- With three units for each level of parentheses that may still be opened, less the precedences
that are past, the budget lasts. The induction follows the calls of the reader with the budget. -/
theorem agrees_within (limit : Nat) :
    (∀ budget nesting minPrec ts, ∀ room, nesting + room = limit → minPrec ≤ 3 →
      3 * room + 4 ≤ budget + minPrec →
      (expressionWithin limit budget nesting minPrec ts).Agrees limit
        (expression limit room minPrec ts)) ∧
    (∀ budget nesting minPrec ts (left : Parsed ts), ∀ room, nesting + room = limit →
      3 * room + 3 ≤ budget + minPrec →
      (operatorsWithin limit budget nesting minPrec ts left).Agrees limit
        (operators limit room minPrec ts left)) ∧
    (∀ budget nesting ts, ∀ room, nesting + room = limit → 3 * room ≤ budget →
      (operandWithin limit budget nesting ts).Agrees limit (operand limit room ts)) := by
  apply expressionWithin.mutual_induct limit
    (fun budget nesting minPrec ts => ∀ room, nesting + room = limit → minPrec ≤ 3 →
      3 * room + 4 ≤ budget + minPrec →
      (expressionWithin limit budget nesting minPrec ts).Agrees limit
        (expression limit room minPrec ts))
    (fun budget nesting minPrec ts left => ∀ room, nesting + room = limit →
      3 * room + 3 ≤ budget + minPrec →
      (operatorsWithin limit budget nesting minPrec ts left).Agrees limit
        (operators limit room minPrec ts left))
    (fun budget nesting ts => ∀ room, nesting + room = limit → 3 * room ≤ budget →
      (operandWithin limit budget nesting ts).Agrees limit (operand limit room ts))
  case case1 =>
    intro nesting minPrec ts room _ hmin hbudget
    omega
  case case2 =>
    intro nesting minPrec ts budget ihoperand ihoperators room hroom hmin hbudget
    rw [expressionWithin]
    refine .asCall ?_ (by omega) fun p hp => height_le_of_expression hmin hp
    rw [expression_eq_bind]
    exact (ihoperand room hroom (by omega)).andThen fun first _ =>
      ihoperators first room hroom (by omega)
  case case3 =>
    intro budget nesting minPrec ts left hr room _ _
    exact .stop (by simp [hr])
  case case4 =>
    intro budget nesting minPrec ts left t after hr ho room _ _
    exact .stop (by simp [hr, ho])
  case case5 =>
    intro budget nesting minPrec ts left t after hr op ho hlt room _ _
    exact .stop (by simp [hr, ho, hlt])
  case case6 =>
    intro budget nesting minPrec ts left t after hr op ho hge ihright ih room hroom hbudget
    have hp : minPrec ≤ op.precedence := Nat.not_lt.mp hge
    have hle := precedence_le op
    rw [operatorsWithin_of_op hr ho hp, operators_eq_bind hr ho hp]
    refine (ihright room hroom (by omega) (by omega)).andThen fun right _ => ?_
    by_cases htall : limit < 1 + max left.height right.height
    · rw [if_pos htall, if_pos htall]
      exact .done _
    · rw [if_neg htall, if_neg htall]
      exact ih right room hroom hbudget
  case case7 =>
    intro budget nesting ts ih room hroom hbudget
    rw [operandWithin.eq_def]
    refine .asCall ?_ (by omega) fun p hp => height_le_of_operand hp
    cases ts with
    | nil =>
      rw [operand]
      exact .done _
    | cons t after =>
      cases hk : t.kind with
      | name =>
        simp only [hk, operand_of_name hk]
        exact .done _
      | operator =>
        simp only [hk, operand_of_operator hk]
        exact .done _
      | closeParen =>
        simp only [hk, operand_of_closeParen hk]
        exact .done _
      | openParen =>
        cases room with
        | zero =>
          have hfull : limit ≤ nesting := by omega
          simp only [hk, operand_of_full hk, if_pos hfull]
          exact .done _
        | succ room =>
          have hopen : ¬limit ≤ nesting := by omega
          simp only [hk, operand_eq_bind hk, if_neg hopen]
          exact (ih room (by omega) (by decide) (by omega)).andThen fun _ _ => .done _

theorem ofTokens_agrees_within (ts : List Token) (limit : Nat) :
    (ofTokensWithin (3 * (limit + 1)) ts limit).Agrees limit (ofTokens ts limit) := by
  cases ts with
  | nil => exact .done _
  | cons t after =>
    have hread := (agrees_within limit).1 (3 * (limit + 1)) 0 1 (t :: after) limit (by omega)
      (by decide) (by omega)
    rw [ofTokens_eq_bind]
    exact hread.andThen fun parsed _ => .done _

-- One unit less is too little for `A | B & C` without parentheses: each of the three names is read
-- in a call of its own, inside that of the name before it.
example : (ofTokensWithin 2 [⟨.name, "A", 0⟩, ⟨.operator, "|", 2⟩, ⟨.name, "B", 4⟩,
    ⟨.operator, "&", 6⟩, ⟨.name, "C", 8⟩] 0).result? = none := by
  cbv

end Expr

namespace Value

variable {α : Type} [Scalar α]

/-- `ofExpr` down to `levels` below the root, none if the tree has more. -/
def ofExprWithin (clip : Clipper α) (settings : Settings α) (resolver : Resolver α) :
    Nat → Expr → Option (Except ShapeError (Value α))
  | _, .name name => some (ofExpr clip settings resolver (.name name))
  | 0, .binary .. => none
  | levels + 1, .binary op left right => do
    match ← ofExprWithin clip settings resolver levels left with
    | .error e => some (.error e)
    | .ok l =>
      match ← ofExprWithin clip settings resolver levels right with
      | .error e => some (.error e)
      | .ok r => some (apply clip settings op l r)

theorem ofExprWithin_of_height_le (clip : Clipper α) (settings : Settings α)
    (resolver : Resolver α) {levels : Nat} {e : Expr} (h : e.height ≤ levels) :
    ofExprWithin clip settings resolver levels e = some (ofExpr clip settings resolver e) := by
  induction e generalizing levels with
  | name name => rw [ofExprWithin]
  | binary op left right ihl ihr =>
    rw [Expr.height] at h
    cases levels with
    | zero => omega
    | succ levels =>
      have hl : left.height ≤ levels := by omega
      have hr : right.height ≤ levels := by omega
      rw [ofExprWithin, ofExpr, ihl hl, ihr hr]
      cases ofExpr clip settings resolver left with
      | error f => rfl
      | ok l => cases ofExpr clip settings resolver right <;> rfl

end Value

/-- Within a budget that depends on the limit alone, all tokens are read as `ofTokens` reads them.
No call is inside more parentheses than the limit, no tree that a call returns is higher, and the
fold of the tree that is read goes down at most so many levels. -/
theorem Expr.ofTokens_descent (ts : List Token) (limit : Nat) :
    (ofTokensWithin (3 * (limit + 1)) ts limit).result? = some (ofTokens ts limit) ∧
    (∀ c ∈ (ofTokensWithin (3 * (limit + 1)) ts limit).calls,
      c.nesting ≤ limit ∧ ∀ e, c.tree? = some e → e.height ≤ limit) ∧
    ∀ e, ofTokens ts limit = .ok e → e.height ≤ limit ∧
      ∀ (α : Type) [Scalar α] (clip : Clipper α) (settings : Settings α) (resolver : Resolver α),
        Value.ofExprWithin clip settings resolver limit e =
          some (Value.ofExpr clip settings resolver e) := by
  have hread := ofTokens_agrees_within ts limit
  refine ⟨hread.result, fun c hc => ⟨hread.nesting_le c hc, hread.height_le c hc⟩, ?_⟩
  intro e he
  obtain ⟨-, -, hheight⟩ := derives_of_ofTokens he
  exact ⟨hheight, fun α _ clip settings resolver =>
    Value.ofExprWithin_of_height_le clip settings resolver hheight⟩

end PlanarArea
