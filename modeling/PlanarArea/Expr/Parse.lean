import PlanarArea.Expr.Basic
import PlanarArea.Expr.Token

/-!
From tokens to expression trees.

`expression k` reads the longest expression whose operators outside parentheses bind at least as
tightly as `k`; operators of one precedence associate to the left. Both the nesting of parentheses
and the height of the tree are capped. The first check that fails, from left to right, is the error.
-/
namespace PlanarArea

/-- An expression read from the front of `ts`, at least one token long. -/
structure Parsed (ts : List Token) where
  expr : Expr
  height : Nat
  rest : List Token
  shorter : rest.length < ts.length

namespace Expr

mutual

/-- Reads an expression from the front of `ts` with operators of precedence `minPrec` or more.
`room` is the number of parentheses that may still be opened inside one another. -/
def expression (limit room minPrec : Nat) (ts : List Token) : Except ParseError (Parsed ts) :=
  match operand limit room ts with
  | .error e => .error e
  | .ok first => operators limit room minPrec ts first
termination_by (ts.length, 2)
decreasing_by
  · apply Prod.Lex.right; decide
  · exact Prod.Lex.left _ _ first.shorter

/-- Extends the expression `left`, read from the front of `ts`, by the operators that follow it. -/
def operators (limit room minPrec : Nat) (ts : List Token) (left : Parsed ts) :
    Except ParseError (Parsed ts) :=
  match h : left.rest with
  | [] => .ok left
  | t :: after =>
    match t.op? with
    | none => .ok left
    | some op =>
      if op.precedence < minPrec then .ok left
      else match expression limit room (op.precedence + 1) after with
        | .error e => .error e
        | .ok right =>
          let height := 1 + max left.height right.height
          if limit < height then .error (.tooDeep limit)
          else operators limit room minPrec ts
            { expr := binary op left.expr right.expr
              height := height
              rest := right.rest
              shorter := by have := left.shorter; have := right.shorter; simp [h] at *; omega }
termination_by (left.rest.length, 3)
decreasing_by
  all_goals have := left.shorter; simp [h] at *
  · apply Prod.Lex.left; omega
  · apply Prod.Lex.left; have := right.shorter; omega

/-- Reads a name or an expression in parentheses. -/
def operand (limit room : Nat) (ts : List Token) : Except ParseError (Parsed ts) :=
  match ts with
  | [] => .error .unexpectedEnd
  | t :: after =>
    match t.kind with
    | .name => .ok { expr := .name t.text, height := 0, rest := after, shorter := by simp }
    | .operator => .error (.unexpectedOperator t.symbol t.pos)
    | .closeParen => .error (.unexpectedCloseParen t.pos)
    | .openParen =>
      match room with
      | 0 => .error (.tooDeep limit)
      | room + 1 =>
        match expression limit room 1 after with
        | .error e => .error e
        | .ok inner =>
          match h : inner.rest with
          | [] => .error (.missingCloseParen t.pos)
          | close :: rest =>
            match close.kind with
            | .closeParen =>
              .ok { expr := inner.expr
                    height := inner.height
                    rest := rest
                    shorter := by have := inner.shorter; simp [h] at *; omega }
            | _ => .error (.missingCloseParen t.pos)
termination_by (ts.length, 1)

end

/-- The tree of a complete token list, with nesting and height at most `limit`. -/
def ofTokens (ts : List Token) (limit : Nat) : Except ParseError Expr :=
  match ts with
  | [] => .error .emptyExpression
  | _ =>
    match expression limit limit 1 ts with
    | .error e => .error e
    | .ok parsed =>
      match parsed.rest with
      | [] => .ok parsed.expr
      | t :: _ => .error (.trailingToken t.text t.pos)

/-- Whether every closing parenthesis of the text has an opening one before it and all are closed,
`depth` being open at the start. -/
def balanced (depth : Nat) : List Char → Bool
  | [] => depth = 0
  | '(' :: cs => balanced (depth + 1) cs
  | ')' :: cs => match depth with
    | 0 => false
    | depth + 1 => balanced depth cs
  | _ :: cs => balanced depth cs

/-- Refuses blank texts and texts whose parentheses do not match, whatever else they hold. -/
def check (text : String) : Except ParseError Unit :=
  if Text.allBlank text then .error .emptyExpression
  else if balanced 0 text.toList then .ok ()
  else .error .unbalancedParens

/-- The usual cap on nesting and height. -/
def defaultLimit : Nat := 256

/-- The tree of a text, with nesting and height at most `limit`. -/
def parse (text : String) (limit : Nat) : Except ParseError Expr :=
  match check text with
  | .error e => .error e
  | .ok () =>
    match Token.ofText text with
    | .error e => .error e
    | .ok ts => ofTokens ts limit

end Expr

end PlanarArea
