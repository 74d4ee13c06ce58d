import Mathlib.Data.List.Induction
import PlanarArea.Proofs.Expr.Acceptance

/-!
# Places in a sentence

Tokens are followed from left to right with no regard to how tightly operators bind. Behind each of
them counts only whether an operand has to come next and which parentheses are open. A sentence of
the grammar leads from the first place, where an operand is wanted, to one where none is and every
parenthesis is closed.
-/
namespace PlanarArea.Expr

/-- A phrase of the loosest category with some tree. -/
def Sentence (ts : List Token) : Prop :=
  ∃ e, Derives .expr ts e

/-- The operator tokens. -/
def operatorCount (ts : List Token) : Nat :=
  ts.countP (·.kind = .operator)

/-- The open parentheses behind one more token. -/
def track (us : List Token) (t : Token) : List Token :=
  match t.kind with
  | .openParen => t :: us
  | .closeParen => us.tail
  | _ => us

/-- The parentheses that the tokens leave open, the innermost first. -/
def unclosed (ts : List Token) : List Token :=
  ts.foldl track []

/-- An operand has to come next: the tokens are none or end with an operator or an opening
parenthesis. -/
def NeedsOperand (ts : List Token) : Prop :=
  ∀ t, ts.getLast? = some t → t.kind = .operator ∨ t.kind = .openParen

structure Place where
  /-- An operand has to come next. -/
  wanting : Bool
  /-- The parentheses that are open, the innermost first. -/
  unclosed : List Token
deriving DecidableEq, Repr

namespace Place

def start : Place := ⟨true, []⟩

def finish : Place := ⟨false, []⟩

/-- The place behind one more token, if the token may stand here. -/
def step? (p : Place) (t : Token) : Option Place :=
  match p, t.kind with
  | ⟨true, us⟩, .name => some ⟨false, us⟩
  | ⟨true, us⟩, .openParen => some ⟨true, t :: us⟩
  | ⟨false, us⟩, .operator => t.op?.map fun _ => ⟨true, us⟩
  | ⟨false, _ :: us⟩, .closeParen => some ⟨false, us⟩
  | _, _ => none

/-- The place behind the tokens, if each of them may stand where it does. -/
def walk? (p : Place) (ts : List Token) : Option Place :=
  ts.foldlM step? p

variable {p q : Place} {t : Token} {ts us : List Token} {op : Op}

theorem step?_name (h : t.kind = .name) : step? ⟨true, us⟩ t = some ⟨false, us⟩ := by
  simp only [step?, h]

theorem step?_openParen (h : t.kind = .openParen) :
    step? ⟨true, us⟩ t = some ⟨true, t :: us⟩ := by
  simp only [step?, h]

theorem step?_operator (h : t.op? = some op) : step? ⟨false, us⟩ t = some ⟨true, us⟩ := by
  simp only [step?, Token.kind_of_op? h, h, Option.map_some]

theorem step?_closeParen {l : Token} (h : t.kind = .closeParen) :
    step? ⟨false, l :: us⟩ t = some ⟨false, us⟩ := by
  simp only [step?, h]

/-- Everything that a step can be. -/
theorem step?_cases (h : p.step? t = some q) :
    (∃ us, t.kind = .name ∧ p = ⟨true, us⟩ ∧ q = ⟨false, us⟩) ∨
    (∃ us, t.kind = .openParen ∧ p = ⟨true, us⟩ ∧ q = ⟨true, t :: us⟩) ∨
    (∃ us op, t.op? = some op ∧ p = ⟨false, us⟩ ∧ q = ⟨true, us⟩) ∨
    ∃ l us, t.kind = .closeParen ∧ p = ⟨false, l :: us⟩ ∧ q = ⟨false, us⟩ := by
  unfold step? at h
  split at h
  · rename_i us hk
    cases h
    exact .inl ⟨us, hk, rfl, rfl⟩
  · rename_i us hk
    cases h
    exact .inr (.inl ⟨us, hk, rfl, rfl⟩)
  · rename_i us hk
    obtain ⟨op, hop, rfl⟩ := Option.map_eq_some_iff.mp h
    exact .inr (.inr (.inl ⟨us, op, hop, rfl, rfl⟩))
  · rename_i l us hk
    cases h
    exact .inr (.inr (.inr ⟨l, us, hk, rfl, rfl⟩))
  · cases h

@[simp] theorem walk?_nil : p.walk? [] = some p := rfl

theorem walk?_cons : p.walk? (t :: ts) = (p.step? t).bind (·.walk? ts) :=
  List.foldlM_cons

theorem walk?_append : p.walk? (ts ++ us) = (p.walk? ts).bind (·.walk? us) :=
  List.foldlM_append

theorem walk?_cons_of_step (h : p.step? t = some q) : p.walk? (t :: ts) = q.walk? ts := by
  rw [walk?_cons, h, Option.bind_some]

theorem walk?_append_of_walk (h : p.walk? ts = some q) : p.walk? (ts ++ us) = q.walk? us := by
  rw [walk?_append, h, Option.bind_some]

/-- Whoever gets past `ts ++ us` gets past `ts`. -/
theorem exists_walk_of_append (h : p.walk? (ts ++ us) = some q) :
    ∃ r, p.walk? ts = some r ∧ r.walk? us = some q := by
  rw [walk?_append] at h
  exact Option.bind_eq_some_iff.mp h

/-- The last token of a walk is a step. -/
theorem exists_step_of_walk_concat (h : p.walk? (ts ++ [t]) = some q) :
    ∃ r, p.walk? ts = some r ∧ r.step? t = some q := by
  obtain ⟨r, hr, ht⟩ := exists_walk_of_append h
  rw [walk?_cons, Option.bind_eq_some_iff] at ht
  obtain ⟨q', hq', hnil⟩ := ht
  cases hnil
  exact ⟨r, hr, hq'⟩

/-- The place keeps the open parentheses. -/
theorem unclosed_of_step (h : p.step? t = some q) : q.unclosed = track p.unclosed t := by
  obtain ⟨us, hk, rfl, rfl⟩ | ⟨us, hk, rfl, rfl⟩ | ⟨us, op, hop, rfl, rfl⟩ |
    ⟨l, us, hk, rfl, rfl⟩ := step?_cases h
  · simp only [track, hk]
  · simp only [track, hk]
  · simp only [track, Token.kind_of_op? hop]
  · simp only [track, hk, List.tail_cons]

theorem unclosed_of_walk (h : p.walk? ts = some q) : q.unclosed = ts.foldl track p.unclosed := by
  induction ts generalizing p with
  | nil =>
    cases h
    rfl
  | cons t ts ih =>
    rw [walk?_cons, Option.bind_eq_some_iff] at h
    obtain ⟨r, hr, hq⟩ := h
    rw [List.foldl_cons, ← unclosed_of_step hr]
    exact ih hq

/-- Of the parentheses that are opened, those that are not closed are kept. -/
theorem opened_of_walk (h : p.walk? ts = some q) :
    p.unclosed.length + opened ts = q.unclosed.length + closed ts := by
  induction ts generalizing p with
  | nil =>
    cases h
    rfl
  | cons t ts ih =>
    rw [walk?_cons, Option.bind_eq_some_iff] at h
    obtain ⟨r, hr, hq⟩ := h
    have hrest := ih hq
    rw [opened_cons, closed_cons]
    obtain ⟨us, hk, rfl, rfl⟩ | ⟨us, hk, rfl, rfl⟩ | ⟨us, op, hop, rfl, rfl⟩ |
      ⟨l, us, hk, rfl, rfl⟩ := step?_cases hr
    · simp [hk]
      exact hrest
    · simp only [List.length_cons, hk, if_true, reduceCtorEq, if_false] at hrest ⊢
      omega
    · simp [Token.kind_of_op? hop]
      exact hrest
    · simp only [List.length_cons, hk, if_true, reduceCtorEq, if_false] at hrest ⊢
      omega

/-- The last token says whether an operand has to come next. -/
theorem wanting_iff_of_walk (h : start.walk? ts = some p) :
    p.wanting = true ↔ NeedsOperand ts := by
  cases ts using List.reverseRecOn with
  | nil =>
    cases h
    simp [NeedsOperand, start]
  | append_singleton front t =>
    obtain ⟨r, -, ht⟩ := exists_step_of_walk_concat h
    simp only [NeedsOperand, List.getLast?_concat, Option.some.injEq, forall_eq']
    obtain ⟨us, hk, -, rfl⟩ | ⟨us, hk, -, rfl⟩ | ⟨us, op, hop, -, rfl⟩ | ⟨l, us, hk, -, rfl⟩ :=
      step?_cases ht
    · simp [hk]
    · simp [hk]
    · simp [Token.kind_of_op? hop]
    · simp [hk]

/-- What stands behind an open parenthesis is a walk from the first place on. -/
theorem exists_walk_behind_unclosed {b : Bool} {inner outer : List Token} {l : Token}
    (h : start.walk? ts = some ⟨b, inner ++ l :: outer⟩) :
    ∃ before after, ts = before ++ l :: after ∧ l.kind = .openParen ∧
      start.walk? after = some ⟨b, inner⟩ := by
  induction ts using List.reverseRecOn generalizing b inner with
  | nil => simp [start] at h
  | append_singleton front t ih =>
    have extend {b' : Bool} (inner' : List Token)
        (hfront : start.walk? front = some ⟨b', inner' ++ l :: outer⟩)
        (hstep : step? ⟨b', inner'⟩ t = some ⟨b, inner⟩) :
        ∃ before after, front ++ [t] = before ++ l :: after ∧ l.kind = .openParen ∧
          start.walk? after = some ⟨b, inner⟩ := by
      obtain ⟨before, after, rfl, hl, hafter⟩ := ih hfront
      refine ⟨before, after ++ [t], by simp, hl, ?_⟩
      rw [walk?_append_of_walk hafter, walk?_cons_of_step hstep, walk?_nil]
    obtain ⟨r, hr, ht⟩ := exists_step_of_walk_concat h
    obtain ⟨us, hk, rfl, hq⟩ | ⟨us, hk, rfl, hq⟩ | ⟨us, op, hop, rfl, hq⟩ |
      ⟨m, us, hk, rfl, hq⟩ := step?_cases ht
    · cases hq
      exact extend inner hr (step?_name hk)
    · cases inner with
      | nil =>
        cases hq
        exact ⟨front, [], rfl, hk, rfl⟩
      | cons m inner =>
        cases hq
        exact extend inner hr (step?_openParen hk)
    · cases hq
      exact extend inner hr (step?_operator hop)
    · -- The closing parenthesis belongs to one that was opened behind `l`.
      cases hq
      exact extend (m :: inner) hr (step?_closeParen hk)

end Place

@[simp] theorem operatorCount_nil : operatorCount [] = 0 := rfl

theorem operatorCount_cons (t : Token) (ts : List Token) :
    operatorCount (t :: ts) = (if t.kind = .operator then 1 else 0) + operatorCount ts := by
  by_cases h : t.kind = .operator <;> simp [operatorCount, h, Nat.add_comm]

@[simp] theorem operatorCount_append (ts us : List Token) :
    operatorCount (ts ++ us) = operatorCount ts + operatorCount us :=
  List.countP_append

theorem height_le_opCount (e : Expr) : e.height ≤ e.opCount := by
  induction e with
  | name text => exact Nat.le_refl 0
  | binary op left right ihl ihr =>
    simp only [height, opCount]
    omega

namespace Derives

open Place

variable {c : Category} {ts : List Token} {e : Expr}

/-- A phrase is the operand that was wanted, and closes what it opens. -/
theorem walk? (h : Derives c ts e) (us : List Token) :
    Place.walk? ⟨true, us⟩ ts = some ⟨false, us⟩ := by
  induction h generalizing us with
  | name ht => rw [walk?_cons_of_step (step?_name ht), walk?_nil]
  | parens hl hr _ ih =>
    rw [walk?_cons_of_step (step?_openParen hl), walk?_append_of_walk (ih _),
      walk?_cons_of_step (step?_closeParen hr), walk?_nil]
  | factor _ ih => exact ih us
  | summand _ ih => exact ih us
  | product _ ht _ _ ihe ihf | sum _ ht _ _ ihe ihf =>
    rw [walk?_append_of_walk (ihe us), walk?_cons_of_step (step?_operator ht), ihf us]

theorem operatorCount_eq (h : Derives c ts e) : operatorCount ts = e.opCount := by
  induction h with
  | name ht => simp [operatorCount_cons, ht, opCount]
  | parens hl hr _ ih => simp [operatorCount_cons, hl, hr, ih]
  | factor _ ih => exact ih
  | summand _ ih => exact ih
  | product _ ht _ _ ihe ihf | sum _ ht _ _ ihe ihf =>
    simp [operatorCount_cons, Token.kind_of_op? ht, ihe, ihf, opCount]
    omega

/-- A tree is no higher than its phrase has operators. -/
theorem height_le (h : Derives c ts e) : e.height ≤ operatorCount ts :=
  h.operatorCount_eq ▸ height_le_opCount e

end Derives

end PlanarArea.Expr
