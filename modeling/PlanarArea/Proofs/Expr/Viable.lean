import PlanarArea.Proofs.Expr.Failure

/-!
# The earliest impossible token

Tokens are viable if more tokens can make a sentence of them. These are exactly the tokens that lead
to some place, since every place can be left by an operand and by closing what is open. A reader
with room enough fails at the first token that ends viability, and its error is the one that the
longest viable prefix and this token call for.
-/
namespace PlanarArea.Expr

open Place

/-- The tokens are the beginning of a sentence. -/
def Viable (ts : List Token) : Prop :=
  ∃ rest, Sentence (ts ++ rest)

/-- Of the beginnings of `ts` that are beginnings of sentences, `front` is the longest. -/
structure LongestViable (front ts : List Token) : Prop where
  begins : front <+: ts
  viable : Viable front
  longest : ∀ other, other <+: ts → Viable other → other.length ≤ front.length

/-- The error that is due where `front` can be prolonged to a sentence, but not by what is at the
start of `rest`. -/
inductive Blames : List Token → List Token → ParseError → Prop
  | ended {front : List Token} (h : NeedsOperand front) : Blames front [] .unexpectedEnd
  | operator {front rest : List Token} {t : Token} (h : NeedsOperand front)
      (ht : t.kind = .operator) :
    Blames front (t :: rest) (.unexpectedOperator t.symbol t.pos)
  | closeParen {front rest : List Token} {t : Token} (h : NeedsOperand front)
      (ht : t.kind = .closeParen) :
    Blames front (t :: rest) (.unexpectedCloseParen t.pos)
  | unclosed {front rest : List Token} {l : Token} (h : ¬ NeedsOperand front)
      (hl : (unclosed front).head? = some l) :
    Blames front rest (.missingCloseParen l.pos)
  | trailing {front rest : List Token} {t : Token} (h : ¬ NeedsOperand front)
      (hnone : unclosed front = []) :
    Blames front (t :: rest) (.trailingToken t.text t.pos)

/-- Tokens that lead from a place to the end of a sentence: a name if an operand is wanted, and a
closing parenthesis for each open one. -/
def Place.completion (p : Place) : List Token :=
  (if p.wanting then [⟨.name, "A", 0⟩] else []) ++ p.unclosed.map fun _ => ⟨.closeParen, ")", 0⟩

theorem Place.walk?_closing (us : List Token) :
    walk? ⟨false, us⟩ (us.map fun _ => ⟨.closeParen, ")", 0⟩) = some finish := by
  induction us with
  | nil => rfl
  | cons l us ih =>
    rw [List.map_cons, walk?_cons_of_step (step?_closeParen rfl)]
    exact ih

/-- From every place there is a way to the end of a sentence. -/
theorem Place.walk?_completion (p : Place) : p.walk? p.completion = some finish := by
  obtain ⟨wanting, us⟩ := p
  cases wanting with
  | false => exact walk?_closing us
  | true =>
    simp only [completion, if_true, List.singleton_append]
    rw [walk?_cons_of_step (step?_name rfl)]
    exact walk?_closing us

variable {front rest ts : List Token} {p : Place} {e : ParseError}

theorem viable_iff_walk : Viable ts ↔ ∃ p, start.walk? ts = some p := by
  constructor
  · rintro ⟨rest, hsentence⟩
    obtain ⟨p, hp, -⟩ := exists_walk_of_append (sentence_iff_walk.mp hsentence)
    exact ⟨p, hp⟩
  · rintro ⟨p, hp⟩
    refine ⟨p.completion, sentence_iff_walk.mpr ?_⟩
    rw [walk?_append_of_walk hp, walk?_completion]

/-- Where a token may not stand, viability ends. -/
theorem longestViable_of_stuck (hwalk : start.walk? front = some p) (hstuck : Stuck p rest e) :
    LongestViable front (front ++ rest) := by
  refine ⟨List.prefix_append front rest, viable_iff_walk.mpr ⟨p, hwalk⟩, ?_⟩
  intro other hother hviable
  obtain ⟨q, hq⟩ := viable_iff_walk.mp hviable
  rcases List.prefix_or_prefix_of_prefix hother (List.prefix_append front rest) with
    hshort | ⟨more, rfl⟩
  · exact hshort.length_le
  · cases more with
    | nil => simp
    | cons t more =>
      obtain ⟨back, rfl⟩ := (List.prefix_append_right_inj front).mp hother
      rw [walk?_append_of_walk hwalk, walk?_cons, hstuck.step?_eq_none] at hq
      cases hq

/-- A place is blamed as the tokens that lead to it are. -/
theorem blames_of_stuck (hwalk : start.walk? front = some p) (hstuck : Stuck p rest e) :
    Blames front rest e := by
  have hneeds := wanting_iff_of_walk hwalk
  have hunclosed : p.unclosed = unclosed front := unclosed_of_walk hwalk
  cases hstuck with
  | ended us => exact .ended (hneeds.mp rfl)
  | operator us rest ht => exact .operator (hneeds.mp rfl) ht
  | closeParen us rest ht => exact .closeParen (hneeds.mp rfl) ht
  | unclosed l us =>
    refine .unclosed (fun h => Bool.false_ne_true (hneeds.mpr h)) ?_
    rw [← hunclosed, List.head?_cons]
  | trailing rest =>
    exact .trailing (fun h => Bool.false_ne_true (hneeds.mpr h)) hunclosed.symm

/-- Tokens that are no sentence are refused, by a reader that is not short of room, for the earliest
token that is impossible. Let `front` be the longest prefix that begins a sentence and `rest` what
follows it. If an operand has to come after `front`, the error is an unexpected end, operator or
closing parenthesis there; otherwise it is the innermost parenthesis that `front` leaves open or, if
there is none, the first token of `rest`. -/
theorem ofTokens_blames {limit : Nat} (hne : ts ≠ []) (hlen : ts.length ≤ limit)
    (h : ofTokens ts limit = .error e) :
    ∃ front rest, ts = front ++ rest ∧ LongestViable front ts ∧ Blames front rest e := by
  have hdeep : e ≠ .tooDeep limit := by
    rintro rfl
    exact ofTokens_length_ne_tooDeep hlen limit h
  obtain ⟨front, rest, p, rfl, hwalk, hstuck⟩ := haltsFrom_of_ofTokens hne h hdeep
  exact ⟨front, rest, rfl, longestViable_of_stuck hwalk hstuck, blames_of_stuck hwalk hstuck⟩

/-- The tokens of `(A - B C)`. -/
def unseparated : List Token :=
  [⟨.openParen, "(", 0⟩, ⟨.name, "A", 1⟩, ⟨.operator, "-", 3⟩, ⟨.name, "B", 5⟩, ⟨.name, "C", 7⟩,
    ⟨.closeParen, ")", 8⟩]

theorem ofTokens_blames_unseparated :
    unseparated ≠ [] ∧ unseparated.length ≤ 6 ∧
    ofTokens unseparated 6 = .error (.missingCloseParen 0) ∧
    ∃ front rest, unseparated = front ++ rest ∧ LongestViable front unseparated ∧
      Blames front rest (.missingCloseParen 0) := by
  have hne : unseparated ≠ [] := List.cons_ne_nil _ _
  have hread : ofTokens unseparated 6 = .error (.missingCloseParen 0) := by cbv
  exact ⟨hne, Nat.le_refl 6, hread, ofTokens_blames hne (Nat.le_refl 6) hread⟩

end PlanarArea.Expr
