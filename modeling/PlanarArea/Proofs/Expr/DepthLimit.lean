import PlanarArea.Proofs.Expr.Failure

/-!
# The limit on depth

Two readers with different limits go through the same tokens step by step. As long as the one with
the lower limit does not give up for depth, both take the same branch everywhere, also on the way to
an error. So a higher limit changes nothing but the refusals for depth, and a limit that the
parentheses and the operators of the tokens do not exceed refuses nothing for depth.
-/
namespace PlanarArea.Expr

/-- The reader with `more` levels to spare follows the one without, as long as the latter does not
give up for depth. The induction follows its calls; both have the same parentheses open at each. -/
theorem follows_of_add (limit more : Nat) :
    (∀ room minPrec ts, expression limit room minPrec ts ≠ .error (.tooDeep limit) →
      expression (limit + more) (room + more) minPrec ts = expression limit room minPrec ts) ∧
    (∀ room minPrec ts (left : Parsed ts),
      operators limit room minPrec ts left ≠ .error (.tooDeep limit) →
      operators (limit + more) (room + more) minPrec ts left =
        operators limit room minPrec ts left) ∧
    (∀ room ts, operand limit room ts ≠ .error (.tooDeep limit) →
      operand (limit + more) (room + more) ts = operand limit room ts) := by
  apply expression.mutual_induct limit
    (fun room minPrec ts => expression limit room minPrec ts ≠ .error (.tooDeep limit) →
      expression (limit + more) (room + more) minPrec ts = expression limit room minPrec ts)
    (fun room minPrec ts left =>
      operators limit room minPrec ts left ≠ .error (.tooDeep limit) →
      operators (limit + more) (room + more) minPrec ts left =
        operators limit room minPrec ts left)
    (fun room ts => operand limit room ts ≠ .error (.tooDeep limit) →
      operand (limit + more) (room + more) ts = operand limit room ts)
  case case1 =>
    intro room minPrec ts e he ih hdeep
    rw [expression_of_error he] at hdeep ⊢
    have hsame := ih (by simpa [he] using hdeep)
    exact expression_of_error (hsame.trans he)
  case case2 =>
    intro room minPrec ts first hf ihf ih hdeep
    rw [expression_of_ok hf] at hdeep ⊢
    have hsame := ihf (by simp [hf])
    rw [expression_of_ok (hsame.trans hf), ih hdeep]
  case case3 =>
    intro room minPrec ts left hr _
    rw [operators_of_stop (by simp [hr]), operators_of_stop (by simp [hr])]
  case case4 =>
    intro room minPrec ts left t after hr ht _
    rw [operators_of_stop (by simp [hr, ht]), operators_of_stop (by simp [hr, ht])]
  case case5 =>
    intro room minPrec ts left t after hr op ht hlt _
    rw [operators_of_looser hr ht hlt, operators_of_looser hr ht hlt]
  case case6 =>
    intro room minPrec ts left t after hr op ht hge e he ih hdeep
    have hprec := Nat.not_lt.mp hge
    rw [operators_of_error hr ht hprec he] at hdeep ⊢
    have hsame := ih (by simpa [he] using hdeep)
    exact operators_of_error hr ht hprec (hsame.trans he)
  case case7 =>
    intro room minPrec ts left t after hr op ht hge right hright height htall _ hdeep
    rw [operators_of_ok hr ht (Nat.not_lt.mp hge) hright, if_pos htall] at hdeep
    exact absurd rfl hdeep
  case case8 =>
    intro room minPrec ts left t after hr op ht hge right hright height hshort ihr ih hdeep
    have hprec := Nat.not_lt.mp hge
    have hshort' : ¬ limit + more < 1 + max left.height right.height :=
      fun htall => hshort (Nat.lt_of_le_of_lt (Nat.le_add_right limit more) htall)
    rw [operators_of_ok hr ht hprec hright, if_neg hshort] at hdeep ⊢
    have hsame := ihr (by simp [hright])
    rw [operators_of_ok hr ht hprec (hsame.trans hright), if_neg hshort']
    exact ih hdeep
  case case9 =>
    intro room _
    rw [operand, operand]
  case case10 =>
    intro room t after ht _
    rw [operand_of_name ht, operand_of_name ht]
  case case11 =>
    intro room t after ht _
    rw [operand_of_operator ht, operand_of_operator ht]
  case case12 =>
    intro room t after ht _
    rw [operand_of_closeParen ht, operand_of_closeParen ht]
  case case13 =>
    intro t after ht hdeep
    exact absurd (operand_of_full ht) hdeep
  case case14 =>
    intro t after ht room e he ih hdeep
    rw [operand_of_error ht he] at hdeep ⊢
    have hsame := ih (by simpa [he] using hdeep)
    rw [Nat.succ_add]
    exact operand_of_error ht (hsame.trans he)
  case case15 =>
    intro t after ht room inner hi hr ih _
    have hsame := ih (by simp [hi])
    rw [Nat.succ_add, operand_of_unclosed ht hi (by simp [hr]),
      operand_of_unclosed ht (hsame.trans hi) (by simp [hr])]
  case case16 =>
    intro t after ht room inner hi close rest hr hc ih _
    have hs := inner.shorter_close hr t
    have hsame := ih (by simp [hi])
    rw [Nat.succ_add, operand_of_closed ht hi hr hc hs,
      operand_of_closed ht (hsame.trans hi) hr hc hs]
  case case17 =>
    intro t after ht room inner hi close rest hr hc ih _
    have hsame := ih (by simp [hi])
    rw [Nat.succ_add, operand_of_unclosed ht hi (by simpa [hr] using hc),
      operand_of_unclosed ht (hsame.trans hi) (by simpa [hr] using hc)]

/-- A higher limit gives the same tree or the same error, unless the lower one was too low. -/
theorem ofTokens_of_le {limit larger : Nat} {ts : List Token} (hle : limit ≤ larger)
    (hdeep : ofTokens ts limit ≠ .error (.tooDeep limit)) :
    ofTokens ts larger = ofTokens ts limit := by
  obtain ⟨more, rfl⟩ := Nat.exists_eq_add_of_le hle
  cases ts with
  | nil => rfl
  | cons t after =>
    have hdeep' : expression limit limit 1 (t :: after) ≠ .error (.tooDeep limit) :=
      fun h => hdeep (ofTokens_of_error h)
    have hsame := (follows_of_add limit more).1 limit 1 (t :: after) hdeep'
    simp only [ofTokens, hsame]

/-- The limit on depth is conservative. Where tokens are not refused as too deep, every higher limit
gives the same tree or the same error; and a limit that is no smaller than the number of opening
parentheses and the number of operators never refuses tokens as too deep. -/
theorem ofTokens_limit_conservative (ts : List Token) (limit : Nat) :
    (∀ larger, limit ≤ larger → ofTokens ts limit ≠ .error (.tooDeep limit) →
      ofTokens ts larger = ofTokens ts limit) ∧
    (opened ts ≤ limit → operatorCount ts ≤ limit →
      ∀ n, ofTokens ts limit ≠ .error (.tooDeep n)) :=
  ⟨fun _ hle hdeep => ofTokens_of_le hle hdeep, ofTokens_ne_tooDeep⟩

/-- The tokens of `A - B ) C`, with a parenthesis too many. -/
def unopened : List Token :=
  [⟨.name, "A", 0⟩, ⟨.operator, "-", 2⟩, ⟨.name, "B", 4⟩, ⟨.closeParen, ")", 6⟩, ⟨.name, "C", 8⟩]

/-- Too deep at limit 0, and at each higher limit the error of limit 1. -/
theorem ofTokens_limit_conservative_unopened :
    ofTokens unopened 0 = .error (.tooDeep 0) ∧
    ofTokens unopened 256 = .error (.trailingToken ")" 6) ∧
    (∀ n, ofTokens unopened 1 ≠ .error (.tooDeep n)) := by
  have hread : ofTokens unopened 1 = .error (.trailingToken ")" 6) := by cbv
  have hdeep : ofTokens unopened 1 ≠ .error (.tooDeep 1) := by simp [hread]
  have hsame := (ofTokens_limit_conservative unopened 1).1 256 (by decide) hdeep
  exact ⟨by cbv, hsame.trans hread,
    (ofTokens_limit_conservative unopened 1).2 (by decide) (by decide)⟩

end PlanarArea.Expr
