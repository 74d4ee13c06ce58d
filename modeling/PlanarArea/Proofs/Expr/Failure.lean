import PlanarArea.Proofs.Expr.Place

/-!
# Why the reader fails

The reader gives up in one of two ways. Either the tokens lead to a place where no sentence goes on
with the next of them, and the error names that place; or they nest too deep or make too high a
tree, which takes more parentheses or more operators than the limit. From this follows that the
places describe the sentences: whatever leads to the last place is read, and so is a sentence.
-/
namespace PlanarArea.Expr

open Place

/-- No sentence goes on with `rest` from the place, and this error says so. -/
inductive Stuck : Place → List Token → ParseError → Prop
  | ended (us : List Token) : Stuck ⟨true, us⟩ [] .unexpectedEnd
  | operator {t : Token} (us rest : List Token) (h : t.kind = .operator) :
    Stuck ⟨true, us⟩ (t :: rest) (.unexpectedOperator t.symbol t.pos)
  | closeParen {t : Token} (us rest : List Token) (h : t.kind = .closeParen) :
    Stuck ⟨true, us⟩ (t :: rest) (.unexpectedCloseParen t.pos)
  | unclosed (l : Token) (us : List Token) {rest : List Token} (hop : Token.nextOp? rest = none)
      (hclose : ∀ t, rest.head? = some t → t.kind ≠ .closeParen) :
    Stuck ⟨false, l :: us⟩ rest (.missingCloseParen l.pos)
  | trailing {t : Token} (rest : List Token) (hop : t.op? = none) :
    Stuck ⟨false, []⟩ (t :: rest) (.trailingToken t.text t.pos)

/-- The tokens lead from the place to one where the rest of them is stuck with the error. -/
def HaltsFrom (p : Place) (ts : List Token) (e : ParseError) : Prop :=
  ∃ front rest q, ts = front ++ rest ∧ p.walk? front = some q ∧ Stuck q rest e

/-- More parentheses are opened than there is room for, or the operators could make a tree of the
given height higher than the limit. -/
def Exceeds (limit room height : Nat) (ts : List Token) : Prop :=
  room < opened ts ∨ limit < height + operatorCount ts

/-- What an error of the reader means for the tokens `ts` that it had still to read, the tree read
before them having the given height. -/
def Fails (limit room height : Nat) (wanting : Bool) (ts : List Token) (e : ParseError) : Prop :=
  (e = .tooDeep limit ∧ Exceeds limit room height ts) ∨ ∀ us, HaltsFrom ⟨wanting, us⟩ ts e

section

variable {limit room height : Nat} {wanting : Bool} {front rest ts : List Token} {p q : Place}
  {e : ParseError} {t : Token}

theorem Stuck.haltsFrom (h : Stuck p ts e) : HaltsFrom p ts e :=
  ⟨[], ts, p, rfl, rfl, h⟩

theorem Stuck.ne_tooDeep (h : Stuck p ts e) : e ≠ .tooDeep limit := by
  cases h <;> exact ParseError.noConfusion

/-- Who is stuck cannot go on. -/
theorem Stuck.step?_eq_none (h : Stuck p (t :: rest) e) : p.step? t = none := by
  cases h with
  | operator us _ hk => simp only [step?, hk]
  | closeParen us _ hk => simp only [step?, hk]
  | unclosed l us hop hclose =>
    have hk := hclose t rfl
    rw [Token.nextOp?_cons] at hop
    cases ht : t.kind with
    | closeParen => exact absurd ht hk
    | operator => simp only [step?, ht, hop, Option.map_none]
    | name => simp only [step?, ht]
    | openParen => simp only [step?, ht]
  | trailing _ hop =>
    cases ht : t.kind with
    | operator => simp only [step?, ht, hop, Option.map_none]
    | _ => simp only [step?, ht]

/-- Who is stuck does not get to the last place. -/
theorem Stuck.walk?_ne_finish (h : Stuck p ts e) : p.walk? ts ≠ some finish := by
  cases ts with
  | nil => cases h <;> simp [finish]
  | cons t rest =>
    rw [walk?_cons, h.step?_eq_none]
    simp

theorem HaltsFrom.walk?_ne_finish (h : HaltsFrom p ts e) : p.walk? ts ≠ some finish := by
  obtain ⟨front, rest, q, rfl, hwalk, hstuck⟩ := h
  rw [walk?_append_of_walk hwalk]
  exact hstuck.walk?_ne_finish

theorem HaltsFrom.of_walk (hwalk : p.walk? front = some q) (h : HaltsFrom q rest e) :
    HaltsFrom p (front ++ rest) e := by
  obtain ⟨middle, back, r, rfl, hmiddle, hstuck⟩ := h
  refine ⟨front ++ middle, back, r, by simp, ?_, hstuck⟩
  rw [walk?_append_of_walk hwalk, hmiddle]

/-- What an error means does not depend on what is read before, if that closes what it opens and
has operators enough for its tree. -/
theorem Fails.behind {height' : Nat} {wanting' : Bool} (front : List Token)
    (h : Fails limit room height wanting rest e)
    (hwalk : ∀ us, walk? ⟨wanting', us⟩ front = some ⟨wanting, us⟩)
    (hheight : height ≤ height' + operatorCount front) :
    Fails limit room height' wanting' (front ++ rest) e := by
  rcases h with ⟨rfl, hexceeds⟩ | hhalts
  · refine .inl ⟨rfl, ?_⟩
    simp only [Exceeds, opened_append, operatorCount_append] at hexceeds ⊢
    omega
  · exact .inr fun us => (hhalts us).of_walk (hwalk us)

theorem Fails.of_stuck (h : ∀ us, Stuck ⟨wanting, us⟩ ts e) :
    Fails limit room height wanting ts e :=
  .inr fun us => (h us).haltsFrom

/-- Inside parentheses there is less room. -/
theorem Fails.openParen (ht : t.kind = .openParen) (h : Fails limit room height true ts e) :
    Fails limit (room + 1) height true (t :: ts) e := by
  rcases h with ⟨rfl, hexceeds⟩ | hhalts
  · refine .inl ⟨rfl, ?_⟩
    simp only [Exceeds, opened_cons, operatorCount_cons, ht] at hexceeds ⊢
    simp
    omega
  · refine .inr fun us => ?_
    have hwalk : walk? ⟨true, us⟩ [t] = some ⟨true, t :: us⟩ := by
      rw [walk?_cons_of_step (step?_openParen ht), walk?_nil]
    exact (hhalts (t :: us)).of_walk hwalk

end

/-- No operator comes after what the reader returns for the loosest precedence. -/
theorem Finished.nextOp?_eq_none {limit room : Nat} {ts : List Token} {p : Parsed ts}
    (h : Finished limit room 1 ts p) : Token.nextOp? p.rest = none := by
  cases hop : Token.nextOp? p.rest with
  | none => rfl
  | some op =>
    have := h.2 op hop
    cases op <;> simp [Op.precedence] at this

/-- What the reader takes off is a walk to the end of an operand, with operators enough for its
tree. -/
theorem Reads.exists_front {limit room : Nat} {c : Category} {ts : List Token} {p : Parsed ts}
    (h : Reads limit room c p) : ∃ front, ts = front ++ p.rest ∧
      (∀ us, walk? ⟨true, us⟩ front = some ⟨false, us⟩) ∧ p.height ≤ operatorCount front := by
  obtain ⟨front, hfront, hder, -⟩ := h.phrase
  exact ⟨front, hfront, hder.walk?, h.height ▸ hder.height_le⟩

theorem Finished.exists_front {limit room minPrec : Nat} {ts : List Token} {p : Parsed ts}
    (h : Finished limit room minPrec ts p) : ∃ front, ts = front ++ p.rest ∧
      (∀ us, walk? ⟨true, us⟩ front = some ⟨false, us⟩) ∧ p.height ≤ operatorCount front := by
  obtain ⟨⟨c, -, hread⟩, -⟩ := h
  exact hread.exists_front

/-- The right operand of an operator, as it is read. -/
theorem finished_of_right {limit room : Nat} {op : Op} {ts : List Token} {p : Parsed ts}
    (h : expression limit room (op.precedence + 1) ts = .ok p) :
    Finished limit room (op.precedence + 1) ts p :=
  (finished_of_ok limit).1 _ _ _ (Nat.succ_le_succ (precedence_le op)) p h

/-- A whole expression, as it is read. -/
theorem finished_of_whole {limit room : Nat} {ts : List Token} {p : Parsed ts}
    (h : expression limit room 1 ts = .ok p) : Finished limit room 1 ts p :=
  (finished_of_ok limit).1 _ _ _ (by decide) p h

/-- A parenthesis that is not closed behind the expression in it. -/
theorem Fails.of_unclosed {limit room : Nat} {t : Token} {after : List Token}
    {inner : Parsed after} {e : ParseError} (ht : t.kind = .openParen)
    (hi : expression limit room 1 after = .ok inner)
    (hclose : ∀ close, inner.rest.head? = some close → close.kind ≠ .closeParen)
    (h : operand limit (room + 1) (t :: after) = .error e) :
    Fails limit (room + 1) 0 true (t :: after) e := by
  rw [operand_of_unclosed ht hi hclose] at h
  cases h
  have hread := finished_of_whole hi
  obtain ⟨front, hfront, hwalk, -⟩ := hread.exists_front
  refine .inr fun us => ⟨t :: front, inner.rest, ⟨false, t :: us⟩, ?_, ?_, ?_⟩
  · rw [List.cons_append, ← hfront]
  · rw [walk?_cons_of_step (step?_openParen ht), hwalk]
  · exact .unclosed t us hread.nextOp?_eq_none hclose

/-- Every error of the reader is accounted for. The induction follows its calls; of the phrases that
it reads on the way only their length and height matter. -/
theorem fails_of_error (limit : Nat) :
    (∀ room minPrec ts e, expression limit room minPrec ts = .error e →
      Fails limit room 0 true ts e) ∧
    (∀ room minPrec ts (left : Parsed ts) e, operators limit room minPrec ts left = .error e →
      Fails limit room left.height false left.rest e) ∧
    (∀ room ts e, operand limit room ts = .error e → Fails limit room 0 true ts e) := by
  apply expression.mutual_induct limit
    (fun room minPrec ts => ∀ e, expression limit room minPrec ts = .error e →
      Fails limit room 0 true ts e)
    (fun room minPrec ts left => ∀ e, operators limit room minPrec ts left = .error e →
      Fails limit room left.height false left.rest e)
    (fun room ts => ∀ e, operand limit room ts = .error e → Fails limit room 0 true ts e)
  case case1 =>
    intro room minPrec ts e he ih e' h
    rw [expression_of_error he] at h
    cases h
    exact ih e he
  case case2 =>
    intro room minPrec ts first hf _ ih e h
    rw [expression_of_ok hf] at h
    obtain ⟨front, hfront, hwalk, hheight⟩ :=
      ((finished_of_ok limit).2.2 _ _ _ hf).exists_front
    rw [hfront]
    refine (ih e h).behind front hwalk ?_
    rwa [Nat.zero_add]
  case case3 =>
    intro room minPrec ts left hr e h
    rw [operators_of_stop (by simp [hr])] at h
    cases h
  case case4 =>
    intro room minPrec ts left t after hr ht e h
    rw [operators_of_stop (by simp [hr, ht])] at h
    cases h
  case case5 =>
    intro room minPrec ts left t after hr op ht hlt e h
    rw [operators_of_looser hr ht hlt] at h
    cases h
  case case6 =>
    intro room minPrec ts left t after hr op ht hge e he ih e' h
    rw [operators_of_error hr ht (Nat.not_lt.mp hge) he] at h
    cases h
    rw [hr]
    refine (ih e he).behind [t] (fun us => ?_) (Nat.zero_le _)
    rw [walk?_cons_of_step (step?_operator ht), walk?_nil]
  case case7 =>
    intro room minPrec ts left t after hr op ht hge right hright height htall ih e h
    rw [operators_of_ok hr ht (Nat.not_lt.mp hge) hright, if_pos htall] at h
    cases h
    obtain ⟨front, hfront, -, hle⟩ := (finished_of_right hright).exists_front
    refine .inl ⟨rfl, .inr ?_⟩
    rw [hr, operatorCount_cons, if_pos (Token.kind_of_op? ht), hfront, operatorCount_append]
    omega
  case case8 =>
    intro room minPrec ts left t after hr op ht hge right hright height hshort _ ih e h
    rw [operators_of_ok hr ht (Nat.not_lt.mp hge) hright, if_neg hshort] at h
    obtain ⟨front, hfront, hwalk, hle⟩ := (finished_of_right hright).exists_front
    rw [hr, hfront]
    refine (ih e h).behind (t :: front) (fun us => ?_) ?_
    · rw [walk?_cons_of_step (step?_operator ht), hwalk]
    · rw [operatorCount_cons, if_pos (Token.kind_of_op? ht)]
      show height ≤ _
      omega
  case case9 =>
    intro room e h
    rw [operand] at h
    cases h
    exact .of_stuck .ended
  case case10 =>
    intro room t after ht e h
    rw [operand_of_name ht] at h
    cases h
  case case11 =>
    intro room t after ht e h
    rw [operand_of_operator ht] at h
    cases h
    exact .of_stuck fun us => .operator us after ht
  case case12 =>
    intro room t after ht e h
    rw [operand_of_closeParen ht] at h
    cases h
    exact .of_stuck fun us => .closeParen us after ht
  case case13 =>
    intro t after ht e h
    rw [operand_of_full ht] at h
    cases h
    refine .inl ⟨rfl, .inl ?_⟩
    rw [opened_cons, if_pos ht]
    omega
  case case14 =>
    intro t after ht room e he ih e' h
    rw [operand_of_error ht he] at h
    cases h
    exact (ih e he).openParen ht
  case case15 =>
    intro t after ht room inner hi hr _ e h
    exact .of_unclosed ht hi (by simp [hr]) h
  case case16 =>
    intro t after ht room inner hi close rest hr hc _ e h
    rw [operand_of_closed ht hi hr hc (inner.shorter_close hr t)] at h
    cases h
  case case17 =>
    intro t after ht room inner hi close rest hr hc _ e h
    exact .of_unclosed ht hi (by simpa [hr] using hc) h

variable {limit : Nat} {ts : List Token} {e : ParseError}

theorem fails_of_ofTokens (hne : ts ≠ []) (h : ofTokens ts limit = .error e) :
    (e = .tooDeep limit ∧ Exceeds limit limit 0 ts) ∨ HaltsFrom start ts e := by
  obtain ⟨t, after, rfl⟩ := List.exists_cons_of_ne_nil hne
  cases hp : expression limit limit 1 (t :: after) with
  | error f =>
    rw [ofTokens_of_error hp] at h
    cases h
    exact ((fails_of_error limit).1 _ _ _ _ hp).imp_right fun hhalts => hhalts []
  | ok p =>
    cases hrest : p.rest with
    | nil =>
      rw [ofTokens_of_ok hp hrest] at h
      cases h
    | cons u us =>
      rw [ofTokens_of_trailing hp hrest] at h
      cases h
      have hread := finished_of_whole hp
      obtain ⟨front, hfront, hwalk, -⟩ := hread.exists_front
      have hop := hread.nextOp?_eq_none
      rw [hrest] at hop hfront
      exact .inr ⟨front, u :: us, finish, hfront, hwalk [], .trailing us hop⟩

/-- An error other than being too deep is one of the place where the tokens halt. -/
theorem haltsFrom_of_ofTokens (hne : ts ≠ []) (h : ofTokens ts limit = .error e)
    (he : e ≠ .tooDeep limit) : HaltsFrom start ts e :=
  (fails_of_ofTokens hne h).resolve_left fun hdeep => he hdeep.1

/-- As many parentheses and operators as the limit are never too deep. -/
theorem ofTokens_ne_tooDeep (hopened : opened ts ≤ limit) (hops : operatorCount ts ≤ limit)
    (n : Nat) : ofTokens ts limit ≠ .error (.tooDeep n) := by
  intro h
  have hne : ts ≠ [] := by
    rintro rfl
    cases h
  rcases fails_of_ofTokens hne h with ⟨-, hexceeds⟩ | ⟨front, rest, q, -, -, hstuck⟩
  · simp only [Exceeds] at hexceeds
    omega
  · exact hstuck.ne_tooDeep rfl

theorem ofTokens_length_ne_tooDeep (hlen : ts.length ≤ limit) (n : Nat) :
    ofTokens ts limit ≠ .error (.tooDeep n) :=
  ofTokens_ne_tooDeep (Nat.le_trans List.countP_le_length hlen)
    (Nat.le_trans List.countP_le_length hlen) n

/-- The sentences are the ways from the first place to the last one. That each such way is a
sentence is seen from the reader, which finds nothing wrong with it. -/
theorem sentence_iff_walk : Sentence ts ↔ start.walk? ts = some finish := by
  constructor
  · rintro ⟨e, hder⟩
    exact hder.walk? []
  · intro hwalk
    have hne : ts ≠ [] := by
      rintro rfl
      cases hwalk
    cases h : ofTokens ts ts.length with
    | ok e => exact ⟨e, (derives_of_ofTokens h).1⟩
    | error e =>
      have hdeep : e ≠ .tooDeep ts.length := by
        rintro rfl
        exact ofTokens_length_ne_tooDeep (Nat.le_refl _) _ h
      exact absurd hwalk (haltsFrom_of_ofTokens hne h hdeep).walk?_ne_finish

end PlanarArea.Expr
