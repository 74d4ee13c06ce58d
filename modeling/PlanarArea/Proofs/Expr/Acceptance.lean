import PlanarArea.Proofs.Expr.Grammar

/-!
# The reader accepts the grammar

Soundness carries through the three mutual functions that the tokens read so far are a phrase, of
a category tight enough for the operator that comes next. Completeness follows the derivation: a
reader that meets a phrase goes on from the end of it as `operators` does.
-/
namespace PlanarArea.Expr

/-- The least precedence of the operators that a phrase has outside parentheses. -/
def Category.floor : Category → Nat
  | expr => 1
  | term => 2
  | primary => 3

/-- The category of the phrases that an operator makes. -/
def Category.ofOp : Op → Category
  | .union | .xor => expr
  | .inter | .diff => term

@[simp] theorem Category.floor_ofOp (op : Op) : (ofOp op).floor = op.precedence := by
  cases op <;> rfl

/-- A phrase of a tighter category is one of each looser category. -/
theorem Derives.weaken {c d : Category} {ts : List Token} {e : Expr} (h : Derives c ts e)
    (hd : d.floor ≤ c.floor) : Derives d ts e := by
  cases c with
  | expr =>
    cases d with
    | expr => exact h
    | term | primary => exact absurd hd (by decide)
  | term =>
    cases d with
    | expr => exact .summand h
    | term => exact h
    | primary => exact absurd hd (by decide)
  | primary =>
    cases d with
    | expr => exact .summand (.factor h)
    | term => exact .factor h
    | primary => exact h

/-- An operator joins a phrase at least as tight as itself to a tighter one. -/
theorem Derives.join {c d : Category} {ts us : List Token} {t : Token} {op : Op} {e f : Expr}
    (he : Derives c ts e) (ht : t.op? = some op) (hc : op.precedence ≤ c.floor)
    (hf : Derives d us f) (hd : op.precedence < d.floor) :
    Derives (.ofOp op) (ts ++ t :: us) (.binary op e f) := by
  cases op with
  | inter => exact .product (he.weaken hc) ht (.inl rfl) (hf.weaken hd)
  | diff => exact .product (he.weaken hc) ht (.inr rfl) (hf.weaken hd)
  | union => exact .sum (he.weaken hc) ht (.inl rfl) (hf.weaken hd)
  | xor => exact .sum (he.weaken hc) ht (.inr rfl) (hf.weaken hd)

/-- `p` is a phrase of category `c` at the front of `ts`, within the limits. -/
structure Reads (limit room : Nat) (c : Category) {ts : List Token} (p : Parsed ts) : Prop where
  phrase : ∃ front, ts = front ++ p.rest ∧ Derives c front p.expr ∧ NestsWithin room front
  height : p.height = p.expr.height
  short : p.height ≤ limit

/-- A phrase, an operator and a tighter phrase are read as one phrase. -/
theorem Reads.join {limit room : Nat} {c d : Category} {ts after : List Token} {t : Token}
    {op : Op} {left : Parsed ts} {right : Parsed after} (hl : Reads limit room c left)
    (hr : Reads limit room d right) (h : left.rest = t :: after) (ht : t.op? = some op)
    (hc : op.precedence ≤ c.floor) (hd : op.precedence < d.floor)
    (hh : 1 + max left.height right.height ≤ limit) :
    Reads limit room (.ofOp op) (left.join op h right) := by
  obtain ⟨front, hfront, hder, hnest⟩ := hl.phrase
  obtain ⟨back, hback, hder', hnest'⟩ := hr.phrase
  refine ⟨⟨front ++ t :: back, ?_, hder.join ht hc hder' hd, ?_⟩, ?_, hh⟩
  · rw [h, hback] at hfront
    simpa [Parsed.join] using hfront
  · exact (nestsWithin_join hder.opened_eq_closed (Token.kind_of_op? ht)).mpr ⟨hnest, hnest'⟩
  · simp [Parsed.join, Expr.height, hl.height, hr.height]

/-- A phrase with parentheses around it is a primary, one level further out. -/
theorem Reads.parens {limit room : Nat} {c : Category} {l r : Token} {after rest : List Token}
    {inner : Parsed after} (h : Reads limit room c inner) (hl : l.kind = .openParen)
    (hr : r.kind = .closeParen) (hrest : inner.rest = r :: rest)
    (hs : rest.length < (l :: after).length) :
    Reads limit (room + 1) .primary
      (⟨inner.expr, inner.height, rest, hs⟩ : Parsed (l :: after)) := by
  obtain ⟨front, hfront, hder, hnest⟩ := h.phrase
  have hc : Category.expr.floor ≤ c.floor := by cases c <;> decide
  refine ⟨⟨l :: (front ++ [r]), ?_, .parens hl hr (hder.weaken hc), ?_⟩, h.height, h.short⟩
  · rw [hrest] at hfront
    simpa using hfront
  · exact (nestsWithin_parens hl hr hder.opened_eq_closed).mpr ⟨room, rfl, hnest⟩

/-- The next operator binds no tighter than the category `c`. -/
def Yields (c : Category) (ts : List Token) : Prop :=
  ∀ op, Token.nextOp? ts = some op → op.precedence ≤ c.floor

/-- What a reader returns: a phrase as tight as asked, with no operator after it that it could
still take. -/
def Finished (limit room minPrec : Nat) (ts : List Token) (p : Parsed ts) : Prop :=
  (∃ c : Category, minPrec ≤ c.floor ∧ Reads limit room c p) ∧
    ∀ op, Token.nextOp? p.rest = some op → op.precedence < minPrec

theorem Finished.of_stop {limit room minPrec : Nat} {ts : List Token} {left p : Parsed ts}
    (hl : ∃ c : Category, minPrec ≤ c.floor ∧ Reads limit room c left ∧ Yields c left.rest)
    (hstop : ∀ op, Token.nextOp? left.rest = some op → op.precedence < minPrec)
    (hp : operators limit room minPrec ts left = .ok p) : Finished limit room minPrec ts p := by
  rw [operators_of_stop hstop] at hp
  cases hp
  obtain ⟨c, hc, hread, -⟩ := hl
  exact ⟨⟨c, hc, hread⟩, hstop⟩

theorem precedence_le (op : Op) : op.precedence ≤ 2 := by
  cases op <;> decide

/-- Whatever the reader accepts is a phrase. The induction follows the calls of the reader; for
`operators` it holds of each phrase `left` that yields to the operator after it. -/
theorem finished_of_ok (limit : Nat) :
    (∀ room minPrec ts, minPrec ≤ 3 → ∀ p, expression limit room minPrec ts = .ok p →
      Finished limit room minPrec ts p) ∧
    (∀ room minPrec ts (left : Parsed ts),
      (∃ c : Category, minPrec ≤ c.floor ∧ Reads limit room c left ∧ Yields c left.rest) →
      ∀ p, operators limit room minPrec ts left = .ok p → Finished limit room minPrec ts p) ∧
    (∀ room ts, ∀ p, operand limit room ts = .ok p → Reads limit room .primary p) := by
  apply expression.mutual_induct limit
    (fun room minPrec ts => minPrec ≤ 3 → ∀ p,
      expression limit room minPrec ts = .ok p → Finished limit room minPrec ts p)
    (fun room minPrec ts left =>
      (∃ c : Category, minPrec ≤ c.floor ∧ Reads limit room c left ∧ Yields c left.rest) →
      ∀ p, operators limit room minPrec ts left = .ok p → Finished limit room minPrec ts p)
    (fun room ts => ∀ p, operand limit room ts = .ok p → Reads limit room .primary p)
  case case1 =>
    intro room minPrec ts e he _ _ p hp
    rw [expression_of_error he] at hp
    contradiction
  case case2 =>
    intro room minPrec ts first hf ihf ih hmin p hp
    rw [expression_of_ok hf] at hp
    refine ih ⟨.primary, hmin, ihf first hf, fun op _ => ?_⟩ p hp
    exact Nat.le_succ_of_le (precedence_le op)
  case case3 =>
    intro room minPrec ts left hr hl p hp
    exact .of_stop hl (by simp [hr]) hp
  case case4 =>
    intro room minPrec ts left t after hr ht hl p hp
    exact .of_stop hl (by simp [hr, ht]) hp
  case case5 =>
    intro room minPrec ts left t after hr op ht hlt hl p hp
    refine .of_stop hl (fun op' h' => ?_) hp
    rw [hr, Token.nextOp?_cons, ht] at h'
    cases h'
    exact hlt
  case case6 =>
    intro room minPrec ts left t after hr op ht hge e he _ _ p hp
    rw [operators_of_error hr ht (Nat.not_lt.mp hge) he] at hp
    contradiction
  case case7 =>
    intro room minPrec ts left t after hr op ht hge right hright height htall _ _ p hp
    rw [operators_of_ok hr ht (Nat.not_lt.mp hge) hright, if_pos htall] at hp
    contradiction
  case case8 =>
    intro room minPrec ts left t after hr op ht hge right hright height hshort ihr ih
      ⟨c, hc, hl, hy⟩ p hp
    rw [operators_of_ok hr ht (Nat.not_lt.mp hge) hright, if_neg hshort] at hp
    obtain ⟨⟨d, hd, hread⟩, hnext⟩ :=
      ihr (Nat.succ_le_succ (precedence_le op)) right hright
    have hpc : op.precedence ≤ c.floor := hy op (by rw [hr, Token.nextOp?_cons, ht])
    refine ih ⟨.ofOp op, ?_, hl.join hread hr ht hpc hd (Nat.not_lt.mp hshort), ?_⟩ p hp
    · rw [Category.floor_ofOp]
      exact Nat.not_lt.mp hge
    · intro op' h'
      rw [Category.floor_ofOp]
      exact Nat.le_of_lt_succ (hnext op' h')
  case case9 =>
    intro room p hp
    rw [operand] at hp
    contradiction
  case case10 =>
    intro room t after ht p hp
    rw [operand_of_name ht] at hp
    cases hp
    exact ⟨⟨[t], rfl, .name ht, nestsWithin_name ht⟩, rfl, Nat.zero_le _⟩
  case case11 =>
    intro room t after ht p hp
    rw [operand_of_operator ht] at hp
    contradiction
  case case12 =>
    intro room t after ht p hp
    rw [operand_of_closeParen ht] at hp
    contradiction
  case case13 =>
    intro t after ht p hp
    rw [operand_of_full ht] at hp
    contradiction
  case case14 =>
    intro t after ht room e he _ p hp
    rw [operand_of_error ht he] at hp
    contradiction
  case case15 =>
    intro t after ht room inner hi hr _ p hp
    rw [operand_of_unclosed ht hi (by simp [hr])] at hp
    contradiction
  case case16 =>
    intro t after ht room inner hi close rest hr hc ih p hp
    obtain ⟨⟨c, -, hread⟩, -⟩ := ih (by decide) inner hi
    have hs := inner.shorter_close hr t
    rw [operand_of_closed ht hi hr hc hs] at hp
    cases hp
    exact hread.parens ht hc hr hs
  case case17 =>
    intro t after ht room inner hi close rest hr hc _ p hp
    rw [operand_of_unclosed ht hi (by simpa [hr] using hc)] at hp
    contradiction

/-- A reader that meets the tokens `front` goes on from the end of them with the tree `e`, provided
that the operator after them, if any, takes the whole of them as its left operand. -/
def Resumes (limit : Nat) (c : Category) (front : List Token) (e : Expr) : Prop :=
  ∀ (room minPrec : Nat) (ts rest : List Token) (hs : rest.length < ts.length),
    NestsWithin room front → minPrec ≤ c.floor → Yields c rest → ts = front ++ rest →
    expression limit room minPrec ts = operators limit room minPrec ts ⟨e, e.height, rest, hs⟩

theorem Resumes.weaken {limit : Nat} {c d : Category} {front : List Token} {e : Expr}
    (h : Resumes limit c front e) (hd : d.floor ≤ c.floor) : Resumes limit d front e :=
  fun room minPrec ts rest hs hn hm hy hts =>
    h room minPrec ts rest hs hn (Nat.le_trans hm hd) (fun op ho => Nat.le_trans (hy op ho) hd) hts

/-- Asked for no more than the phrase is followed by, the reader returns it. -/
theorem Resumes.expression_eq {limit room minPrec : Nat} {c : Category}
    {ts front rest : List Token} {e : Expr} (h : Resumes limit c front e) (hts : ts = front ++ rest)
    (hn : NestsWithin room front) (hm : minPrec ≤ c.floor) (hne : front ≠ [])
    (hstop : ∀ op, Token.nextOp? rest = some op → op.precedence < minPrec) :
    ∃ hs, expression limit room minPrec ts = .ok ⟨e, e.height, rest, hs⟩ := by
  have hs : rest.length < ts.length := by
    have := List.length_pos_iff.mpr hne
    simp [hts]
    omega
  have hy : Yields c rest := fun op ho => Nat.le_of_lt (Nat.lt_of_lt_of_le (hstop op ho) hm)
  exact ⟨hs, by rw [h room minPrec ts rest hs hn hm hy hts, operators_of_stop hstop]⟩

theorem resumes_name {limit : Nat} {t : Token} (ht : t.kind = .name) :
    Resumes limit .primary [t] (.name t.text) := by
  intro room minPrec ts rest hs _ _ _ hts
  subst hts
  exact expression_of_ok (operand_of_name ht)

theorem Resumes.parens {limit : Nat} {l r : Token} {ts : List Token} {e : Expr}
    (h : Resumes limit .expr ts e) (hl : l.kind = .openParen) (hr : r.kind = .closeParen)
    (hb : opened ts = closed ts) (hne : ts ≠ []) :
    Resumes limit .primary (l :: (ts ++ [r])) e := by
  intro room minPrec us rest hs hn _ _ hus
  obtain ⟨inner, rfl, hin⟩ := (nestsWithin_parens hl hr hb).mp hn
  obtain rfl : us = l :: (ts ++ r :: rest) := by simpa using hus
  have hnone : Token.nextOp? (r :: rest) = none := Token.op?_eq_none_of_kind (by simp [hr])
  obtain ⟨_, hi⟩ := h.expression_eq rfl hin (by decide) hne
    (show ∀ op, Token.nextOp? (r :: rest) = some op → op.precedence < 1 by simp [hnone])
  exact expression_of_ok (operand_of_closed hl hi rfl hr hs)

theorem Resumes.join {limit : Nat} {c d : Category} {ts us : List Token} {t : Token} {op : Op}
    {e f : Expr} (he : Resumes limit c ts e) (ht : t.op? = some op) (hc : op.precedence ≤ c.floor)
    (hf : Resumes limit d us f) (hd : op.precedence < d.floor) (hb : opened ts = closed ts)
    (hne : ts ≠ []) (hne' : us ≠ []) (hh : (Expr.binary op e f).height ≤ limit) :
    Resumes limit (.ofOp op) (ts ++ t :: us) (.binary op e f) := by
  intro room minPrec vs rest hs hn hm hy hvs
  rw [Category.floor_ofOp] at hm
  have hvs' : vs = ts ++ t :: (us ++ rest) := by simpa using hvs
  have hlen : (t :: (us ++ rest)).length < vs.length := by
    have := List.length_pos_iff.mpr hne
    simp [hvs']
    omega
  have hyields : Yields c (t :: (us ++ rest)) := by
    intro op' ho
    rw [Token.nextOp?_cons, ht] at ho
    cases ho
    exact hc
  have hstop : ∀ op', Token.nextOp? rest = some op' → op'.precedence < op.precedence + 1 :=
    fun op' ho => Nat.lt_succ_of_le (by simpa using hy op' ho)
  obtain ⟨hnest, hnest'⟩ := (nestsWithin_join hb (Token.kind_of_op? ht)).mp hn
  have hleft := he room minPrec vs _ hlen hnest (Nat.le_trans hm hc) hyields hvs'
  obtain ⟨_, hright⟩ := hf.expression_eq rfl hnest' hd hne' hstop
  rw [hleft, operators_of_ok rfl ht hm hright]
  exact if_neg (Nat.not_lt.mpr hh)

/-- Every phrase is read as such, whatever follows it. -/
theorem Derives.resumes {limit : Nat} {c : Category} {front : List Token} {e : Expr}
    (h : Derives c front e) (hh : e.height ≤ limit) : Resumes limit c front e := by
  induction h with
  | name ht => exact resumes_name ht
  | parens hl hr hd ih => exact (ih hh).parens hl hr hd.opened_eq_closed hd.ne_nil
  | factor hd ih => exact (ih hh).weaken (by decide)
  | summand hd ih => exact (ih hh).weaken (by decide)
  | product he ht hop hf ihe ihf =>
    have := hh
    simp only [Expr.height] at this
    rcases hop with rfl | rfl <;>
      exact (ihe (by omega)).join ht (by decide) (ihf (by omega)) (by decide)
        he.opened_eq_closed he.ne_nil hf.ne_nil hh
  | sum he ht hop hf ihe ihf =>
    have := hh
    simp only [Expr.height] at this
    rcases hop with rfl | rfl <;>
      exact (ihe (by omega)).join ht (by decide) (ihf (by omega)) (by decide)
        he.opened_eq_closed he.ne_nil hf.ne_nil hh

/-- A reader that meets the tokens `front` gives up, for all that follows them, since they nest too
deep or make too high a tree `e`. -/
def Overflows (limit : Nat) (c : Category) (front : List Token) (e : Expr) : Prop :=
  ∀ (room minPrec : Nat) (ts rest : List Token),
    ¬(NestsWithin room front ∧ e.height ≤ limit) → minPrec ≤ c.floor → Yields c rest →
    ts = front ++ rest → expression limit room minPrec ts = .error (.tooDeep limit)

theorem Overflows.weaken {limit : Nat} {c d : Category} {front : List Token} {e : Expr}
    (h : Overflows limit c front e) (hd : d.floor ≤ c.floor) : Overflows limit d front e :=
  fun room minPrec ts rest hn hm hy hts =>
    h room minPrec ts rest hn (Nat.le_trans hm hd) (fun op ho => Nat.le_trans (hy op ho) hd) hts

theorem Overflows.parens {limit : Nat} {l r : Token} {ts : List Token} {e : Expr}
    (h : Overflows limit .expr ts e) (hl : l.kind = .openParen) (hr : r.kind = .closeParen)
    (hb : opened ts = closed ts) : Overflows limit .primary (l :: (ts ++ [r])) e := by
  intro room minPrec us rest hn _ _ hus
  obtain rfl : us = l :: (ts ++ r :: rest) := by simpa using hus
  have hnone : Token.nextOp? (r :: rest) = none := Token.op?_eq_none_of_kind (by simp [hr])
  cases room with
  | zero => exact expression_of_error (operand_of_full hl)
  | succ room =>
    have hn' : ¬(NestsWithin room ts ∧ e.height ≤ limit) := fun ⟨hin, hh⟩ =>
      hn ⟨(nestsWithin_parens hl hr hb).mpr ⟨room, rfl, hin⟩, hh⟩
    exact expression_of_error (operand_of_error hl
      (h room 1 _ (r :: rest) hn' (by decide) (by simp [Yields, hnone]) rfl))

/-- Of a phrase, an operator and a phrase the first thing too deep ends the reading: the left
phrase, the right phrase or the tree of both. -/
theorem Overflows.join {limit : Nat} {c d : Category} {ts us : List Token} {t : Token} {op : Op}
    {e f : Expr} (he : Overflows limit c ts e) (hde : Derives c ts e) (ht : t.op? = some op)
    (hc : op.precedence ≤ c.floor) (hf : Overflows limit d us f) (hdf : Derives d us f)
    (hd : op.precedence < d.floor) :
    Overflows limit (.ofOp op) (ts ++ t :: us) (.binary op e f) := by
  intro room minPrec vs rest hn hm hy hvs
  rw [Category.floor_ofOp] at hm
  have hvs' : vs = ts ++ t :: (us ++ rest) := by simpa using hvs
  have hyields : Yields c (t :: (us ++ rest)) := by
    intro op' ho
    rw [Token.nextOp?_cons, ht] at ho
    cases ho
    exact hc
  by_cases hl : NestsWithin room ts ∧ e.height ≤ limit
  · have hlen : (t :: (us ++ rest)).length < vs.length := by
      have := List.length_pos_iff.mpr hde.ne_nil
      simp [hvs']
      omega
    have hleft := hde.resumes hl.2 room minPrec vs _ hlen hl.1 (Nat.le_trans hm hc) hyields hvs'
    have hstop : ∀ op', Token.nextOp? rest = some op' → op'.precedence < op.precedence + 1 :=
      fun op' ho => Nat.lt_succ_of_le (by simpa using hy op' ho)
    rw [hleft]
    by_cases hr : NestsWithin room us ∧ f.height ≤ limit
    · obtain ⟨_, hright⟩ := (hdf.resumes hr.2).expression_eq rfl hr.1 hd hdf.ne_nil hstop
      rw [operators_of_ok rfl ht hm hright]
      have hnest : NestsWithin room (ts ++ t :: us) :=
        (nestsWithin_join hde.opened_eq_closed (Token.kind_of_op? ht)).mpr ⟨hl.1, hr.1⟩
      exact if_pos (Nat.lt_of_not_le fun hh => hn ⟨hnest, hh⟩)
    · have hyields' : Yields d rest := fun op' ho => by have := hstop op' ho; omega
      exact operators_of_error rfl ht hm (hf room _ _ rest hr hd hyields' rfl)
  · exact he room minPrec vs _ hl (Nat.le_trans hm hc) hyields hvs'

/-- A phrase beyond the limits is refused as too deep, whatever follows it. -/
theorem Derives.overflows {limit : Nat} {c : Category} {front : List Token} {e : Expr}
    (h : Derives c front e) : Overflows limit c front e := by
  induction h with
  | name ht =>
    intro room minPrec ts rest hn _ _ _
    exact absurd ⟨nestsWithin_name ht, Nat.zero_le _⟩ hn
  | parens hl hr hd ih => exact ih.parens hl hr hd.opened_eq_closed
  | factor hd ih => exact ih.weaken (by decide)
  | summand hd ih => exact ih.weaken (by decide)
  | product he ht hop hf ihe ihf =>
    rcases hop with rfl | rfl <;> exact ihe.join he ht (by decide) ihf hf (by decide)
  | sum he ht hop hf ihe ihf =>
    rcases hop with rfl | rfl <;> exact ihe.join he ht (by decide) ihf hf (by decide)

theorem derives_of_ofTokens {ts : List Token} {limit : Nat} {e : Expr}
    (h : ofTokens ts limit = .ok e) :
    Derives .expr ts e ∧ NestsWithin limit ts ∧ e.height ≤ limit := by
  cases ts with
  | nil => simp [ofTokens] at h
  | cons t ts =>
    cases hp : expression limit limit 1 (t :: ts) with
    | error f =>
      rw [ofTokens_of_error hp] at h
      contradiction
    | ok p =>
      obtain ⟨⟨c, -, hread⟩, -⟩ := (finished_of_ok limit).1 _ _ _ (by decide) p hp
      obtain ⟨front, hfront, hder, hnest⟩ := hread.phrase
      cases hrest : p.rest with
      | cons u us =>
        rw [ofTokens_of_trailing hp hrest] at h
        contradiction
      | nil =>
        rw [ofTokens_of_ok hp hrest] at h
        cases h
        rw [hrest, List.append_nil] at hfront
        have hc : Category.expr.floor ≤ c.floor := by cases c <;> decide
        subst hfront
        exact ⟨hder.weaken hc, hnest, hread.height ▸ hread.short⟩

theorem ofTokens_of_derives {ts : List Token} {limit : Nat} {e : Expr} (h : Derives .expr ts e)
    (hn : NestsWithin limit ts) (hh : e.height ≤ limit) : ofTokens ts limit = .ok e := by
  have hstop : ∀ op, Token.nextOp? [] = some op → op.precedence < 1 := by simp
  obtain ⟨_, hread⟩ := (h.resumes hh).expression_eq (List.append_nil ts).symm hn (by decide)
    h.ne_nil hstop
  exact ofTokens_of_ok hread rfl

/-- The only thing that keeps a sentence from being accepted is its depth. -/
theorem ofTokens_of_overflow {ts : List Token} {limit : Nat} {e : Expr} (h : Derives .expr ts e)
    (hn : ¬(NestsWithin limit ts ∧ e.height ≤ limit)) :
    ofTokens ts limit = .error (.tooDeep limit) := by
  have hread := h.overflows limit 1 ts [] hn (by decide) (by simp [Yields])
    (List.append_nil ts).symm
  cases ts with
  | nil => exact absurd rfl h.ne_nil
  | cons t ts => exact ofTokens_of_error hread

/-- Tokens are read as the tree `e` exactly if they are a sentence with that tree within the limits.
The tree then holds the names and operators of the tokens in their order, no more and no less. -/
theorem ofTokens_eq_ok_iff (ts : List Token) (limit : Nat) (e : Expr) :
    ofTokens ts limit = .ok e ↔
      Derives .expr ts e ∧ words ts = e.inorder.map some ∧ NestsWithin limit ts ∧
        e.height ≤ limit := by
  constructor
  · intro h
    obtain ⟨hder, hnest, hheight⟩ := derives_of_ofTokens h
    exact ⟨hder, hder.words_eq, hnest, hheight⟩
  · rintro ⟨hder, -, hnest, hheight⟩
    exact ofTokens_of_derives hder hnest hheight

end PlanarArea.Expr
