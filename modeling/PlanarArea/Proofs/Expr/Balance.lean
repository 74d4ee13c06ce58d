import Mathlib.Data.List.Nodup
import PlanarArea.Proofs.Expr.Failure
import PlanarArea.Proofs.Expr.Layout
import PlanarArea.Proofs.Expr.Render

/-!
# The check of the raw text

Before a text is scanned its parentheses are counted. Some of them end up inside names and are no
tokens, but those of a name match. So the text is balanced exactly if its tokens are, and the check
refuses no text that would be read. Conversely, what passes the check and is scanned can fail only
with some of the errors: never for a parenthesis that closes nothing or for one that is still open
at the end.
-/
namespace PlanarArea.Expr

open Place Token

/-- With `depth` parentheses open before them, the tokens close no more than are open at any place,
and all in the end. -/
structure Balanced (depth : Nat) (ts : List Token) : Prop where
  closed_le : ∀ front, front <+: ts → closed front ≤ depth + opened front
  closed_eq : closed ts = depth + opened ts

variable {depth depth' pos limit : Nat} {cs : List Char} {t : Token} {ts : List Token}
  {p : Place} {e : ParseError}

theorem balanced_nil_iff : Balanced depth [] ↔ depth = 0 := by
  constructor
  · intro h
    have := h.closed_eq
    simpa using this.symm
  · rintro rfl
    refine ⟨fun front hfront => ?_, rfl⟩
    simp [List.prefix_nil.mp hfront]

/-- A token changes how many parentheses are open behind it. -/
theorem balanced_cons_iff (h : depth' + closed [t] = depth + opened [t]) :
    Balanced depth (t :: ts) ↔ Balanced depth' ts := by
  have hclosed (us : List Token) : closed (t :: us) = closed [t] + closed us :=
    closed_append [t] us
  have hopened (us : List Token) : opened (t :: us) = opened [t] + opened us :=
    opened_append [t] us
  constructor
  · intro hb
    refine ⟨fun front hfront => ?_, ?_⟩
    · have := hb.closed_le (t :: front) (List.cons_prefix_cons.mpr ⟨rfl, hfront⟩)
      rw [hclosed, hopened] at this
      omega
    · have := hb.closed_eq
      rw [hclosed, hopened] at this
      omega
  · intro hb
    refine ⟨fun front hfront => ?_, ?_⟩
    · rcases List.prefix_cons_iff.mp hfront with rfl | ⟨rest, rfl, hrest⟩
      · simp
      · have := hb.closed_le rest hrest
        rw [hclosed, hopened]
        omega
    · have := hb.closed_eq
      rw [hclosed, hopened]
      omega

/-- Nothing is closed that is not open. -/
theorem not_balanced_closeParen (h : t.kind = .closeParen) : ¬ Balanced 0 (t :: ts) := by
  intro hb
  have := hb.closed_le [t] (List.cons_prefix_cons.mpr ⟨rfl, List.nil_prefix⟩)
  simp [closed_cons, opened_cons, h] at this

theorem isBlank_ne_paren {c : Char} (h : Text.isBlank c = true) : c ≠ '(' ∧ c ≠ ')' := by
  constructor <;> rintro rfl <;> exact absurd h (by decide)

theorem balanced_cons {c : Char} (h : c ≠ '(' ∧ c ≠ ')') (depth : Nat) (rest : List Char) :
    balanced depth (c :: rest) = balanced depth rest :=
  balanced_append (List.forall_mem_singleton.mpr h) depth rest

/-- The parentheses of a text match exactly if those of its tokens do. -/
theorem balanced_iff_of_lexing (h : Lexing pos cs ts) :
    balanced depth cs = true ↔ Balanced depth ts := by
  induction h generalizing depth with
  | nil pos => simp [balanced, balanced_nil_iff]
  | blank hb _ ih => rw [balanced_cons (isBlank_ne_paren hb), ih]
  | token htakes _ ih =>
    cases htakes with
    | operator op =>
      rw [List.singleton_append, balanced_cons (symbol_ne_paren op), ih]
      exact (balanced_cons_iff rfl).symm
    | openParen =>
      rw [List.singleton_append, balanced, ih]
      exact (balanced_cons_iff rfl).symm
    | closeParen =>
      cases depth with
      | zero => simp [balanced, not_balanced_closeParen]
      | succ depth =>
        rw [List.singleton_append, balanced, ih]
        exact (balanced_cons_iff rfl).symm
    | name hname =>
      rw [balanced_name_append hname.isName, ih]
      exact (balanced_cons_iff rfl).symm

theorem check_eq_ok_iff {text : String} :
    check text = .ok () ↔ Text.allBlank text = false ∧ balanced 0 text.toList = true := by
  unfold check
  split
  · rename_i hblank
    simp [hblank]
  · rename_i hblank
    split
    · rename_i hbalanced
      exact iff_of_true rfl ⟨Bool.eq_false_iff.mpr hblank, hbalanced⟩
    · rename_i hbalanced
      exact iff_of_false nofun fun h => hbalanced h.2

theorem ofText_of_allBlank {text : String} (h : Text.allBlank text = true) :
    ofText text = .ok [] := by
  have hblanks : Lexing 0 (text.toList ++ []) [] := .blanks h (.nil _)
  rwa [List.append_nil, ← ofText_eq_ok_iff] at hblanks

theorem allBlank_of_ofText {text : String} (h : ofText text = .ok []) :
    Text.allBlank text = true := by
  refine List.all_eq_true.mpr fun c hc => ?_
  obtain ⟨i, hi⟩ := List.mem_iff_getElem?.mp hc
  simpa using (ofText_eq_ok_iff.mp h).blank_or_covered i c hi

/-- A sentence is balanced. -/
theorem Sentence.balanced (h : Sentence ts) : Balanced 0 ts := by
  have hwalk := sentence_iff_walk.mp h
  refine ⟨?_, ?_⟩
  · rintro front ⟨rest, rfl⟩
    obtain ⟨p, hp, -⟩ := exists_walk_of_append hwalk
    have := opened_of_walk hp
    simp only [start, List.length_nil, Nat.zero_add] at this
    omega
  · have := opened_of_walk hwalk
    simp only [start, finish, List.length_nil, Nat.zero_add] at this
    omega

/-- Tokens that are read come from a text that passes the check. -/
theorem check_of_ofTokens {text : String} {tree : Expr} (hts : ofText text = .ok ts)
    (h : ofTokens ts limit = .ok tree) : check text = .ok () := by
  have hder := (derives_of_ofTokens h).1
  refine check_eq_ok_iff.mpr ⟨?_, ?_⟩
  · by_contra hblank
    rw [ofText_of_allBlank (by simpa using hblank)] at hts
    cases hts
    exact hder.ne_nil rfl
  · exact (balanced_iff_of_lexing (ofText_eq_ok_iff.mp hts)).mpr (Sentence.balanced ⟨tree, hder⟩)

/-- An operator token of a text stands for an operator. -/
theorem exists_op_of_lexing (h : Lexing pos cs ts) (ht : t ∈ ts) (hk : t.kind = .operator) :
    ∃ op, t.op? = some op := by
  obtain ⟨before, after, -, -, htakes⟩ := h.standsIn t ht
  rw [hk] at htakes
  generalize htext : t.text.toList = text at htakes
  cases htakes with
  | operator op => exact ⟨op, by simp [op?, hk, symbol, htext]⟩

/-- A position belongs to one token. -/
theorem eq_of_pos_eq {u : Token} (h : Lexing pos cs ts) (ht : t ∈ ts) (hu : u ∈ ts)
    (hpos : t.pos = u.pos) : t = u := by
  have hnodup : (ts.map (·.pos)).Nodup :=
    List.pairwise_map.mpr (h.ordered.imp fun hlt => Nat.ne_of_lt hlt.1)
  exact List.inj_on_of_nodup_map hnodup ht hu hpos

section

variable {front rest : List Token}

/-- At a place where nothing is open, balanced tokens do not close anything. -/
theorem Balanced.kind_ne_closeParen (hb : Balanced 0 (front ++ t :: rest))
    (hwalk : start.walk? front = some finish) : t.kind ≠ .closeParen := by
  intro hk
  have hle := hb.closed_le (front ++ [t]) ⟨rest, by simp⟩
  have hopened := opened_of_walk hwalk
  simp only [start, finish, List.length_nil, Nat.zero_add] at hopened
  simp only [closed_append, opened_append, closed_cons, opened_cons, hk, if_true, reduceCtorEq,
    if_false, closed_nil, opened_nil] at hle
  omega

/-- Balanced tokens go on where a parenthesis is open. -/
theorem Balanced.rest_ne_nil {l : Token} {us : List Token} (hb : Balanced 0 (front ++ rest))
    (hwalk : start.walk? front = some ⟨false, l :: us⟩) : rest ≠ [] := by
  rintro rfl
  have hopened := opened_of_walk hwalk
  have hclosed := hb.closed_eq
  simp only [start, List.length_nil, List.length_cons, Nat.zero_add] at hopened
  simp only [List.append_nil, Nat.zero_add] at hclosed
  omega

end

/-- A trailing token of balanced tokens is no closing parenthesis. -/
theorem exists_trailing {text : String} {n : Nat} (hb : Balanced 0 ts)
    (h : HaltsFrom start ts (.trailingToken text n)) :
    ∃ t ∈ ts, t.text = text ∧ t.pos = n ∧ t.kind ≠ .closeParen := by
  obtain ⟨front, rest, p, rfl, hwalk, hstuck⟩ := h
  cases hstuck with
  | @trailing t rest hop => exact ⟨t, by simp, rfl, rfl, hb.kind_ne_closeParen hwalk⟩

/-- A parenthesis of balanced tokens is missed where a name or another parenthesis follows the
expression in it. -/
theorem exists_next_of_missing {n : Nat} (hlex : Lexing pos cs ts) (hb : Balanced 0 ts)
    (h : HaltsFrom start ts (.missingCloseParen n)) :
    ∃ before l inner next after, ts = before ++ l :: (inner ++ next :: after) ∧
      l.kind = .openParen ∧ l.pos = n ∧ Sentence inner ∧
      (next.kind = .name ∨ next.kind = .openParen) := by
  obtain ⟨front, rest, p, rfl, hwalk, hstuck⟩ := h
  cases hstuck with
  | unclosed l us hop hclose =>
    obtain ⟨next, after, rfl⟩ := List.exists_cons_of_ne_nil (hb.rest_ne_nil hwalk)
    rw [← List.nil_append (l :: us)] at hwalk
    obtain ⟨before, inner, rfl, hl, hinner⟩ := exists_walk_behind_unclosed hwalk
    refine ⟨before, l, inner, next, after, by simp, hl, rfl, sentence_iff_walk.mpr hinner, ?_⟩
    have hnext : next.kind ≠ .operator := by
      intro hk
      obtain ⟨op, hsome⟩ := exists_op_of_lexing hlex (t := next) (by simp) hk
      rw [nextOp?_cons, hsome] at hop
      cases hop
    have hclose := hclose next rfl
    cases hk : next.kind with
    | name => exact .inl rfl
    | openParen => exact .inr rfl
    | operator => exact absurd hk hnext
    | closeParen => exact absurd hk hclose

/-- The check of the raw text refuses nothing that would be read: a text is read as a tree exactly
if its tokens are. Where the check and the scanner succeed, the tokens are balanced, so they are not
empty, no closing parenthesis is left over, and one is missed only where a further token follows the
expression in the parentheses, never because the text is at its end. -/
theorem check_conservative (text : String) :
    (∀ limit tree, parse text limit = .ok tree ↔
      ∃ ts, ofText text = .ok ts ∧ ofTokens ts limit = .ok tree) ∧
    ∀ ts, check text = .ok () → ofText text = .ok ts → Balanced 0 ts ∧ ∀ limit,
      ofTokens ts limit ≠ .error .emptyExpression ∧
      (∀ t ∈ ts, t.kind = .closeParen →
        ofTokens ts limit ≠ .error (.trailingToken t.text t.pos)) ∧
      ∀ pos, ofTokens ts limit = .error (.missingCloseParen pos) →
        ∃ before l inner next after, ts = before ++ l :: (inner ++ next :: after) ∧
          l.kind = .openParen ∧ l.pos = pos ∧ Sentence inner ∧
          (next.kind = .name ∨ next.kind = .openParen) := by
  constructor
  · intro limit tree
    constructor
    · intro h
      unfold parse at h
      split at h
      · contradiction
      · split at h
        · contradiction
        · rename_i ts hts
          exact ⟨ts, hts, h⟩
    · rintro ⟨ts, hts, h⟩
      simp only [parse, check_of_ofTokens hts h, hts, h]
  · intro ts hcheck hts
    obtain ⟨hblank, hbalanced⟩ := check_eq_ok_iff.mp hcheck
    have hlex := ofText_eq_ok_iff.mp hts
    have hb := (balanced_iff_of_lexing hlex).mp hbalanced
    have hne : ts ≠ [] := by
      rintro rfl
      exact Bool.false_ne_true (hblank.symm.trans (allBlank_of_ofText hts))
    refine ⟨hb, fun limit => ⟨fun h => ?_, fun t ht hk h => ?_, fun pos h => ?_⟩⟩
    · obtain ⟨front, rest, p, -, -, hstuck⟩ := haltsFrom_of_ofTokens hne h ParseError.noConfusion
      cases hstuck
    · obtain ⟨u, hu, -, hpos, hclose⟩ :=
        exists_trailing hb (haltsFrom_of_ofTokens hne h ParseError.noConfusion)
      rw [eq_of_pos_eq hlex hu ht hpos] at hclose
      exact hclose hk
    · exact exists_next_of_missing hlex hb (haltsFrom_of_ofTokens hne h ParseError.noConfusion)

/-- The tokens of `(C(5) B)`. The group of `C(5)` belongs to the name. -/
def grouped : List Token :=
  [⟨.openParen, "(", 0⟩, ⟨.name, "C(5)", 1⟩, ⟨.name, "B", 6⟩, ⟨.closeParen, ")", 7⟩]

/-- The parentheses match, yet what they hold is no expression. -/
theorem check_conservative_grouped :
    check "(C(5) B)" = .ok () ∧ ofText "(C(5) B)" = .ok grouped ∧ Balanced 0 grouped ∧
    ofTokens grouped 256 = .error (.missingCloseParen 0) ∧
    ∃ before l inner next after, grouped = before ++ l :: (inner ++ next :: after) ∧
      l.kind = .openParen ∧ l.pos = 0 ∧ Sentence inner ∧
      (next.kind = .name ∨ next.kind = .openParen) := by
  have hcheck : check "(C(5) B)" = .ok () := eq_ok_of_toOption (by decide +kernel)
  have htokens : ofText "(C(5) B)" = .ok grouped := eq_ok_of_toOption (by decide +kernel)
  have hread : ofTokens grouped 256 = .error (.missingCloseParen 0) := by cbv
  obtain ⟨hbalanced, herrors⟩ := (check_conservative "(C(5) B)").2 grouped hcheck htokens
  exact ⟨hcheck, htokens, hbalanced, hread, (herrors 256).2.2 0 hread⟩

end PlanarArea.Expr
