import PlanarArea.Proofs.Expr.Acceptance
import PlanarArea.Proofs.Expr.Scanning

/-!
# Reading back what is written

A tree is written with every operator in parentheses. The text passes the raw check of its
parentheses, is scanned into the tokens that were meant, since no written parenthesis continues a
name, and those tokens nest exactly as deep as the tree is high. So the tree is read back whenever
its height is within the limit, and refused as too deep otherwise.
-/
namespace PlanarArea

/-- The text is scanned as one name. -/
def Token.IsNameText (text : String) : Prop :=
  ∃ pos, Token.ofText text = .ok [⟨.name, text, pos⟩]

theorem Token.isName_of_isNameText {text : String} (h : IsNameText text) :
    IsName text.toList := by
  obtain ⟨pos, h⟩ := h
  exact isName_of_mem_scan h (List.mem_singleton.mpr rfl) rfl

theorem Token.isNameText_of_isName {text : String} (h : IsName text.toList) :
    IsNameText text := by
  have hscan := scan_name_append h endsName_nil 0
  rw [List.append_nil, scan, String.ofList_toList] at hscan
  exact ⟨0, hscan⟩

theorem Token.isNameText_of_letter {text : String} {c : Char} (h : text.toList = [c])
    (hc : startsName c = true) : IsNameText text :=
  isNameText_of_isName ⟨c, [], h, hc, [], [], rfl, rfl, .inl rfl⟩

namespace Expr

open Token (IsName EndsName scan_symbol scan_openParen scan_closeParen)

/-- Every leaf is a name. -/
def HasNames (e : Expr) : Prop :=
  ∀ n ∈ e.names, IsName n.toList

theorem HasNames.of_binary {op : Op} {left right : Expr} (h : HasNames (.binary op left right)) :
    HasNames left ∧ HasNames right := by
  simp only [HasNames, names, List.mem_append] at h
  exact ⟨fun n hn => h n (.inl hn), fun n hn => h n (.inr hn)⟩

/-- The tokens of a written tree, the first one at `pos`. -/
def tokens (pos : Nat) : Expr → List Token
  | name text => [⟨.name, text, pos⟩]
  | binary op left right =>
    let mid := pos + 1 + left.render.length
    ⟨.openParen, "(", pos⟩ :: (left.tokens (pos + 1) ++
      ⟨.operator, String.singleton op.symbol, mid + 1⟩ :: right.tokens (mid + 3) ++
      [⟨.closeParen, ")", mid + 3 + right.render.length⟩])

theorem toList_render_binary (op : Op) (left right : Expr) :
    (binary op left right).render.toList =
      '(' :: (left.render.toList ++ ' ' :: op.symbol :: ' ' :: (right.render.toList ++ [')'])) := by
  simp [render, toString]

theorem length_render_binary (op : Op) (left right : Expr) :
    (binary op left right).render.length = left.render.length + right.render.length + 5 := by
  simp only [← String.length_toList, toList_render_binary, List.length_cons, List.length_append,
    List.length_nil]
  omega

theorem balanced_append {cs : List Char} (h : ∀ c ∈ cs, c ≠ '(' ∧ c ≠ ')') (depth : Nat)
    (rest : List Char) : balanced depth (cs ++ rest) = balanced depth rest := by
  induction cs with
  | nil => rfl
  | cons c cs ih =>
    obtain ⟨ho, hc⟩ := h c (by simp)
    have hcs : ∀ c ∈ cs, c ≠ '(' ∧ c ≠ ')' := fun c hc => h c (by simp [hc])
    rw [List.cons_append, balanced.eq_5 _ _ _ ho hc, ih hcs]

/-- The parentheses of a name match. -/
theorem balanced_name_append {cs : List Char} (h : IsName cs) (depth : Nat) (rest : List Char) :
    balanced depth (cs ++ rest) = balanced depth rest := by
  obtain ⟨c, tail, rfl, hc, stem, group, rfl, hstem, hgroup⟩ := h
  have hparts : ∀ d ∈ c :: stem, d ≠ '(' ∧ d ≠ ')' := by
    intro d hd
    rcases List.mem_cons.mp hd with rfl | hd
    · exact Token.startsName_ne hc
    · exact Token.continuesName_ne (List.all_eq_true.mp hstem d hd)
  rw [← List.cons_append, List.append_assoc, balanced_append hparts]
  rcases hgroup with rfl | ⟨body, rfl, -, hbody⟩
  · rfl
  · have hb : ∀ d ∈ body, d ≠ '(' ∧ d ≠ ')' := fun d hd =>
      Token.isMeasure_ne (List.all_eq_true.mp hbody d hd)
    simp only [List.cons_append, List.append_assoc, List.nil_append, balanced]
    rw [balanced_append hb]
    rfl

theorem symbol_ne_paren (op : Op) : op.symbol ≠ '(' ∧ op.symbol ≠ ')' := by
  cases op <;> decide

theorem balanced_symbol_cons (op : Op) (depth : Nat) (rest : List Char) :
    balanced depth (' ' :: op.symbol :: ' ' :: rest) = balanced depth rest := by
  have hmid : ∀ d ∈ [' ', op.symbol, ' '], d ≠ '(' ∧ d ≠ ')' := by
    have := symbol_ne_paren op
    simp [this]
  exact balanced_append hmid depth rest

/-- The written parentheses match. -/
theorem balanced_render_append {e : Expr} (h : e.HasNames) (depth : Nat) (rest : List Char) :
    balanced depth (e.render.toList ++ rest) = balanced depth rest := by
  induction e generalizing depth rest with
  | name text => exact balanced_name_append (h text (by simp [names])) depth rest
  | binary op left right ihl ihr =>
    obtain ⟨hl, hr⟩ := h.of_binary
    rw [toList_render_binary]
    simp only [List.cons_append, List.append_assoc, List.nil_append, balanced]
    rw [ihl hl, balanced_symbol_cons, ihr hr]
    rfl

theorem endsName_cons {c : Char} (h : c = ' ' ∨ c = ')') (rest : List Char) :
    EndsName (c :: rest) := by
  intro d hd
  cases hd
  rcases h with rfl | rfl <;> decide

/-- A written tree is scanned into its tokens, whatever follows that ends a name. -/
theorem scan_render_append {e : Expr} (h : e.HasNames) {rest : List Char} (hr : EndsName rest)
    (pos : Nat) : Token.scan pos (e.render.toList ++ rest) =
      (e.tokens pos ++ ·) <$> Token.scan (pos + e.render.length) rest := by
  induction e generalizing pos rest with
  | name text =>
    have := Token.scan_name_append (h text (by simp [names])) hr pos
    simpa [render, tokens, ← String.length_toList] using this
  | binary op left right ihl ihr =>
    obtain ⟨hl, hrt⟩ := h.of_binary
    rw [toList_render_binary, length_render_binary]
    simp only [List.cons_append, List.append_assoc, List.nil_append]
    rw [scan_openParen, ihl hl (endsName_cons (.inl rfl) _),
      Token.scan_cons_blank (by decide), scan_symbol, Token.scan_cons_blank (by decide),
      ihr hrt (endsName_cons (.inr rfl) _), scan_closeParen]
    have hend : pos + 1 + left.render.length + 1 + 1 + 1 + right.render.length + 1 =
        pos + (left.render.length + right.render.length + 5) := by omega
    simp only [tokens, Functor.map_map, hend, List.cons_append, List.append_assoc,
      List.nil_append]

theorem ofText_render {e : Expr} (h : e.HasNames) :
    Token.ofText e.render = .ok (e.tokens 0) := by
  have := scan_render_append h Token.endsName_nil 0
  rw [List.append_nil] at this
  rw [Token.ofText, this, Token.scan]
  simp [Functor.map, Except.map]

/-- A written tree starts with a character that is not blank. -/
theorem exists_render_eq_cons {e : Expr} (h : e.HasNames) :
    ∃ c cs, e.render.toList = c :: cs ∧ Text.isBlank c = false := by
  cases e with
  | name text =>
    obtain ⟨c, cs, htext, hc, -⟩ := h text (by simp [names])
    exact ⟨c, cs, htext, Token.isBlank_of_startsName hc⟩
  | binary op left right => exact ⟨_, _, toList_render_binary op left right, by decide⟩

/-- A written tree is not blank and its parentheses match. -/
theorem check_render {e : Expr} (h : e.HasNames) : check e.render = .ok () := by
  obtain ⟨c, cs, hcons, hc⟩ := exists_render_eq_cons h
  have hblank : Text.allBlank e.render = false := by
    simp [Text.allBlank, hcons, hc]
  have hbal := balanced_render_append h 0 []
  rw [List.append_nil] at hbal
  rw [check, hblank, hbal]
  rfl

theorem op?_symbol (op : Op) (pos : Nat) :
    (⟨.operator, String.singleton op.symbol, pos⟩ : Token).op? = some op := by
  simp [Token.op?, Token.symbol]

theorem derives_tokens (e : Expr) (pos : Nat) : Derives .primary (e.tokens pos) e := by
  induction e generalizing pos with
  | name text => exact .name rfl
  | binary op left right ihl ihr =>
    have hop := precedence_le op
    have hin (mid : Nat) : Derives (.ofOp op) (left.tokens (pos + 1) ++
        ⟨.operator, String.singleton op.symbol, mid + 1⟩ :: right.tokens (mid + 3))
        (binary op left right) :=
      .join (ihl _) (op?_symbol op _) (Nat.le_succ_of_le hop) (ihr _) (Nat.lt_succ_of_le hop)
    exact .parens rfl rfl ((hin _).weaken (by cases op <;> decide))

/-- The tokens of a written tree nest as deep as the tree is high. -/
theorem nestsWithin_tokens {e : Expr} {depth pos : Nat} :
    NestsWithin depth (e.tokens pos) ↔ e.height ≤ depth := by
  induction e generalizing depth pos with
  | name text => simp [tokens, nestsWithin_name, Expr.height]
  | binary op left right ihl ihr =>
    have hl := (derives_tokens left (pos + 1)).opened_eq_closed
    have hr := (derives_tokens right (pos + 1 + left.render.length + 3)).opened_eq_closed
    rw [tokens, nestsWithin_parens rfl rfl (by simp [opened_cons, closed_cons, hl, hr])]
    simp only [nestsWithin_join (t := ⟨.operator, _, _⟩) hl rfl, ihl, ihr, Expr.height]
    constructor
    · rintro ⟨inner, rfl, h⟩
      omega
    · intro h
      exact ⟨depth - 1, by omega, by omega, by omega⟩

theorem parse_render_of_hasNames {e : Expr} (h : e.HasNames) (limit : Nat) :
    parse e.render limit =
      if e.height ≤ limit then .ok e else .error (.tooDeep limit) := by
  have hder : Derives .expr (e.tokens 0) e := (derives_tokens e 0).weaken (by decide)
  simp only [parse, check_render h, ofText_render h]
  split
  · rename_i hh
    exact ofTokens_of_derives hder (nestsWithin_tokens.mpr hh) hh
  · rename_i hh
    exact ofTokens_of_overflow hder fun hn => hh hn.2

/-- The written form without the outer parentheses. -/
def bare : Expr → String
  | name text => text
  | binary op left right => s!"{left.render} {op.symbol} {right.render}"

section Bare

variable {op : Op} {left right : Expr}

variable (op left right) in
theorem toList_bare_binary : (binary op left right).bare.toList =
    left.render.toList ++ ' ' :: op.symbol :: ' ' :: right.render.toList := by
  simp [bare, toString]

theorem check_bare_binary (hl : left.HasNames) (hr : right.HasNames) :
    check (binary op left right).bare = .ok () := by
  obtain ⟨c, cs, hcons, hc⟩ := exists_render_eq_cons hl
  have hblank : Text.allBlank (binary op left right).bare = false := by
    simp [Text.allBlank, toList_bare_binary, hcons, hc]
  have hbal := balanced_render_append hr 0 []
  rw [List.append_nil] at hbal
  rw [check, hblank, toList_bare_binary, balanced_render_append hl, balanced_symbol_cons, hbal]
  rfl

theorem ofText_bare_binary (hl : left.HasNames) (hr : right.HasNames) :
    Token.ofText (binary op left right).bare = .ok (left.tokens 0 ++
      ⟨.operator, String.singleton op.symbol, left.render.length + 1⟩ ::
        right.tokens (left.render.length + 3)) := by
  have hscan := scan_render_append hr Token.endsName_nil (left.render.length + 3)
  rw [List.append_nil, Token.scan] at hscan
  rw [Token.ofText, toList_bare_binary, scan_render_append hl (endsName_cons (.inl rfl) _),
    Token.scan_cons_blank (by decide), scan_symbol, Token.scan_cons_blank (by decide),
    Nat.zero_add, hscan]
  simp [Functor.map, Except.map]

end Bare

/-- The outer parentheses may be left out. -/
theorem parse_bare {e : Expr} (h : e.HasNames) {limit : Nat} (hheight : e.height ≤ limit) :
    parse e.bare limit = .ok e := by
  cases e with
  | name text => exact (parse_render_of_hasNames h limit).trans (if_pos hheight)
  | binary op left right =>
    obtain ⟨hl, hr⟩ := h.of_binary
    have hleft := derives_tokens left 0
    have hder := Derives.join hleft (op?_symbol op (left.render.length + 1))
      (Nat.le_succ_of_le (precedence_le op)) (derives_tokens right (left.render.length + 3))
      (Nat.lt_succ_of_le (precedence_le op))
    have hsides : left.height ≤ limit ∧ right.height ≤ limit := by
      rw [Expr.height] at hheight
      omega
    simp only [parse, check_bare_binary hl hr, ofText_bare_binary hl hr]
    refine ofTokens_of_derives (hder.weaken (by cases op <;> decide)) ?_ hheight
    exact (nestsWithin_join hleft.opened_eq_closed rfl).mpr
      ⟨nestsWithin_tokens.mpr hsides.1, nestsWithin_tokens.mpr hsides.2⟩

theorem parse_name {name : String} (h : Token.IsNameText name) (limit : Nat) :
    parse name limit = .ok (.name name) := by
  have hnames : (Expr.name name).HasNames := by
    simpa [HasNames, names] using Token.isName_of_isNameText h
  exact parse_bare hnames (Nat.zero_le _)

/-- An operator between two names. -/
theorem parse_bare_names {left right : String} (hl : Token.IsNameText left)
    (hr : Token.IsNameText right) (op : Op) {limit : Nat} (hlimit : 1 ≤ limit) :
    parse (binary op (.name left) (.name right)).bare limit =
      .ok (.binary op (.name left) (.name right)) := by
  have hnames : (Expr.binary op (.name left) (.name right)).HasNames := by
    simpa [HasNames, names] using
      And.intro (Token.isName_of_isNameText hl) (Token.isName_of_isNameText hr)
  exact parse_bare hnames hlimit

/-- The leaves of what is read are names. -/
theorem hasNames_of_parse {text : String} {limit : Nat} {e : Expr}
    (h : parse text limit = .ok e) : e.HasNames ∧ e.height ≤ limit := by
  unfold parse at h
  split at h
  · contradiction
  · split at h
    · contradiction
    · rename_i ts hts
      obtain ⟨hder, -, hheight⟩ := derives_of_ofTokens h
      refine ⟨fun n hn => ?_, hheight⟩
      obtain ⟨t, ht, hk, rfl⟩ := hder.exists_token_of_mem_names hn
      exact Token.isName_of_mem_scan hts ht hk

/-- A tree whose leaves are names is read back from its written form exactly if its height is within
the limit, and is too deep otherwise. Whatever is read at all is read back from its written form. -/
theorem parse_render (limit : Nat) :
    (∀ e : Expr, (∀ n ∈ e.names, Token.IsNameText n) →
      parse e.render limit = if e.height ≤ limit then .ok e else .error (.tooDeep limit)) ∧
    (∀ (text : String) (e : Expr), parse text limit = .ok e → parse e.render limit = .ok e) := by
  constructor
  · intro e h
    exact parse_render_of_hasNames (fun n hn => Token.isName_of_isNameText (h n hn)) limit
  · intro text e h
    obtain ⟨hnames, hheight⟩ := hasNames_of_parse h
    rw [parse_render_of_hasNames hnames, if_pos hheight]

theorem eq_ok_of_toOption {ε α : Type} {x : Except ε α} {a : α} (h : x.toOption = some a) :
    x = .ok a := by
  cases x with
  | error e => cases h
  | ok b => cases h; rfl

/-- The written form of `A'-C(5)` is read at limit 1 and too deep at limit 0. -/
theorem parse_render_measured :
    parse "A'-C(5)" 1 = .ok (.binary .diff (.name "A'") (.name "C(5)")) ∧
    parse "(A' - C(5))" 1 = .ok (.binary .diff (.name "A'") (.name "C(5)")) ∧
    parse "(A' - C(5))" 0 = .error (.tooDeep 0) := by
  have hread : parse "A'-C(5)" 1 = .ok (.binary .diff (.name "A'") (.name "C(5)")) := by
    have hcheck : check "A'-C(5)" = .ok () := eq_ok_of_toOption (by decide +kernel)
    have htokens : Token.ofText "A'-C(5)" =
        .ok [⟨.name, "A'", 0⟩, ⟨.operator, "-", 2⟩, ⟨.name, "C(5)", 3⟩] :=
      eq_ok_of_toOption (by decide +kernel)
    have hder : Derives .term
        ([⟨.name, "A'", 0⟩] ++ ⟨.operator, "-", 2⟩ :: [⟨.name, "C(5)", 3⟩])
        (.binary .diff (.name "A'") (.name "C(5)")) :=
      .product (.factor (.name rfl)) (by decide) (.inr rfl) (.name rfl)
    have hnest : NestsWithin 1
        ([⟨.name, "A'", 0⟩] ++ ⟨.operator, "-", 2⟩ :: [⟨.name, "C(5)", 3⟩]) :=
      (nestsWithin_join (by decide) rfl).mpr ⟨nestsWithin_name rfl, nestsWithin_name rfl⟩
    simp only [parse, hcheck, htokens]
    exact ofTokens_of_derives (.summand hder) hnest (by decide)
  have hnames : ∀ n ∈ (Expr.binary .diff (.name "A'") (.name "C(5)")).names,
      Token.IsNameText n := by
    simp only [names, List.cons_append, List.nil_append, List.forall_mem_cons]
    exact ⟨⟨0, eq_ok_of_toOption (by decide +kernel)⟩, ⟨0, eq_ok_of_toOption (by decide +kernel)⟩,
      by simp⟩
  exact ⟨hread, (parse_render 1).2 _ _ hread, (parse_render 0).1 _ hnames⟩

end Expr

end PlanarArea
