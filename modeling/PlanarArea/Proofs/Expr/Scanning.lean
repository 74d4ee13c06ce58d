import PlanarArea.Proofs.Expr.Lexeme

/-!
# What the scanner takes off a text

The scanner skips blank characters and takes off one token after the other, every name as long as
it can be. This is written here as a relation without the scanner, which finds exactly the tokens
that are related to the text. From it follows where the tokens stand: in order, apart from each
other, and with nothing but blank characters between them. Where the scanner fails, the text up to
the refused character has tokens, since a name does not become longer or shorter when the text ends
earlier.
-/
namespace PlanarArea.Token

/-- The characters `cs` in front of `rest` are a token of the kind. -/
inductive Takes : Kind → List Char → List Char → Prop
  | operator (op : Op) (rest : List Char) : Takes .operator [op.symbol] rest
  | openParen (rest : List Char) : Takes .openParen ['('] rest
  | closeParen (rest : List Char) : Takes .closeParen [')'] rest
  | name {cs rest : List Char} : LongestName cs rest → Takes .name cs rest

/-- `ts` are the tokens of `cs`, which starts at position `pos`. -/
inductive Lexing : Nat → List Char → List Token → Prop
  | nil (pos : Nat) : Lexing pos [] []
  | blank {pos : Nat} {c : Char} {rest : List Char} {ts : List Token} :
    Text.isBlank c → Lexing (pos + 1) rest ts → Lexing pos (c :: rest) ts
  | token {pos : Nat} {kind : Kind} {cs rest : List Char} {ts : List Token} :
    Takes kind cs rest → Lexing (pos + cs.length) rest ts →
    Lexing pos (cs ++ rest) (⟨kind, String.ofList cs, pos⟩ :: ts)

/-- No token and no blank starts with the character. -/
def Refused (c : Char) : Prop :=
  Text.isBlank c = false ∧ (∀ op : Op, c ≠ op.symbol) ∧ c ≠ '(' ∧ c ≠ ')' ∧ startsName c = false

/-- The token is found at its position in `cs`, which starts at position `pos`. -/
def StandsIn (t : Token) (pos : Nat) (cs : List Char) : Prop :=
  ∃ before after, cs = before ++ (t.text.toList ++ after) ∧ t.pos = pos + before.length ∧
    Takes t.kind t.text.toList after

theorem takes_of_ofChar? {c : Char} {kind : Kind} (h : Kind.ofChar? c = some kind)
    (rest : List Char) : Takes kind [c] rest := by
  unfold Kind.ofChar? at h
  split at h
  · rename_i op hop
    cases h
    rw [Op.ofSymbol?_eq_some_iff.mp hop]
    exact .operator op rest
  · split at h
    · rename_i hc
      cases h
      exact hc ▸ .openParen rest
    · split at h
      · rename_i hc
        cases h
        exact hc ▸ .closeParen rest
      · cases h

theorem ne_of_ofChar?_eq_none {c : Char} (h : Kind.ofChar? c = none) :
    (∀ op : Op, c ≠ op.symbol) ∧ c ≠ '(' ∧ c ≠ ')' := by
  refine ⟨?_, ?_, ?_⟩
  · rintro op rfl
    simp [Kind.ofChar?] at h
  · rintro rfl
    exact absurd h (by decide)
  · rintro rfl
    exact absurd h (by decide)

namespace Takes

variable {kind : Kind} {cs rest : List Char}

theorem ne_nil (h : Takes kind cs rest) : cs ≠ [] := by
  cases h with
  | name hname =>
    obtain ⟨c, tail, rfl, -⟩ := hname
    exact List.cons_ne_nil c tail
  | _ => exact List.cons_ne_nil _ _

/-- The scanner takes the token off. -/
theorem scan_append (h : Takes kind cs rest) (pos : Nat) : scan pos (cs ++ rest) =
    (⟨kind, String.ofList cs, pos⟩ :: ·) <$> scan (pos + cs.length) rest := by
  cases h with
  | operator op => exact scan_symbol op pos rest
  | openParen => exact scan_openParen pos rest
  | closeParen => exact scan_closeParen pos rest
  | name hname => exact scan_longestName hname pos

/-- A token stays one when the text ends earlier. -/
theorem of_append {after : List Char} (h : Takes kind cs (rest ++ after)) :
    Takes kind cs rest := by
  cases h with
  | operator op => exact .operator op rest
  | openParen => exact .openParen rest
  | closeParen => exact .closeParen rest
  | name hname =>
    obtain ⟨c, tail, rfl, hc, stem, group, rfl, hstem, hstop, hgroup⟩ := hname
    refine .name ⟨c, _, rfl, hc, stem, group, rfl, hstem, ?_, ?_⟩
    · intro d hd
      apply hstop d
      rw [← List.append_assoc, List.head?_append, hd]
      rfl
    · rcases hgroup with ⟨rfl, hnone⟩ | ⟨body, rfl, hopens⟩
      · -- A group in the shorter text is one in the whole text.
        refine .inl ⟨rfl, fun body hopens => hnone body ?_⟩
        obtain ⟨tail, rfl, hbody⟩ := hopens
        exact ⟨tail ++ after, by simp, hbody⟩
      · obtain ⟨-, -, hbody⟩ := hopens
        exact .inr ⟨body, rfl, rest, by simp, hbody⟩

end Takes

theorem scan_of_lexing {pos : Nat} {cs : List Char} {ts : List Token} (h : Lexing pos cs ts) :
    scan pos cs = .ok ts := by
  induction h with
  | nil pos => rw [scan]
  | blank hb _ ih => rw [scan_cons_blank hb, ih]
  | token htakes _ ih =>
    rw [htakes.scan_append, ih]
    rfl

/-- A name split off is a token. -/
theorem takes_splitName {c : Char} (hc : startsName c = true) (rest : List Char) :
    Takes .name (c :: (splitName rest).1) (splitName rest).2 :=
  .name ⟨c, _, rfl, hc, longestTail_splitName rest⟩

theorem cons_map_eq_ok {t : Token} {r : Except ParseError (List Token)} {ts : List Token}
    (h : (t :: ·) <$> r = .ok ts) : ∃ us, r = .ok us ∧ ts = t :: us := by
  cases r with
  | error e => cases h
  | ok us =>
    cases h
    exact ⟨us, rfl, rfl⟩

theorem map_eq_error {α β : Type} {f : α → β} {r : Except ParseError α} {e : ParseError}
    (h : f <$> r = .error e) : r = .error e := by
  cases r with
  | error e' =>
    cases h
    rfl
  | ok a => cases h

/-- What the scanner finds are the tokens of the text. -/
theorem scan_eq_ok_iff {pos : Nat} {cs : List Char} {ts : List Token} :
    scan pos cs = .ok ts ↔ Lexing pos cs ts := by
  refine ⟨fun h => ?_, scan_of_lexing⟩
  fun_induction scan pos cs generalizing ts with
  | case1 pos =>
    cases h
    exact .nil pos
  | case2 pos c rest hb ih => exact .blank hb (ih h)
  | case3 pos c rest hb kind hkind ih =>
    obtain ⟨us, hus, rfl⟩ := cons_map_eq_ok h
    exact .token (takes_of_ofChar? hkind rest) (ih hus)
  | case4 =>
    rename_i pos c rest _ _ hc tail ih
    obtain ⟨us, hus, rfl⟩ := cons_map_eq_ok h
    rw [← splitName_append rest, ← List.cons_append]
    refine .token (takes_splitName hc rest) ?_
    rw [List.length_cons, Nat.add_comm _ 1, ← Nat.add_assoc]
    exact ih hus
  | case5 => cases h

theorem ofText_eq_ok_iff {text : String} {ts : List Token} :
    ofText text = .ok ts ↔ Lexing 0 text.toList ts :=
  scan_eq_ok_iff

/-- The text has tokens up to a refused character, and `e` reports that one. -/
def StopsAt (pos : Nat) (cs : List Char) (e : ParseError) : Prop :=
  ∃ before c after ts, cs = before ++ c :: after ∧ Lexing pos before ts ∧ Refused c ∧
    e = .unexpectedChar c (pos + before.length)

namespace StopsAt

variable {pos : Nat} {rest : List Char} {e : ParseError}

theorem blank {c : Char} (hb : Text.isBlank c) (h : StopsAt (pos + 1) rest e) :
    StopsAt pos (c :: rest) e := by
  obtain ⟨before, d, after, ts, rfl, hlex, hd, rfl⟩ := h
  refine ⟨c :: before, d, after, ts, rfl, .blank hb hlex, hd, ?_⟩
  rw [List.length_cons, Nat.add_right_comm, Nat.add_assoc]

theorem token {kind : Kind} {cs : List Char} (ht : Takes kind cs rest)
    (h : StopsAt (pos + cs.length) rest e) : StopsAt pos (cs ++ rest) e := by
  obtain ⟨before, d, after, ts, rfl, hlex, hd, rfl⟩ := h
  refine ⟨cs ++ before, d, after, _, by simp, .token ht.of_append hlex, hd, ?_⟩
  rw [List.length_append, Nat.add_assoc]

end StopsAt

/-- Where the scanner fails, the text before the refused character has tokens. -/
theorem stopsAt_of_scan {pos : Nat} {cs : List Char} {e : ParseError}
    (h : scan pos cs = .error e) : StopsAt pos cs e := by
  fun_induction scan pos cs with
  | case1 => cases h
  | case2 pos c rest hb ih => exact (ih h).blank hb
  | case3 pos c rest hb kind hkind ih =>
    exact .token (takes_of_ofChar? hkind rest) (ih (map_eq_error h))
  | case4 =>
    rename_i pos c rest _ _ hc tail ih
    have hstops := ih (map_eq_error h)
    rw [Nat.add_assoc, Nat.add_comm 1] at hstops
    have htoken := hstops.token (takes_splitName hc rest)
    rwa [List.cons_append, splitName_append] at htoken
  | case5 pos c rest hb hkind hstart =>
    cases h
    obtain ⟨hop, hopen, hclose⟩ := ne_of_ofChar?_eq_none hkind
    exact ⟨[], c, rest, [], rfl, .nil pos,
      ⟨by simpa using hb, hop, hopen, hclose, by simpa using hstart⟩, rfl⟩

namespace Lexing

variable {pos : Nat} {cs : List Char} {ts : List Token}

/-- No token stands before the text. -/
theorem le_pos (h : Lexing pos cs ts) : ∀ t ∈ ts, pos ≤ t.pos := by
  induction h with
  | nil pos => simp
  | blank _ _ ih => exact fun t ht => Nat.le_of_succ_le (ih t ht)
  | token _ _ ih =>
    intro t ht
    rcases List.mem_cons.mp ht with rfl | ht
    · exact Nat.le_refl _
    · exact Nat.le_trans (Nat.le_add_right _ _) (ih t ht)

/-- The tokens stand in order and none overlaps another one. -/
theorem ordered (h : Lexing pos cs ts) :
    ts.Pairwise fun t u => t.pos < u.pos ∧ t.pos + t.text.length ≤ u.pos := by
  induction h with
  | nil pos => exact .nil
  | blank _ _ ih => exact ih
  | token htakes hrest ih =>
    refine .cons (fun u hu => ?_) ih
    have hpos := hrest.le_pos u hu
    have hlen := List.length_pos_iff.mpr htakes.ne_nil
    simp only [String.length_ofList]
    exact ⟨by omega, hpos⟩

/-- Every token is found at its position. -/
theorem standsIn (h : Lexing pos cs ts) : ∀ t ∈ ts, t.StandsIn pos cs := by
  induction h with
  | nil pos => simp
  | @blank pos c rest ts _ _ ih =>
    intro t ht
    obtain ⟨before, after, rfl, hpos, htakes⟩ := ih t ht
    exact ⟨c :: before, after, rfl, by rw [hpos, List.length_cons]; omega, htakes⟩
  | @token pos kind cs rest ts htakes _ ih =>
    intro t ht
    rcases List.mem_cons.mp ht with rfl | ht
    · exact ⟨[], rest, by simp, rfl, by simpa using htakes⟩
    · obtain ⟨before, after, rfl, hpos, htakes'⟩ := ih t ht
      exact ⟨cs ++ before, after, by simp, by rw [hpos, List.length_append]; omega, htakes'⟩

/-- Every character is blank or part of a token. -/
theorem blank_or_covered (h : Lexing pos cs ts) : ∀ i c, cs[i]? = some c →
    Text.isBlank c ∨ ∃ t ∈ ts, t.pos ≤ pos + i ∧ pos + i < t.pos + t.text.length := by
  induction h with
  | nil pos => simp
  | @blank pos c rest ts hb _ ih =>
    intro i d hd
    cases i with
    | zero =>
      cases hd
      exact .inl hb
    | succ i =>
      have := ih i d hd
      rwa [show pos + 1 + i = pos + (i + 1) by omega] at this
  | @token pos kind cs rest ts htakes _ ih =>
    intro i d hd
    by_cases hi : i < cs.length
    · exact .inr ⟨_, List.mem_cons_self, by simp, by simpa using hi⟩
    · rw [List.getElem?_append_right (by omega)] at hd
      rcases ih _ d hd with hb | ⟨t, ht, hlo, hhi⟩
      · exact .inl hb
      · exact .inr ⟨t, List.mem_cons_of_mem _ ht, by omega, by omega⟩

end Lexing

/-- Every name token holds a name. -/
theorem isName_of_mem_scan {pos : Nat} {cs : List Char} {ts : List Token}
    (h : scan pos cs = .ok ts) {t : Token} (ht : t ∈ ts) (hk : t.kind = .name) :
    IsName t.text.toList := by
  obtain ⟨before, after, -, -, htakes⟩ := (scan_eq_ok_iff.mp h).standsIn t ht
  rw [hk] at htakes
  cases htakes with
  | name hname => exact hname.isName

/-- The scanner loses nothing and takes all it can. Where it succeeds, its tokens stand in order and
apart from each other; each is found at its position, an operator or a parenthesis as its single
character and a name as long as it can be; and every character outside the tokens is blank. Where it
fails, it reports a character of the text that starts no token and is not blank, with its position,
and the text before that one has tokens. -/
theorem ofText_lossless (text : String) :
    (∀ ts, ofText text = .ok ts →
      (ts.Pairwise fun t u => t.pos < u.pos ∧ t.pos + t.text.length ≤ u.pos) ∧
      (∀ t ∈ ts, t.StandsIn 0 text.toList) ∧
      ∀ i c, text.toList[i]? = some c →
        Text.isBlank c ∨ ∃ t ∈ ts, t.pos ≤ i ∧ i < t.pos + t.text.length) ∧
    ∀ e, ofText text = .error e → ∃ c pos, e = .unexpectedChar c pos ∧
      text.toList[pos]? = some c ∧ Refused c ∧
      ∃ ts, ofText (String.ofList (text.toList.take pos)) = .ok ts := by
  constructor
  · intro ts h
    have hlex := ofText_eq_ok_iff.mp h
    refine ⟨hlex.ordered, hlex.standsIn, fun i c hc => ?_⟩
    simpa using hlex.blank_or_covered i c hc
  · intro e h
    obtain ⟨before, c, after, ts, htext, hlex, hc, rfl⟩ := stopsAt_of_scan h
    refine ⟨c, _, rfl, ?_, hc, ts, ?_⟩
    · simp [htext]
    · rw [ofText_eq_ok_iff]
      simpa [htext] using hlex

theorem eq_error_of_match {ε α : Type} {x : Except ε α} {e : ε}
    (h : (match x with | .error e' => some e' | .ok _ => none) = some e) : x = .error e := by
  cases x with
  | error e' =>
    cases h
    rfl
  | ok a => cases h

/-- A group that is never closed is no part of a name, and its digits are refused. -/
theorem ofText_lossless_unclosed :
    ofText "C(5)-C(5" = .error (.unexpectedChar '5' 7) ∧ Refused '5' ∧
    ∃ ts, ofText "C(5)-C(" = .ok ts ∧ ∀ t ∈ ts, t.StandsIn 0 "C(5)-C(".toList := by
  have hfail : ofText "C(5)-C(5" = .error (.unexpectedChar '5' 7) :=
    eq_error_of_match (by decide +kernel)
  obtain ⟨c, pos, heq, -, hc, ts, hts⟩ := (ofText_lossless "C(5)-C(5").2 _ hfail
  cases heq
  have htake : String.ofList ("C(5)-C(5".toList.take 7) = "C(5)-C(" := by decide +kernel
  rw [htake] at hts
  exact ⟨hfail, hc, ts, hts, ((ofText_lossless "C(5)-C(").1 ts hts).2.1⟩

end PlanarArea.Token
