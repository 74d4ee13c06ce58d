import PlanarArea.Command.Run
import PlanarArea.Proofs.Expr.Render
import PlanarArea.Proofs.Expr.Scanning
import PlanarArea.Proofs.Json.Indented
import PlanarArea.Proofs.Json.Natural

/-!
# Listings of tokens that are read back

A listing shows the text of every token as it is, though a name may hold spaces, commas and letters
of any script. Nothing is lost by that: the word of a kind has no `@`, a position ends before the
space, and no text has a line feed, so the lines of a listing are its tokens. The rows of the JSON
form hold the same tokens.
-/
namespace PlanarArea

namespace Token

/-- The kind that is called by a short word. -/
def Kind.ofLabel? : String → Option Kind
  | "name" => some .name
  | "op" => some .operator
  | "lparen" => some .openParen
  | "rparen" => some .closeParen
  | _ => none

/-- Reads a line as the word of a kind, `@`, a position in digits, a space and a text. -/
def ofLine? (line : List Char) : Option Token :=
  match line.dropWhile (· ≠ '@') with
  | [] => none
  | _ :: rest =>
    match Kind.ofLabel? (String.ofList (line.takeWhile (· ≠ '@'))), Decimal.splitDigits rest with
    | some kind, (d :: ds, ' ' :: text) =>
      some ⟨kind, String.ofList text, Decimal.digitsValue (d :: ds)⟩
    | _, _ => none

/-- Reads a listing line by line; the empty one has no lines. -/
def ofLines? (text : String) : Option (List Token) :=
  if text = "" then some [] else (text.toList.splitOn '\n').mapM ofLine?

/-- Reads a row of the JSON form. -/
def ofRow? (row : Json) : Option Token := do
  let kind ← ((row.get? "kind").bind Json.str?).bind Kind.ofLabel?
  let text ← (row.get? "text").bind Json.str?
  let pos ← (row.get? "pos").bind Json.nat?
  return ⟨kind, text, pos⟩

@[simp] theorem Kind.ofLabel?_label (kind : Kind) : Kind.ofLabel? kind.label = some kind := by
  cases kind <;> rfl

theorem Kind.not_mem_label (kind : Kind) : '@' ∉ kind.label.toList ∧ '\n' ∉ kind.label.toList := by
  cases kind <;> decide

theorem toList_line (t : Token) : t.line.toList =
    t.kind.label.toList ++ '@' :: (Decimal.digits t.pos ++ ' ' :: t.text.toList) := by
  have hline : t.line = t.kind.label ++ "@" ++ t.pos.repr ++ " " ++ t.text := rfl
  simp [hline, Decimal.digits]

/-- A token is read back from its line, whatever its text is. -/
theorem ofLine?_line (t : Token) : ofLine? t.line.toList = some t := by
  have hlabel : ∀ c ∈ t.kind.label.toList, decide (c ≠ '@') = true := by
    intro c hc
    refine decide_eq_true ?_
    rintro rfl
    exact t.kind.not_mem_label.1 hc
  have hdigits : Decimal.splitDigits (Decimal.digits t.pos ++ ' ' :: t.text.toList) =
      (Decimal.digits t.pos, ' ' :: t.text.toList) := Decimal.splitDigits_digits_append t.pos rfl
  rw [toList_line, ofLine?, List.takeWhile_append_of_pos hlabel,
    List.dropWhile_append_of_pos hlabel]
  simp only [List.takeWhile_cons, List.dropWhile_cons, ne_eq, not_true_eq_false, decide_false,
    Bool.false_eq_true, if_false, List.append_nil, String.ofList_toList, Kind.ofLabel?_label,
    hdigits]
  have hvalue := Decimal.digitsValue_digits t.pos
  cases hdigit : Decimal.digits t.pos with
  | nil => exact absurd hdigit Nat.toDigits_ne_nil
  | cons d ds =>
    rw [hdigit] at hvalue
    simp [hvalue]

theorem line_ne_empty (t : Token) : t.line ≠ "" := by
  intro h
  have hline := ofLine?_line t
  rw [h] at hline
  cases hline

/-- No name has a line feed. -/
theorem IsName.newline_not_mem {cs : List Char} (h : IsName cs) : '\n' ∉ cs := by
  obtain ⟨c, tail, rfl, hc, stem, group, rfl, hstem, hgroup⟩ := h
  rw [List.mem_cons, List.mem_append]
  rintro (rfl | hmem | hmem)
  · exact absurd hc (by decide)
  · exact absurd (List.all_eq_true.mp hstem _ hmem) (by decide)
  · rcases hgroup with rfl | ⟨body, rfl, -, hbody⟩
    · cases hmem
    · have hmem : '\n' ∈ body := by simpa using hmem
      exact absurd (List.all_eq_true.mp hbody _ hmem) (by decide)

theorem Takes.newline_not_mem {kind : Kind} {cs rest : List Char} (h : Takes kind cs rest) :
    '\n' ∉ cs := by
  cases h with
  | operator op => cases op <;> decide
  | openParen => decide
  | closeParen => decide
  | name hname => exact hname.isName.newline_not_mem

/-- A token that is found in a text is on one line. -/
theorem StandsIn.newline_not_mem_line {t : Token} {pos : Nat} {cs : List Char}
    (h : t.StandsIn pos cs) : '\n' ∉ t.line.toList := by
  obtain ⟨before, after, -, -, htakes⟩ := h
  have hdigits : '\n' ∉ Decimal.digits t.pos := fun hmem =>
    absurd (Decimal.isDigit_of_mem_digits hmem) (by decide)
  rw [toList_line]
  simp [t.kind.not_mem_label.2, hdigits, htakes.newline_not_mem]

theorem StandsIn.pos_lt {t : Token} {cs : List Char} (h : t.StandsIn 0 cs) : t.pos < cs.length := by
  obtain ⟨before, after, rfl, hpos, htakes⟩ := h
  have hlen := List.length_pos_iff.mpr htakes.ne_nil
  simp only [List.length_append]
  omega

/-- Tokens are read back from their lines if each is on one line. -/
theorem ofLines?_lines {ts : List Token} (h : ∀ t ∈ ts, '\n' ∉ t.line.toList) :
    ofLines? (String.intercalate "\n" (ts.map line)) = some ts := by
  have hlines : (String.intercalate "\n" (ts.map line)).toList =
      ['\n'].intercalate (ts.map fun t => t.line.toList) := by
    rw [String.toList_intercalate, List.map_map]
    rfl
  cases ts with
  | nil => rfl
  | cons t ts =>
    have hsplit := List.splitOn_intercalate '\n'
      (List.forall_mem_map.mpr h : ∀ l ∈ (t :: ts).map fun t => t.line.toList, '\n' ∉ l)
      (List.cons_ne_nil _ _)
    rw [← hlines] at hsplit
    have hne : String.intercalate "\n" ((t :: ts).map line) ≠ "" := by
      intro hempty
      rw [hempty] at hsplit
      exact t.line_ne_empty (String.toList_eq_nil_iff.mp (List.cons.inj hsplit).1.symm)
    rw [ofLines?, if_neg hne, hsplit, Json.mapM_map_of_read fun t _ => t.ofLine?_line]

theorem ofRow?_toJson (t : Token) : ofRow? t.toJson = some t := by
  have hkind : t.toJson.get? "kind" = some (.str t.kind.label) := rfl
  have htext : t.toJson.get? "text" = some (.str t.text) := rfl
  have hpos : t.toJson.get? "pos" = some (.nat t.pos) := rfl
  have hnat : (Json.nat t.pos).nat? = some t.pos := rfl
  rw [ofRow?, hkind, htext, hpos]
  simp [Json.str?, hnat]

theorem readable_toJson {t : Token} (h : t.pos < Json.Numeral.wordEnd) (room : Nat) :
    Json.Readable (room + 1) t.toJson :=
  .obj (by simp [Json.Readable.str, Json.Readable.number room (Json.isNumeral_nat h)])

end Token

namespace Command

open Token (ofLines? ofRow?)

variable {expr : String} {ts : List Token}

theorem exists_lines (h : Token.ofText expr = .ok ts) :
    ∃ lines, tokenText expr false = .ok lines ∧ ofLines? lines = some ts := by
  have hstands := (Token.ofText_eq_ok_iff.mp h).standsIn
  refine ⟨String.intercalate "\n" (ts.map Token.line), ?_,
    Token.ofLines?_lines fun t ht => (hstands t ht).newline_not_mem_line⟩
  rw [tokenText, h]
  rfl

/-- The tokens of an expression are read back from its listing, line by line, and from the rows of
the JSON form, which are themselves read back from the text that is printed for them if the
expression has no more characters than 64 bits can count. So no other tokens have the same
listing. -/
theorem tokenText_read_back (h : Token.ofText expr = .ok ts) :
    ∃ (lines : String) (rows : List Json),
      tokenText expr false = .ok lines ∧ ofLines? lines = some ts ∧
      tokenText expr true = .ok ((Json.arr rows).pretty 0) ∧ rows.mapM ofRow? = some ts ∧
      (expr.length ≤ Json.Numeral.wordEnd →
        Json.ofText? ((Json.arr rows).pretty 0) = some (.arr rows)) ∧
      ∀ other us, Token.ofText other = .ok us → tokenText other false = .ok lines → us = ts := by
  obtain ⟨lines, htext, hread⟩ := exists_lines h
  have hstands := (Token.ofText_eq_ok_iff.mp h).standsIn
  refine ⟨lines, ts.map Token.toJson, htext, hread, ?_,
    Json.mapM_map_of_read fun t _ => t.ofRow?_toJson, fun hlength => ?_, ?_⟩
  · rw [tokenText, h]
    rfl
  · refine Json.ofText?_pretty (.arr (List.forall_mem_map.mpr fun t ht => ?_))
    have hpos := (hstands t ht).pos_lt
    rw [String.length_toList] at hpos
    exact Token.readable_toJson (Nat.lt_of_lt_of_le hpos hlength) _
  · intro other us hother hsame
    obtain ⟨lines', htext', hread'⟩ := exists_lines hother
    cases hsame.symm.trans htext'
    exact Option.some.inj (hread'.symm.trans hread)

/-- A name with a space and a comma, and one that starts with a letter beyond ASCII. -/
theorem tokenText_read_back_measured :
    let ts : List Token := [⟨.name, "E(50, 30)", 1⟩, ⟨.operator, "|", 10⟩, ⟨.name, "É'", 11⟩]
    let lines := "name@1 E(50, 30)\nop@10 |\nname@11 É'"
    Token.ofText " E(50, 30)|É'" = .ok ts ∧ ofLines? lines = some ts ∧
      ∀ other us, Token.ofText other = .ok us → tokenText other false = .ok lines → us = ts := by
  intro ts lines
  have htokens : Token.ofText " E(50, 30)|É'" = .ok ts :=
    Expr.eq_ok_of_toOption (by decide +kernel)
  obtain ⟨printed, -, htext, hread, -, -, -, hunique⟩ := tokenText_read_back htokens
  have hprinted : tokenText " E(50, 30)|É'" false = .ok lines := by
    rw [tokenText, htokens]
    decide +kernel
  cases htext.symm.trans hprinted
  exact ⟨htokens, hread, hunique⟩

end Command

end PlanarArea
