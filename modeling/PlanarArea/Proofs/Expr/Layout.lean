import Mathlib.Data.List.Chain
import PlanarArea.Proofs.Expr.Scanning

/-!
# Writing tokens down

Operators, parentheses and names are written one after the other with blanks of any kind between
them. The scanner finds them again, whatever the blanks are, if a name is kept apart from a name or
an opening parenthesis that follows it. Nothing else is needed: a parenthesis inside a group belongs
to its name, and one behind a blank is never taken for the start of a group.
-/
namespace PlanarArea.Token

/-- What is written as one token. -/
inductive Lexeme where
  | operator (op : Op)
  | openParen
  | closeParen
  | name (text : String) (isName : IsName text.toList)

namespace Lexeme

def kind : Lexeme → Kind
  | operator _ => .operator
  | openParen => .openParen
  | closeParen => .closeParen
  | name _ _ => .name

def text : Lexeme → String
  | operator op => String.singleton op.symbol
  | openParen => "("
  | closeParen => ")"
  | name text _ => text

/-- Right behind a name the lexeme could be read as more of it. -/
def ProlongsName (l : Lexeme) : Prop :=
  l.kind = .name ∨ l.kind = .openParen

end Lexeme

/-- A lexeme and the blanks in front of it. -/
structure Spaced where
  gap : String
  lexeme : Lexeme
  blank : Text.allBlank gap

/-- Where a lexeme could be read as more of a name before it, there is a blank between them. -/
def Apart (items : List Spaced) : Prop :=
  items.IsChain fun s t => s.lexeme.kind = .name → t.lexeme.ProlongsName → t.gap ≠ ""

def written (items : List Spaced) : String :=
  String.join (items.map fun s => s.gap ++ s.lexeme.text)

/-- The tokens of what is written, which starts at position `pos`. -/
def tokensFrom (pos : Nat) : List Spaced → List Token
  | [] => []
  | s :: items =>
    ⟨s.lexeme.kind, s.lexeme.text, pos + s.gap.length⟩ ::
      tokensFrom (pos + s.gap.length + s.lexeme.text.length) items

theorem toList_written_cons (s : Spaced) (items : List Spaced) : (written (s :: items)).toList =
    s.gap.toList ++ (s.lexeme.text.toList ++ (written items).toList) := by
  simp [written]

/-- Each token stands behind all that is written before its lexeme. -/
theorem tokensFrom_eq_mapIdx (pos : Nat) (items : List Spaced) :
    tokensFrom pos items = items.mapIdx fun i s =>
      ⟨s.lexeme.kind, s.lexeme.text, pos + (written (items.take i)).length + s.gap.length⟩ := by
  induction items generalizing pos with
  | nil => rfl
  | cons s items ih =>
    simp [tokensFrom, ih, List.mapIdx_cons, written, Nat.add_assoc]

theorem Lexing.blanks {pos : Nat} {gap rest : List Char} {ts : List Token}
    (hgap : gap.all Text.isBlank) (h : Lexing (pos + gap.length) rest ts) :
    Lexing pos (gap ++ rest) ts := by
  induction gap generalizing pos with
  | nil => exact h
  | cons c gap ih =>
    rw [List.all_cons, Bool.and_eq_true] at hgap
    refine .blank hgap.1 (ih hgap.2 ?_)
    rwa [Nat.add_assoc, Nat.add_comm 1]

/-- A blank ends a name. -/
theorem endsName_blanks {gap rest : List Char} (hgap : gap.all Text.isBlank)
    (h : gap = [] → EndsName rest) : EndsName (gap ++ rest) := by
  cases gap with
  | nil => exact h rfl
  | cons c gap =>
    rw [List.all_cons, Bool.and_eq_true] at hgap
    intro d hd
    cases hd
    refine ⟨continuesName_of_isBlank hgap.1, ?_⟩
    rintro rfl
    exact absurd hgap.1 (by decide)

/-- An operator or a closing parenthesis ends a name. -/
theorem Lexeme.endsName {l : Lexeme} (h : ¬ l.ProlongsName) (rest : List Char) :
    EndsName (l.text.toList ++ rest) := by
  cases l with
  | operator op =>
    intro d hd
    rw [text, String.toList_singleton] at hd
    cases hd
    cases op <;> decide
  | closeParen =>
    intro d hd
    cases hd
    decide
  | openParen => exact absurd (.inr rfl) h
  | name text isName => exact absurd (.inl rfl) h

/-- A lexeme is taken off the text in front of it if a name is not prolonged there. -/
theorem Lexeme.takes (l : Lexeme) {rest : List Char} (h : l.kind = .name → EndsName rest) :
    Takes l.kind l.text.toList rest := by
  cases l with
  | operator op =>
    rw [text, String.toList_singleton]
    exact .operator op rest
  | openParen => exact .openParen rest
  | closeParen => exact .closeParen rest
  | name text isName => exact .name (isName.longest (h rfl))

/-- What follows a name in a layout ends it. -/
theorem Apart.endsName {s : Spaced} {items : List Spaced} (h : Apart (s :: items))
    (hname : s.lexeme.kind = .name) {last : String} (hlast : Text.allBlank last) :
    EndsName ((written items).toList ++ last.toList) := by
  cases items with
  | nil =>
    have := endsName_blanks hlast fun _ => endsName_nil
    rwa [List.append_nil] at this
  | cons t items =>
    rw [toList_written_cons, List.append_assoc, List.append_assoc]
    refine endsName_blanks t.blank fun hgap => t.lexeme.endsName (fun hprolongs => ?_) _
    have hne : t.gap ≠ "" := (List.isChain_cons_cons.mp h).1 hname hprolongs
    exact hne (String.toList_eq_nil_iff.mp hgap)

/-- A layout has the tokens that were written. -/
theorem lexing_written {items : List Spaced} (h : Apart items) {last : String}
    (hlast : Text.allBlank last) (pos : Nat) :
    Lexing pos ((written items).toList ++ last.toList) (tokensFrom pos items) := by
  induction items generalizing pos with
  | nil =>
    have hblanks : Lexing pos (last.toList ++ []) [] := .blanks hlast (.nil _)
    rwa [List.append_nil] at hblanks
  | cons s items ih =>
    rw [toList_written_cons, List.append_assoc, List.append_assoc]
    refine Lexing.blanks s.blank ?_
    have htoken := Lexing.token (s.lexeme.takes fun hname => h.endsName hname hlast)
      (ih h.tail (pos + s.gap.toList.length + s.lexeme.text.toList.length))
    rwa [String.ofList_toList, String.length_toList, String.length_toList] at htoken

/-- Whatever blanks stand before, between and after lexemes, one at least between a name and a name
or an opening parenthesis behind it: the scanner reads those lexemes in their order, with their
kinds and texts, each at the number of characters before it. -/
theorem ofText_written {items : List Spaced} (h : Apart items) {last : String}
    (hlast : Text.allBlank last) : ofText (written items ++ last) = .ok (items.mapIdx fun i s =>
      ⟨s.lexeme.kind, s.lexeme.text, (written (items.take i)).length + s.gap.length⟩) := by
  have hlex := lexing_written h hlast 0
  rw [← String.toList_append, ← ofText_eq_ok_iff, tokensFrom_eq_mapIdx] at hlex
  simpa only [Nat.zero_add] using hlex

/-- Wide blanks, a group with a space in it and a parenthesis that opens no group. -/
def mixed : List Spaced :=
  [⟨"", .name "C(5, 2)" ⟨'C', _, rfl, by decide, [], _, rfl, rfl,
      .inr ⟨['5', ',', ' ', '2'], rfl, by decide, by decide⟩⟩, by decide⟩,
    ⟨"", .operator .xor, by decide⟩,
    ⟨"\u3000", .name "A'" ⟨'A', _, rfl, by decide, ['\''], [], rfl, by decide, .inl rfl⟩,
      by decide⟩,
    ⟨"\u00a0", .openParen, by decide⟩,
    ⟨"\t ", .name "_2" ⟨'_', _, rfl, by decide, ['2'], [], rfl, by decide, .inl rfl⟩, by decide⟩,
    ⟨"", .closeParen, by decide⟩]

theorem ofText_written_mixed :
    Apart mixed ∧ Text.allBlank "\n" ∧ ofText "C(5, 2)^\u3000A'\u00a0(\t _2)\n" = .ok [
      ⟨.name, "C(5, 2)", 0⟩, ⟨.operator, "^", 7⟩, ⟨.name, "A'", 9⟩, ⟨.openParen, "(", 12⟩,
      ⟨.name, "_2", 15⟩, ⟨.closeParen, ")", 17⟩] := by
  have hapart : Apart mixed := by simp [Apart, mixed, Lexeme.ProlongsName, Lexeme.kind]
  have hlast : Text.allBlank "\n" := by decide
  have htext : written mixed ++ "\n" = "C(5, 2)^\u3000A'\u00a0(\t _2)\n" := by decide +kernel
  refine ⟨hapart, hlast, ?_⟩
  rw [← htext, ofText_written hapart hlast]
  exact congrArg Except.ok (by decide +kernel)

end PlanarArea.Token
