import PlanarArea.Json.Number

/-!
Reading JSON text. The grammar is strict: no comments, no trailing commas, no text after the value,
and at most `maxDepth` arrays and objects inside one another.
-/
namespace PlanarArea.Json

def maxDepth : Nat := 127

def isSpace (c : Char) : Bool :=
  c = ' ' || c = '\n' || c = '\t' || c = '\r'

def skipSpace (cs : List Char) : List Char :=
  cs.dropWhile isSpace

theorem length_skipSpace_le (cs : List Char) : (skipSpace cs).length ≤ cs.length :=
  (List.dropWhile_sublist _).length_le

/-- Something read from the front of `cs`, at least one character long. -/
structure Front (α : Type) (cs : List Char) where
  value : α
  rest : List Char
  shorter : rest.length < cs.length

def hexDigit? (c : Char) : Option Nat :=
  if c.isDigit then some (c.toNat - '0'.toNat)
  else if 'a' ≤ c && c ≤ 'f' then some (c.toNat - 'a'.toNat + 10)
  else if 'A' ≤ c && c ≤ 'F' then some (c.toNat - 'A'.toNat + 10)
  else none

def hexWord? (a b c d : Char) : Option Nat := do
  let a ← hexDigit? a
  let b ← hexDigit? b
  let c ← hexDigit? c
  let d ← hexDigit? d
  return ((a * 16 + b) * 16 + c) * 16 + d

/-- The character that stands for itself or a control after a backslash. -/
def escaped? : Char → Option Char
  | '"' => some '"'
  | '\\' => some '\\'
  | '/' => some '/'
  | 'b' => some '\x08'
  | 'f' => some '\x0c'
  | 'n' => some '\n'
  | 'r' => some '\r'
  | 't' => some '\t'
  | _ => none

def isHighSurrogate (n : Nat) : Bool :=
  0xD800 ≤ n && n < 0xDC00

def isLowSurrogate (n : Nat) : Bool :=
  0xDC00 ≤ n && n < 0xE000

/-- The characters of a string up to its closing quote, and what follows the quote. A surrogate
counts only as half of a pair. -/
def splitString? : List Char → Option (List Char × List Char)
  | [] => none
  | '"' :: rest => some ([], rest)
  | '\\' :: 'u' :: a :: b :: c :: d :: rest =>
    match hexWord? a b c d with
    | none => none
    | some high =>
      if isHighSurrogate high then
        match rest with
        | '\\' :: 'u' :: e :: f :: g :: h :: rest =>
          match hexWord? e f g h with
          | none => none
          | some low =>
            if isLowSurrogate low then
              let n := 0x10000 + (high - 0xD800) * 0x400 + (low - 0xDC00)
              (splitString? rest).map fun (cs, rest) => (Char.ofNat n :: cs, rest)
            else none
        | _ => none
      else if isLowSurrogate high then none
      else (splitString? rest).map fun (cs, rest) => (Char.ofNat high :: cs, rest)
  | '\\' :: c :: rest =>
    match escaped? c with
    | none => none
    | some c => (splitString? rest).map fun (cs, rest) => (c :: cs, rest)
  | c :: rest =>
    if c.toNat < 0x20 then none
    else (splitString? rest).map fun (cs, rest) => (c :: cs, rest)

theorem length_lt_of_map {c : Char} {cs rest : List Char} {r : List Char × List Char}
    (ih : ∀ {q}, splitString? rest = some q → q.2.length < rest.length)
    (hlen : rest.length < cs.length)
    (h : (splitString? rest).map (fun (cs, rest) => (c :: cs, rest)) = some r) :
    r.2.length < cs.length := by
  obtain ⟨q, hq, rfl⟩ := Option.map_eq_some_iff.mp h
  have hrest : q.2.length < rest.length := ih hq
  exact Nat.lt_trans hrest hlen

theorem length_splitString_lt {cs : List Char} {r : List Char × List Char}
    (h : splitString? cs = some r) : r.2.length < cs.length := by
  fun_induction splitString? cs generalizing r
  case case2 =>
    cases h
    exact Nat.lt_succ_self _
  -- The cases of a character in front of the rest of the string.
  case case5 ih | case9 ih | case11 ih | case13 ih =>
    refine length_lt_of_map ih ?_ h
    simp only [List.length_cons]
    omega
  all_goals cases h

/-- A word at the very front. -/
def word? : (cs : List Char) → Option (Front Json cs)
  | 'n' :: 'u' :: 'l' :: 'l' :: rest => some ⟨.null, rest, by simp; omega⟩
  | 't' :: 'r' :: 'u' :: 'e' :: rest => some ⟨.bool true, rest, by simp; omega⟩
  | 'f' :: 'a' :: 'l' :: 's' :: 'e' :: rest => some ⟨.bool false, rest, by simp; omega⟩
  | _ => none

/-- A string at the very front. -/
def string? : (cs : List Char) → Option (Front String cs)
  | '"' :: tail =>
    match h : splitString? tail with
    | some (s, rest) =>
      some ⟨String.ofList s, rest, by have := length_splitString_lt h; simp at *; omega⟩
    | none => none
  | _ => none

/-- A number at the very front. -/
def number? (cs : List Char) : Option (Front Json cs) :=
  match splitNumeral? cs with
  | some (n, rest) =>
    if h : rest.length < cs.length then n.value?.map fun v => ⟨v, rest, h⟩ else none
  | none => none

/-- A value that holds no other, at the very front. -/
def scalar? (cs : List Char) : Option (Front Json cs) :=
  match cs with
  | [] => none
  | c :: tail =>
    if c = '"' then (string? (c :: tail)).map fun f => ⟨.str f.value, f.rest, f.shorter⟩
    else if c = '-' || c.isDigit then number? (c :: tail)
    else word? (c :: tail)

mutual

/-- A value at the front, after spaces. `room` arrays and objects may still be opened inside one
another. -/
def value? (room : Nat) (cs : List Char) : Option (Front Json cs) :=
  match h : skipSpace cs with
  | '[' :: tail =>
    match room with
    | 0 => none
    | room + 1 =>
      have shorter : tail.length < cs.length := by
        have := length_skipSpace_le cs; simp [h] at this; omega
      match h' : skipSpace tail with
      | ']' :: rest =>
        some ⟨.arr [], rest, by have := length_skipSpace_le tail; simp [h'] at this; omega⟩
      | _ =>
        match items? room tail with
        | some f => some ⟨.arr f.value, f.rest, by have := f.shorter; omega⟩
        | none => none
  | '\x7b' :: tail =>
    match room with
    | 0 => none
    | room + 1 =>
      have shorter : tail.length < cs.length := by
        have := length_skipSpace_le cs; simp [h] at this; omega
      match h' : skipSpace tail with
      | '\x7d' :: rest =>
        some ⟨.obj [], rest, by have := length_skipSpace_le tail; simp [h'] at this; omega⟩
      | _ =>
        match members? room tail with
        | some f => some ⟨.obj f.value, f.rest, by have := f.shorter; omega⟩
        | none => none
  | other =>
    match scalar? other with
    | some f =>
      some ⟨f.value, f.rest, by
        have := length_skipSpace_le cs; have := f.shorter; simp [h] at *; omega⟩
    | none => none
termination_by (cs.length, 0)

/-- One or more values with commas between them, up to the closing bracket. -/
def items? (room : Nat) (cs : List Char) : Option (Front (List Json) cs) :=
  match value? room cs with
  | none => none
  | some first =>
    match h : skipSpace first.rest with
    | ']' :: rest =>
      some ⟨[first.value], rest, by
        have := length_skipSpace_le first.rest; have := first.shorter; simp [h] at *; omega⟩
    | ',' :: tail =>
      have shorter : tail.length < cs.length := by
        have := length_skipSpace_le first.rest; have := first.shorter; simp [h] at *; omega
      match items? room tail with
      | some f => some ⟨first.value :: f.value, f.rest, by have := f.shorter; omega⟩
      | none => none
    | _ => none
termination_by (cs.length, 1)

/-- One or more members with commas between them, up to the closing brace. -/
def members? (room : Nat) (cs : List Char) : Option (Front (List (String × Json)) cs) :=
  match hn : string? (skipSpace cs) with
  | none => none
  | some name =>
    have named : name.rest.length < cs.length := by
      have := length_skipSpace_le cs; have := name.shorter; omega
    match hc : skipSpace name.rest with
    | ':' :: tail =>
      have colon : tail.length < cs.length := by
        have := length_skipSpace_le name.rest; simp [hc] at this; omega
      match value? room tail with
      | none => none
      | some first =>
        match h : skipSpace first.rest with
        | '\x7d' :: rest =>
          some ⟨[(name.value, first.value)], rest, by
            have := length_skipSpace_le first.rest; have := first.shorter; simp [h] at *; omega⟩
        | ',' :: tail =>
          have shorter : tail.length < cs.length := by
            have := length_skipSpace_le first.rest; have := first.shorter; simp [h] at *; omega
          match members? room tail with
          | some f =>
            some ⟨(name.value, first.value) :: f.value, f.rest, by have := f.shorter; omega⟩
          | none => none
        | _ => none
    | _ => none
termination_by (cs.length, 1)

end

/-- The value of a complete JSON text. -/
def ofText? (text : String) : Option Json :=
  match value? maxDepth text.toList with
  | some f => if skipSpace f.rest = [] then some f.value else none
  | none => none

end PlanarArea.Json
