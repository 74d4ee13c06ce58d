import PlanarArea.Expr.Token

/-!
# Names and single characters in a text

What the scanner makes of the next characters. A name is a starting character, the characters that
continue it and at most one numeric group, each as long as it can be in the text. In front of a
character that could neither continue it nor open such a group it is read back unchanged.
-/
namespace PlanarArea.Token

/-- A numeric group with its parentheses. -/
def IsGroup (cs : List Char) : Prop :=
  ∃ body, cs = '(' :: (body ++ [')']) ∧ body ≠ [] ∧ body.all isMeasure

/-- What may follow the first character of a name. -/
def IsNameTail (cs : List Char) : Prop :=
  ∃ stem group, cs = stem ++ group ∧ stem.all continuesName ∧ (group = [] ∨ IsGroup group)

/-- The characters of a name. -/
def IsName (cs : List Char) : Prop :=
  ∃ c tail, cs = c :: tail ∧ startsName c ∧ IsNameTail tail

/-- The text opens with a numeric group around `body`, which is all that stands before the first
closing parenthesis. -/
def OpensGroup (body cs : List Char) : Prop :=
  ∃ rest, cs = '(' :: (body ++ ')' :: rest) ∧ ')' ∉ body ∧ body ≠ [] ∧ body.all isMeasure

/-- What may follow the first character of a name, and as much of it as stands before `rest`. -/
def LongestTail (tail rest : List Char) : Prop :=
  ∃ stem group, tail = stem ++ group ∧ stem.all continuesName ∧
    (∀ c, (group ++ rest).head? = some c → continuesName c = false) ∧
    ((group = [] ∧ ∀ body, ¬ OpensGroup body rest) ∨
      ∃ body, group = '(' :: (body ++ [')']) ∧ OpensGroup body (group ++ rest))

/-- The characters of a name that goes on for as long as it can before `rest`. -/
def LongestName (cs rest : List Char) : Prop :=
  ∃ c tail, cs = c :: tail ∧ startsName c ∧ LongestTail tail rest

/-- Nothing at the start of `cs` belongs to a name before it. -/
def EndsName (cs : List Char) : Prop :=
  ∀ c, cs.head? = some c → continuesName c = false ∧ c ≠ '('

theorem startsName_ne {c : Char} (h : startsName c = true) : c ≠ '(' ∧ c ≠ ')' := by
  constructor <;> rintro rfl <;> exact absurd h (by decide)

theorem continuesName_ne {c : Char} (h : continuesName c = true) : c ≠ '(' ∧ c ≠ ')' := by
  constructor <;> rintro rfl <;> exact absurd h (by decide)

theorem isMeasure_ne {c : Char} (h : isMeasure c = true) : c ≠ '(' ∧ c ≠ ')' := by
  constructor <;> rintro rfl <;> exact absurd h (by decide)

theorem endsName_nil : EndsName [] := by simp [EndsName]

theorem takeWhile_append_of_stop {p : Char → Bool} {xs ys : List Char} (hx : xs.all p)
    (hy : ∀ c, ys.head? = some c → p c = false) :
    (xs ++ ys).takeWhile p = xs ∧ (xs ++ ys).dropWhile p = ys := by
  induction xs with
  | nil =>
    cases ys with
    | nil => simp
    | cons y ys => simp [hy y rfl]
  | cons x xs ih =>
    simp only [List.all_cons, Bool.and_eq_true] at hx
    simp [hx.1, ih hx.2]

theorem splitGroup_group {group rest : List Char} (h : IsGroup group) :
    splitGroup (group ++ rest) = (group, rest) := by
  obtain ⟨body, rfl, hne, hall⟩ := h
  have hbody : body.all (· ≠ ')') := by
    simp only [List.all_eq_true, decide_eq_true_eq] at hall ⊢
    exact fun c hc => (isMeasure_ne (hall c hc)).2
  have hclose : ∀ c, (')' :: rest).head? = some c → decide (c ≠ ')') = false := by simp
  obtain ⟨htake, hdrop⟩ := takeWhile_append_of_stop hbody hclose
  simp only [List.cons_append, List.append_assoc, List.nil_append, splitGroup, htake, hdrop]
  rw [if_pos ⟨hne, hall⟩]

/-- A split-off group is empty or a numeric group. -/
theorem splitGroup_fst (cs : List Char) : (splitGroup cs).1 = [] ∨ IsGroup (splitGroup cs).1 := by
  unfold splitGroup
  split
  · rename_i inner
    dsimp only
    split
    · rename_i close rest hdrop
      split
      · rename_i hbody
        have hclose : close = ')' := by
          have := List.head?_dropWhile_not (· ≠ ')') inner
          rw [hdrop] at this
          simpa using this
        exact .inr ⟨_, by rw [hclose]; rfl, hbody.1, hbody.2⟩
      · exact .inl rfl
    · exact .inl rfl
  · exact .inl rfl

theorem IsGroup.exists_opensGroup {group : List Char} (h : IsGroup group) (rest : List Char) :
    ∃ body, group = '(' :: (body ++ [')']) ∧ OpensGroup body (group ++ rest) := by
  obtain ⟨body, rfl, hne, hall⟩ := h
  refine ⟨body, rfl, rest, by simp, fun hclose => ?_, hne, hall⟩
  exact (isMeasure_ne (List.all_eq_true.mp hall _ hclose)).2 rfl

theorem OpensGroup.isGroup {body cs : List Char} (h : OpensGroup body cs) :
    IsGroup ('(' :: (body ++ [')'])) := by
  obtain ⟨rest, -, -, hne, hall⟩ := h
  exact ⟨body, rfl, hne, hall⟩

/-- A group is split off exactly if the text opens with one. -/
theorem splitGroup_eq_nil_iff {cs : List Char} :
    splitGroup cs = ([], cs) ↔ ∀ body, ¬ OpensGroup body cs := by
  constructor
  · intro hnil body hopens
    have hgroup := hopens.isGroup
    obtain ⟨rest, rfl, -⟩ := hopens
    have hsplit : splitGroup ('(' :: (body ++ [')']) ++ rest) = _ := splitGroup_group hgroup
    simp only [List.cons_append, List.append_assoc, List.nil_append, hnil] at hsplit
    cases hsplit
  · intro hnone
    have happend := splitGroup_append cs
    rcases splitGroup_fst cs with hnil | hgroup
    · rw [hnil, List.nil_append] at happend
      exact Prod.ext hnil happend
    · obtain ⟨body, -, hopens⟩ := hgroup.exists_opensGroup (splitGroup cs).2
      rw [happend] at hopens
      exact absurd hopens (hnone body)

/-- The rest of a name is split off as long as it can be. -/
theorem longestTail_splitName (cs : List Char) : LongestTail (splitName cs).1 (splitName cs).2 := by
  simp only [splitName]
  have hstop := List.head?_dropWhile_not continuesName cs
  generalize cs.dropWhile continuesName = after at hstop ⊢
  have happend := splitGroup_append after
  refine ⟨cs.takeWhile continuesName, (splitGroup after).1, rfl, List.all_takeWhile, ?_, ?_⟩
  · intro c hc
    rw [happend] at hc
    rw [hc] at hstop
    simpa using hstop
  · rcases splitGroup_fst after with hnil | hgroup
    · rw [hnil, List.nil_append] at happend
      refine .inl ⟨hnil, ?_⟩
      rw [happend]
      exact splitGroup_eq_nil_iff.mp (Prod.ext hnil happend)
    · exact .inr (hgroup.exists_opensGroup _)

/-- What is as long as it can be is split off. -/
theorem splitName_append_of_longest {tail rest : List Char} (h : LongestTail tail rest) :
    splitName (tail ++ rest) = (tail, rest) := by
  obtain ⟨stem, group, rfl, hstem, hstop, hgroup⟩ := h
  obtain ⟨htake, hdrop⟩ := takeWhile_append_of_stop hstem hstop
  simp only [splitName, List.append_assoc, htake, hdrop]
  rcases hgroup with ⟨rfl, hnone⟩ | ⟨body, rfl, hopens⟩
  · rw [List.nil_append, splitGroup_eq_nil_iff.mpr hnone]
  · rw [splitGroup_group hopens.isGroup]

/-- Every name is as long as it can be if the text after it cannot prolong it. -/
theorem IsName.longest {cs rest : List Char} (h : IsName cs) (hr : EndsName rest) :
    LongestName cs rest := by
  obtain ⟨c, tail, rfl, hc, stem, group, rfl, hstem, hgroup⟩ := h
  refine ⟨c, _, rfl, hc, stem, group, rfl, hstem, ?_⟩
  rcases hgroup with rfl | hgroup
  · refine ⟨fun d hd => (hr d hd).1, .inl ⟨rfl, ?_⟩⟩
    rintro body ⟨after, rfl, -⟩
    exact (hr '(' rfl).2 rfl
  · obtain ⟨body, hbody, hopens⟩ := hgroup.exists_opensGroup rest
    refine ⟨?_, .inr ⟨body, hbody, hopens⟩⟩
    rw [hbody]
    intro d hd
    cases hd
    decide

theorem LongestName.isName {cs rest : List Char} (h : LongestName cs rest) : IsName cs := by
  obtain ⟨c, tail, rfl, hc, stem, group, rfl, hstem, -, hgroup⟩ := h
  refine ⟨c, _, rfl, hc, stem, group, rfl, hstem, ?_⟩
  rcases hgroup with ⟨rfl, -⟩ | ⟨body, rfl, hopens⟩
  · exact .inl rfl
  · exact .inr hopens.isGroup

/-- The blank characters one by one. -/
def blankCodes : List Nat :=
  [0x9, 0xA, 0xB, 0xC, 0xD, 0x20, 0x85, 0xA0, 0x1680, 0x2000, 0x2001, 0x2002, 0x2003, 0x2004,
    0x2005, 0x2006, 0x2007, 0x2008, 0x2009, 0x200A, 0x2028, 0x2029, 0x202F, 0x205F, 0x3000]

theorem toNat_of_isBlank {c : Char} (h : Text.isBlank c = true) : c.toNat ∈ blankCodes := by
  obtain ⟨r, hr, hlo, hhi⟩ := Text.exists_range_of_inRanges h
  simp only [Text.blankRanges, List.mem_cons, List.not_mem_nil, or_false] at hr
  rcases hr with rfl | rfl | rfl | rfl | rfl | rfl | rfl | rfl | rfl | rfl <;>
    simp only [blankCodes, List.mem_cons, List.not_mem_nil, or_false] <;> omega

theorem continuesName_blankCodes : ∀ n ∈ blankCodes, continuesName (Char.ofNat n) = false := by
  decide +kernel

/-- No blank character is part of a name outside its group. -/
theorem continuesName_of_isBlank {c : Char} (h : Text.isBlank c = true) :
    continuesName c = false := by
  have := continuesName_blankCodes c.toNat (toNat_of_isBlank h)
  rwa [Char.ofNat_toNat] at this

theorem continuesName_of_startsName {c : Char} (h : startsName c = true) :
    continuesName c = true := by
  simp only [startsName, Bool.or_eq_true, decide_eq_true_eq] at h
  rcases h with h | h
  · simp [continuesName, Text.isAlphanumeric, h]
  · simp [continuesName, h]

theorem isBlank_of_startsName {c : Char} (h : startsName c = true) : Text.isBlank c = false := by
  cases hb : Text.isBlank c with
  | false => rfl
  | true => exact absurd (continuesName_of_startsName h) (by simp [continuesName_of_isBlank hb])

/-- No operator and no parenthesis starts a name. -/
theorem ofChar?_of_startsName {c : Char} (h : startsName c = true) : Kind.ofChar? c = none := by
  unfold Kind.ofChar?
  split
  · rename_i op hop
    rw [Op.ofSymbol?_eq_some_iff] at hop
    cases op <;> subst hop <;> exact absurd h (by decide)
  · split
    · rename_i hc
      subst hc
      exact absurd h (by decide)
    · split
      · rename_i hc
        subst hc
        exact absurd h (by decide)
      · rfl

theorem scan_cons_blank {c : Char} (h : Text.isBlank c = true) (pos : Nat) (rest : List Char) :
    scan pos (c :: rest) = scan (pos + 1) rest := by
  rw [scan, if_pos h]

theorem scan_cons_single {c : Char} {kind : Kind} (hb : Text.isBlank c = false)
    (hk : Kind.ofChar? c = some kind) (pos : Nat) (rest : List Char) :
    scan pos (c :: rest) = (⟨kind, String.singleton c, pos⟩ :: ·) <$> scan (pos + 1) rest := by
  rw [scan, if_neg (by simp [hb]), hk]

theorem scan_symbol (op : Op) (pos : Nat) (rest : List Char) :
    scan pos (op.symbol :: rest) =
      (⟨.operator, String.singleton op.symbol, pos⟩ :: ·) <$> scan (pos + 1) rest := by
  have hb : Text.isBlank op.symbol = false := by cases op <;> decide
  exact scan_cons_single hb (by simp [Kind.ofChar?]) pos rest

theorem scan_openParen (pos : Nat) (rest : List Char) :
    scan pos ('(' :: rest) = (⟨.openParen, "(", pos⟩ :: ·) <$> scan (pos + 1) rest :=
  scan_cons_single (by decide) (by decide) pos rest

theorem scan_closeParen (pos : Nat) (rest : List Char) :
    scan pos (')' :: rest) = (⟨.closeParen, ")", pos⟩ :: ·) <$> scan (pos + 1) rest :=
  scan_cons_single (by decide) (by decide) pos rest

/-- A name that goes on for as long as it can is one token. -/
theorem scan_longestName {cs rest : List Char} (h : LongestName cs rest) (pos : Nat) :
    scan pos (cs ++ rest) =
      (⟨.name, String.ofList cs, pos⟩ :: ·) <$> scan (pos + cs.length) rest := by
  obtain ⟨c, tail, rfl, hc, ht⟩ := h
  rw [List.cons_append, scan, if_neg (by simp [isBlank_of_startsName hc]),
    ofChar?_of_startsName hc]
  simp only [if_pos hc, splitName_append_of_longest ht, List.length_cons]
  rw [Nat.add_assoc pos 1, Nat.add_comm 1]

/-- A name in front of something that ends it is one token. -/
theorem scan_name_append {cs rest : List Char} (h : IsName cs) (hr : EndsName rest) (pos : Nat) :
    scan pos (cs ++ rest) =
      (⟨.name, String.ofList cs, pos⟩ :: ·) <$> scan (pos + cs.length) rest :=
  scan_longestName (h.longest hr) pos

end PlanarArea.Token
