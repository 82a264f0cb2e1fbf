import MoreCpp.Library.Cells
import MoreCpp.Library.Languages

/-!
`is_match` of `algorithms/strings/strings.cpp`, and the language of a pattern. An index
out of range gives `none`, and so does a recursion that runs out of fuel.
-/

namespace MoreCpp

open Computability Library

namespace IsMatch

abbrev Memo : Type := List (List Int)

/-- `j + 1 < n && p[j+1] == '*'`. -/
def starredAt (p : List Char) (j : Nat) : Option Bool :=
  if j + 1 < p.length then do
    let c ← p[j + 1]?
    return c = '*'
  else some false

/-- `i < m && (s[i]==p[j] || p[j] == '.')`. -/
def matchesAt (s p : List Char) (i j : Nat) : Option Bool :=
  if i < s.length then do
    let x ← s[i]?
    let c ← p[j]?
    return x = c || c = '.'
  else some false

/-- `f[i][j] = res` and the return after it. -/
def settle (f : Memo) (i j : Nat) (res : Int) : Option (Bool × Memo) := do
  let f ← writeCell f i j res
  let res ← readCell f i j
  return (res = 1, f)

def dfs (s p : List Char) : Nat → Nat → Nat → Memo → Option (Bool × Memo)
  | 0, _, _, _ => none
  | fuel + 1, i, j, f =>
    if j ≥ p.length then
      some (i = s.length, f)
    else do
      let res ← readCell f i j
      if res ≠ 0 then
        return (res = 1, f)
      else if ← starredAt p j then
        let (skipped, f) ← dfs s p fuel i (j + 2) f
        if skipped then
          settle f i j 1
        else if ← matchesAt s p i j then
          let (taken, f) ← dfs s p fuel (i + 1) j f
          settle f i j (if taken then 1 else -1)
        else settle f i j (-1)
      else if ← matchesAt s p i j then
        let (taken, f) ← dfs s p fuel (i + 1) (j + 1) f
        -- this return does not write the memo
        if taken then return (true, f) else settle f i j (-1)
      else settle f i j (-1)

def isMatch (fuel : Nat) (s p : List Char) : Option Bool := do
  let f := List.replicate (s.length + 1) (List.replicate (p.length + 1) 0)
  let (matched, _) ← dfs s p fuel 0 0 f
  return matched

/-! ## The language of a pattern -/

/-- A character or `.`, and whether a `*` follows it. -/
structure Atom where
  char : Char
  starred : Bool

/-- Whether the character of an atom stands for `x`. -/
def Atom.Accepts (a : Atom) (x : Char) : Prop := x = a.char ∨ a.char = '.'

def Atom.language (a : Atom) : Language Char :=
  if a.starred then (symbols a.Accepts)∗ else symbols a.Accepts

def language (atoms : List Atom) : Language Char := (atoms.map Atom.language).prod

def render (atoms : List Atom) : List Char :=
  atoms.flatMap fun a => if a.starred then [a.char, '*'] else [a.char]

def parse : List Char → List Atom
  | [] => []
  | [c] => [⟨c, false⟩]
  | c :: d :: rest =>
    if d = '*' then ⟨c, true⟩ :: parse rest else ⟨c, false⟩ :: parse (d :: rest)

/-- Each `*` follows a character other than `*`. -/
def WellFormed (p : List Char) : Prop :=
  ∀ j, p[j]? = some '*' → 0 < j ∧ p[j - 1]? ≠ some '*'

instance : DecidablePred WellFormed := fun p =>
  decidable_of_iff (∀ j < p.length, p[j]? = some '*' → 0 < j ∧ p[j - 1]? ≠ some '*')
    ⟨fun h j hj => h j (List.getElem?_eq_some_iff.mp hj).1 hj, fun h j _ hj => h j hj⟩

theorem render_parse (p : List Char) : render (parse p) = p := by
  induction p using parse.induct with
  | case1 => rfl
  | case2 c => rfl
  | case3 c rest ih =>
      rw [parse, if_pos rfl]
      exact congrArg (fun q => c :: '*' :: q) ih
  | case4 c d rest hne ih =>
      rw [parse, if_neg hne]
      exact congrArg (List.cons c) ih

/-- The rest of a well-formed pattern from where no `*` is. -/
theorem WellFormed.drop {p : List Char} (h : WellFormed p) {k : Nat} (hk : p[k]? ≠ some '*') :
    WellFormed (p.drop k) := by
  intro j hj
  rw [List.getElem?_drop] at hj
  have hpos : 0 < j := by
    apply Nat.pos_of_ne_zero
    rintro rfl
    exact hk hj
  have hbefore : k + (j - 1) = k + j - 1 := by omega
  rw [List.getElem?_drop, hbefore]
  exact ⟨hpos, (h (k + j) hj).2⟩

/-- In a well-formed pattern no character stands for itself that is `*`. -/
theorem WellFormed.char_ne_star {p : List Char} (h : WellFormed p) :
    ∀ a ∈ parse p, a.char ≠ '*' := by
  have hhead : ∀ {c : Char} {q : List Char}, WellFormed (c :: q) → c ≠ '*' := by
    intro c q hwf heq
    exact Nat.lt_irrefl 0 (hwf 0 (congrArg some heq)).1
  induction p using parse.induct with
  | case1 =>
      intro a ha
      cases ha
  | case2 c =>
      intro a ha
      obtain rfl := List.mem_singleton.mp ha
      exact hhead h
  | case3 c rest ih =>
      rw [parse, if_pos rfl]
      have hrest : WellFormed rest := by
        apply h.drop (k := 2)
        exact fun htwo => (h 2 htwo).2 rfl
      exact List.forall_mem_cons.mpr ⟨hhead h, ih hrest⟩
  | case4 c d rest hne ih =>
      rw [parse, if_neg hne]
      have hrest : WellFormed (d :: rest) := by
        apply h.drop (k := 1)
        exact fun hone => hne (Option.some.inj hone)
      exact List.forall_mem_cons.mpr ⟨hhead h, ih hrest⟩

/-! ## What is left to match -/

section Matches

variable {s p : List Char} {f : Memo} {i j : Nat}

/-- The string from `i` on is in the language of the pattern from `j` on. -/
def Matches (s p : List Char) (i j : Nat) : Prop := s.drop i ∈ language (parse (p.drop j))

/-- The character at `i` is one that the pattern has at `j`. -/
def Stands (s p : List Char) (i j : Nat) : Prop :=
  ∃ x c, s[i]? = some x ∧ p[j]? = some c ∧ (x = c ∨ c = '.')

theorem Stands.lt_length (h : Stands s p i j) : i < s.length := by
  obtain ⟨x, -, hx, -⟩ := h
  obtain ⟨hlt, -⟩ := List.getElem?_eq_some_iff.mp hx
  exact hlt

theorem drop_eq_cons_iff {x : Char} {v : List Char} :
    s.drop i = x :: v ↔ s[i]? = some x ∧ v = s.drop (i + 1) := by
  constructor
  · intro h
    have hlt : i < s.length := by
      have hlength := congrArg List.length h
      rw [List.length_drop, List.length_cons] at hlength
      omega
    rw [List.drop_eq_getElem_cons hlt] at h
    obtain ⟨hx, hv⟩ := List.cons.inj h
    rw [List.getElem?_eq_getElem hlt]
    exact ⟨congrArg some hx, hv.symm⟩
  · rintro ⟨hx, rfl⟩
    obtain ⟨hlt, rfl⟩ := List.getElem?_eq_some_iff.mp hx
    exact List.drop_eq_getElem_cons hlt

theorem matches_end (hj : p.length ≤ j) (hi : i ≤ s.length) :
    Matches s p i j ↔ i = s.length := by
  rw [Matches, List.drop_eq_nil_of_le hj]
  show s.drop i ∈ (1 : Language Char) ↔ i = s.length
  rw [Language.mem_one, List.drop_eq_nil_iff]
  omega

/-- The first symbol of the string, taken by the atom at `j`. -/
theorem exists_cons_iff {starred : Bool} {L : Language Char} (hj : j < p.length) :
    (∃ x v, s.drop i = x :: v ∧ Atom.Accepts ⟨p[j], starred⟩ x ∧ v ∈ L) ↔
      Stands s p i j ∧ s.drop (i + 1) ∈ L := by
  constructor
  · rintro ⟨x, v, hdrop, haccepts, hv⟩
    obtain ⟨hx, rfl⟩ := drop_eq_cons_iff.mp hdrop
    exact ⟨⟨x, p[j], hx, List.getElem?_eq_getElem hj, haccepts⟩, hv⟩
  · rintro ⟨⟨x, c, hx, hc, haccepts⟩, hv⟩
    obtain ⟨_, rfl⟩ := List.getElem?_eq_some_iff.mp hc
    exact ⟨x, s.drop (i + 1), drop_eq_cons_iff.mpr ⟨hx, rfl⟩, haccepts, hv⟩

theorem matches_starred (hj : j + 1 < p.length) (hstar : p[j + 1]? = some '*') :
    Matches s p i j ↔ Matches s p i (j + 2) ∨ Stands s p i j ∧ Matches s p (i + 1) j := by
  have hj' : j < p.length := by omega
  have hdrop : p.drop j = p[j] :: '*' :: p.drop (j + 2) := by
    rw [List.drop_eq_getElem_cons hj', List.drop_eq_getElem_cons hj]
    rw [List.getElem?_eq_getElem hj] at hstar
    rw [Option.some.inj hstar]
  have hparse : parse (p.drop j) = ⟨p[j], true⟩ :: parse (p.drop (j + 2)) := by
    rw [hdrop, parse, if_pos rfl]
  have hlanguage : language (parse (p.drop j)) =
      (symbols (Atom.Accepts ⟨p[j], true⟩))∗ * language (parse (p.drop (j + 2))) := by
    rw [hparse]
    rfl
  rw [Matches, hlanguage, mem_symbols_kstar_mul, ← hlanguage, exists_cons_iff hj']
  rfl

theorem matches_plain (hj : j < p.length) (hplain : p[j + 1]? ≠ some '*') :
    Matches s p i j ↔ Stands s p i j ∧ Matches s p (i + 1) (j + 1) := by
  have hparse : parse (p.drop j) = ⟨p[j], false⟩ :: parse (p.drop (j + 1)) := by
    rw [List.drop_eq_getElem_cons hj]
    cases hrest : p.drop (j + 1) with
    | nil => rfl
    | cons d rest =>
        obtain ⟨hd, -⟩ := drop_eq_cons_iff.mp hrest
        rw [parse, if_neg]
        rintro rfl
        exact hplain hd
  have hlanguage : language (parse (p.drop j)) =
      symbols (Atom.Accepts ⟨p[j], false⟩) * language (parse (p.drop (j + 1))) := by
    rw [hparse]
    rfl
  rw [Matches, hlanguage, mem_symbols_mul, exists_cons_iff hj]
  rfl

theorem starredAt_spec (p : List Char) (j : Nat) : ∃ b, starredAt p j = some b ∧
    (b = true ↔ p[j + 1]? = some '*') := by
  unfold starredAt
  by_cases hj : j + 1 < p.length
  · refine ⟨decide (p[j + 1] = '*'), ?_, ?_⟩
    · simp [hj]
    · simp [List.getElem?_eq_getElem hj]
  · refine ⟨false, by rw [if_neg hj], ?_⟩
    simp [List.getElem?_eq_none (Nat.le_of_not_lt hj)]

theorem matchesAt_spec (hj : j < p.length) :
    ∃ b, matchesAt s p i j = some b ∧ (b = true ↔ Stands s p i j) := by
  unfold matchesAt Stands
  by_cases hi : i < s.length
  · refine ⟨s[i] = p[j] || p[j] = '.', ?_, ?_⟩
    · simp [hi, hj]
    · simp [hi, hj]
  · refine ⟨false, by rw [if_neg hi], ?_⟩
    simp [List.getElem?_eq_none (Nat.le_of_not_lt hi)]

/-! ## The memo -/

/-- What a cell may hold: nothing yet, or what is true. -/
def Remembers (s p : List Char) (f : Memo) : Prop :=
  Cellwise f (s.length + 1) (p.length + 1) fun i j res =>
    res = 0 ∨ res = 1 ∧ Matches s p i j ∨ res = -1 ∧ ¬ Matches s p i j

/-- A result that is true, and a memo that stays so. -/
def Answers (s p : List Char) (i j : Nat) (result : Option (Bool × Memo)) : Prop :=
  ∃ b f, result = some (b, f) ∧ Remembers s p f ∧ (b = true ↔ Matches s p i j)

theorem settle_spec {b : Bool} (h : Remembers s p f) (hi : i ≤ s.length) (hj : j < p.length)
    (hb : b = true ↔ Matches s p i j) :
    Answers s p i j (settle f i j (if b then 1 else -1)) := by
  have hcell : (if b then (1 : Int) else -1) = 0 ∨
      (if b then (1 : Int) else -1) = 1 ∧ Matches s p i j ∨
      (if b then (1 : Int) else -1) = -1 ∧ ¬ Matches s p i j := by
    cases b with
    | true => exact .inr (.inl ⟨rfl, hb.mp rfl⟩)
    | false => exact .inr (.inr ⟨rfl, by simpa using hb⟩)
  obtain ⟨f', hwrite, hnext, hread⟩ :=
    h.write (Nat.lt_succ_of_le hi) (Nat.lt_succ_of_lt hj) hcell
  refine ⟨b, f', ?_, hnext, hb⟩
  cases b <;> simp_all [settle]

theorem settle_false (h : Remembers s p f) (hi : i ≤ s.length) (hj : j < p.length)
    (hmatch : ¬ Matches s p i j) : Answers s p i j (settle f i j (-1)) :=
  settle_spec (b := false) h hi hj ⟨nofun, fun h => absurd h hmatch⟩

/-- A cell that has been written. -/
theorem remembered {res : Int} (h : Remembers s p f) (hi : i ≤ s.length) (hj : j < p.length)
    (hread : readCell f i j = some res) (hres : res ≠ 0) :
    Answers s p i j (some (decide (res = 1), f)) := by
  obtain ⟨res', hread', hcell⟩ := h i (Nat.lt_succ_of_le hi) j (Nat.lt_succ_of_lt hj)
  cases hread.symm.trans hread'
  refine ⟨_, f, rfl, h, ?_⟩
  obtain rfl | ⟨rfl, hmatch⟩ | ⟨rfl, hmatch⟩ := hcell
  · exact absurd rfl hres
  · simp [hmatch]
  · simp [hmatch]

theorem dfs_spec {fuel : Nat} (h : Remembers s p f) (hi : i ≤ s.length) (hj : j ≤ p.length)
    (hfuel : (s.length - i) + (p.length - j) < fuel) :
    Answers s p i j (dfs s p fuel i j f) := by
  induction fuel generalizing i j f with
  | zero => exact absurd hfuel (Nat.not_lt_zero _)
  | succ fuel ih =>
      rw [dfs]
      by_cases hend : j ≥ p.length
      · rw [if_pos hend]
        refine ⟨_, f, rfl, h, ?_⟩
        rw [matches_end hend hi, decide_eq_true_iff]
      · have hj' : j < p.length := Nat.lt_of_not_le hend
        obtain ⟨res, hread, -⟩ := h i (Nat.lt_succ_of_le hi) j (Nat.lt_succ_of_lt hj')
        obtain ⟨starred, hstarred, hstar⟩ := starredAt_spec p j
        obtain ⟨stands, hstands, hstand⟩ := matchesAt_spec (s := s) (i := i) hj'
        simp only [if_neg hend, hread, hstarred, hstands, Option.bind_eq_bind,
          Option.bind_some]
        by_cases hres : res ≠ 0
        · rw [if_pos hres]
          exact remembered h hi hj' hread hres
        rw [if_neg hres]
        cases starred with
        | true =>
            have hnext := hstar.mp rfl
            obtain ⟨hj2, -⟩ := List.getElem?_eq_some_iff.mp hnext
            have hsplit := matches_starred (s := s) (i := i) hj2 hnext
            obtain ⟨skipped, f, hskip, h, hskipped⟩ := ih (j := j + 2) h hi hj2 (by omega)
            simp only [if_true, hskip, Option.bind_some]
            cases skipped with
            | true =>
                have hmatch : Matches s p i j := hsplit.mpr (.inl (hskipped.mp rfl))
                exact settle_spec (b := true) h hi hj' (iff_of_true rfl hmatch)
            | false =>
                have hnot : ¬ Matches s p i (j + 2) := by simpa using hskipped
                rw [or_iff_right hnot] at hsplit
                cases stands with
                | true =>
                    have hi' := (hstand.mp rfl).lt_length
                    obtain ⟨taken, f, htake, h, htaken⟩ := ih (i := i + 1) h hi' hj (by omega)
                    rw [and_iff_right (hstand.mp rfl)] at hsplit
                    simp only [if_true, htake, Option.bind_some]
                    exact settle_spec h hi hj' (htaken.trans hsplit.symm)
                | false =>
                    have hnot : ¬ Stands s p i j := by simpa using hstand
                    exact settle_false h hi hj' fun hmatch => hnot (hsplit.mp hmatch).1
        | false =>
            have hnext : p[j + 1]? ≠ some '*' := by simpa using hstar
            have hsplit := matches_plain (s := s) (i := i) hj' hnext
            cases stands with
            | true =>
                have hi' := (hstand.mp rfl).lt_length
                obtain ⟨taken, f, htake, h, htaken⟩ := ih (i := i + 1) h hi' hj' (by omega)
                rw [and_iff_right (hstand.mp rfl)] at hsplit
                simp only [if_true, htake, Option.bind_some]
                cases taken with
                | true => exact ⟨true, f, rfl, h, htaken.trans hsplit.symm⟩
                | false =>
                    have hnot : ¬ Matches s p (i + 1) (j + 1) := by simpa using htaken
                    exact settle_false h hi hj' fun hmatch => hnot (hsplit.mp hmatch)
            | false =>
                have hnot : ¬ Stands s p i j := by simpa using hstand
                exact settle_false h hi hj' fun hmatch => hnot (hsplit.mp hmatch).1

end Matches

example : isMatch 8 ['a', 'a', 'b'] ['.', '*', 'b'] = some true := by decide

end IsMatch

end MoreCpp
