import MoreCpp.Library.Border
import MoreCpp.Library.Cells
import MoreCpp.Library.Loop

/-!
`search_for_pat` of `algorithms/strings/strings.cpp`, for a pattern that is not empty.
An index out of range gives `none`, and so does a loop that runs out of fuel.
-/

namespace MoreCpp

open Library

namespace SearchForPat

variable {α : Type}

section Model

variable [DecidableEq α]

/-- A turn of the loop of `LPS`, at `lps`, `len` and `i`. -/
def lpsRound (s : List α) : List Nat × Nat × Nat → Option ((List Nat × Nat × Nat) ⊕ List Nat)
  | (lps, len, i) =>
    if i < s.length then do
      let a ← s[i]?
      let b ← s[len]?
      if a = b then
        let lps ← store lps i (len + 1)
        return .inl (lps, len + 1, i + 1)
      else if len ≠ 0 then
        let len ← lps[len - 1]?
        return .inl (lps, len, i)
      else
        let lps ← store lps i 0
        return .inl (lps, len, i + 1)
    else some (.inr lps)

def LPS (fuel : Nat) (s : List α) : Option (List Nat) :=
  loop (lpsRound s) fuel (List.replicate s.length 0, 0, 1)

/-- A turn of the loop of `search_for_pat`, at `res`, `i` and `j`. -/
def searchRound (pat txt : List α) (lps : List Nat) :
    List Nat × Nat × Nat → Option ((List Nat × Nat × Nat) ⊕ List Nat)
  | (res, i, j) =>
    if i < txt.length then do
      let a ← txt[i]?
      let b ← pat[j]?
      if a = b then
        let i := i + 1
        let j := j + 1
        if j = pat.length then
          let res := res ++ [i - j]
          let j ← lps[j - 1]?
          return .inl (res, i, j)
        else return .inl (res, i, j)
      else if j ≠ 0 then
        let j ← lps[j - 1]?
        return .inl (res, i, j)
      else return .inl (res, i + 1, j)
    else some (.inr res)

def searchForPat (fuel : Nat) (pat txt : List α) : Option (List Nat) := do
  let lps ← LPS fuel pat
  loop (searchRound pat txt lps) fuel ([], 0, 0)

end Model

/-! ## The failure table -/

section Table

variable {s : List α} {lps : List Nat} {len i : Nat}

/-- The first `n` entries are the longest borders. -/
def Borders (s : List α) (lps : List Nat) (n : Nat) : Prop :=
  ∀ i < n, ∃ b, lps[i]? = some b ∧ LongestBorder s (i + 1) b

theorem Borders.store (h : Borders s lps i) (hi : i < lps.length)
    (hb : LongestBorder s (i + 1) len) :
    ∃ lps', store lps i len = some lps' ∧ lps'.length = lps.length ∧ Borders s lps' (i + 1) := by
  refine ⟨lps.set i len, store_eq hi, List.length_set, fun k hk => ?_⟩
  rcases Nat.lt_succ_iff_lt_or_eq.mp hk with hlt | rfl
  · rw [List.getElem?_set_ne (by omega)]
    exact h k hlt
  · exact ⟨len, by rw [List.getElem?_set_self hi], hb⟩

/-- The loop of `LPS`. -/
structure Filling (s : List α) (lps : List Nat) (len i : Nat) : Prop where
  size : lps.length = s.length
  start : 1 ≤ i
  upper : i ≤ s.length
  short : len < i
  candidate : Candidate s s i i len
  borders : Borders s lps i

/-- A character that goes on with the candidate makes the longest border. -/
theorem Filling.longest_succ (h : Filling s lps len i) (hi : i < s.length)
    (heq : s[len]? = s[i]?) : LongestBorder s (i + 1) (len + 1) where
  proper := Nat.succ_lt_succ h.short
  border := (take_succ_suffix_iff (Nat.lt_trans h.short hi) hi).mpr ⟨h.candidate.matched, heq⟩
  longest k hk hborder := h.candidate.le_succ hi h.upper (by omega) hborder

theorem Filling.longest_zero (h : Filling s lps 0 i) (hi : i < s.length)
    (hne : s[0]? ≠ s[i]?) : LongestBorder s (i + 1) 0 where
  proper := Nat.succ_pos i
  border := List.nil_suffix
  longest k hk hborder :=
    Nat.le_of_eq (h.candidate.eq_zero hne hi h.upper (by omega) hborder)

/-- The next turn after an entry. -/
theorem Filling.next {len' : Nat} (h : Filling s lps len i) (hi : i < s.length)
    (hb : LongestBorder s (i + 1) len') :
    ∃ lps', store lps i len' = some lps' ∧ Filling s lps' len' (i + 1) := by
  have hsize := h.size
  obtain ⟨lps', hstore, hsize', hborders⟩ := h.borders.store (by omega) hb
  refine ⟨lps', hstore, by omega, Nat.succ_pos i, hi, hb.proper, ?_, hborders⟩
  exact ⟨hb.border, fun k hk hmatch _ => hb.longest k hk hmatch⟩

theorem filling_start (hs : s ≠ []) : Filling s (List.replicate s.length 0) 0 1 := by
  have hpos := List.length_pos_of_ne_nil hs
  refine ⟨List.length_replicate, Nat.le_refl 1, hpos, Nat.one_pos, ?_, ?_⟩
  · exact ⟨List.nil_suffix, fun k hk _ _ => by omega⟩
  · intro k hk
    obtain rfl : k = 0 := by omega
    exact ⟨0, by simp [hpos], LongestBorder.one s⟩

end Table

/-! ## The search -/

section Search

variable {pat txt : List α} {res : List Nat} {i j : Nat}

/-- The positions of the occurrences that end by `i`, in order. -/
structure Found (pat txt : List α) (res : List Nat) (i : Nat) : Prop where
  increasing : res.Pairwise (· < ·)
  exactly : ∀ k, k ∈ res ↔ k + pat.length ≤ i ∧ pat <+: txt.drop k

/-- The loop of `search_for_pat`. -/
structure Searching (pat txt : List α) (res : List Nat) (i j : Nat) : Prop where
  upper : i ≤ txt.length
  short : j < pat.length
  candidate : Candidate pat txt pat.length i j
  found : Found pat txt res i

theorem Found.skip (h : Found pat txt res i) (hi : i < txt.length)
    (hpat : ¬ pat <:+ txt.take (i + 1)) : Found pat txt res (i + 1) where
  increasing := h.increasing
  exactly k := by
    rw [h.exactly]
    constructor
    · rintro ⟨hk, hoccurs⟩
      exact ⟨by omega, hoccurs⟩
    · rintro ⟨hk, hoccurs⟩
      refine ⟨?_, hoccurs⟩
      by_contra hlast
      have hend : k + pat.length = i + 1 := by omega
      apply hpat
      rw [← hend]
      exact (prefix_drop_iff (by omega)).mp hoccurs

theorem Found.push (h : Found pat txt res i) (hi : i < txt.length)
    (hpat : pat <:+ txt.take (i + 1)) :
    Found pat txt (res ++ [i + 1 - pat.length]) (i + 1) := by
  have hlength : pat.length ≤ i + 1 := by
    have hle := hpat.length_le
    rw [List.length_take] at hle
    omega
  obtain ⟨k₀, hk₀⟩ := Nat.exists_eq_add_of_le' hlength
  have hlast : i + 1 - pat.length = k₀ := by omega
  rw [hlast]
  constructor
  · apply List.pairwise_append.mpr
    refine ⟨h.increasing, List.pairwise_singleton _ _, fun k hk k' hk' => ?_⟩
    obtain ⟨hbefore, -⟩ := (h.exactly k).mp hk
    obtain rfl := List.mem_singleton.mp hk'
    omega
  · intro k
    rw [List.mem_append, List.mem_singleton, h.exactly]
    constructor
    · rintro (⟨hk, hoccurs⟩ | rfl)
      · exact ⟨by omega, hoccurs⟩
      · refine ⟨by omega, (prefix_drop_iff (by omega)).mpr ?_⟩
        rw [← hk₀]
        exact hpat
    · rintro ⟨hk, hoccurs⟩
      rcases Nat.lt_or_ge i (k + pat.length) with hlt | hge
      · right
        omega
      · exact .inl ⟨hge, hoccurs⟩

theorem Searching.matched (h : Searching pat txt res i j) (hi : i < txt.length)
    (heq : pat[j]? = txt[i]?) : pat.take (j + 1) <:+ txt.take (i + 1) :=
  (take_succ_suffix_iff h.short hi).mpr ⟨h.candidate.matched, heq⟩

/-- The whole pattern has matched. -/
theorem Searching.full {b : Nat} (h : Searching pat txt res i j) (hi : i < txt.length)
    (heq : pat[j]? = txt[i]?) (hfull : j + 1 = pat.length)
    (hb : LongestBorder pat pat.length b) :
    Searching pat txt (res ++ [i + 1 - pat.length]) (i + 1) b := by
  have hpat := h.matched hi heq
  rw [hfull, List.take_length] at hpat
  refine ⟨hi, hb.proper, ?_, h.found.push hi hpat⟩
  constructor
  · apply hb.border.trans
    rwa [List.take_length]
  · intro k hk hmatch _
    apply hb.longest k hk
    apply take_suffix_take (Nat.le_of_lt hk) hmatch
    rwa [List.take_length]

/-- One more character has matched. -/
theorem Searching.further (h : Searching pat txt res i j) (hi : i < txt.length)
    (heq : pat[j]? = txt[i]?) (hmore : j + 1 < pat.length) :
    Searching pat txt res (i + 1) (j + 1) := by
  refine ⟨hi, hmore, ⟨h.matched hi heq, ?_⟩, h.found.skip hi ?_⟩
  · intro k hk hmatch _
    exact h.candidate.le_succ hi (Nat.le_refl _) (Nat.le_of_lt hk) hmatch
  · intro hpat
    rw [← List.take_length (l := pat)] at hpat
    have hle := h.candidate.le_succ hi (Nat.le_refl _) (Nat.le_refl _) hpat
    omega

/-- No prefix ends the text with the character at `i`. -/
theorem Searching.restart (h : Searching pat txt res i 0) (hi : i < txt.length)
    (hne : pat[0]? ≠ txt[i]?) : Searching pat txt res (i + 1) 0 := by
  have hshort := h.short
  refine ⟨hi, hshort, ⟨List.nil_suffix, ?_⟩, h.found.skip hi ?_⟩
  · intro k hk hmatch _
    exact Nat.le_of_eq (h.candidate.eq_zero hne hi (Nat.le_refl _) (Nat.le_of_lt hk) hmatch)
  · intro hpat
    rw [← List.take_length (l := pat)] at hpat
    have hzero := h.candidate.eq_zero hne hi (Nat.le_refl _) (Nat.le_refl _) hpat
    omega

theorem searching_start (hpat : pat ≠ []) : Searching pat txt [] 0 0 := by
  have hpos := List.length_pos_of_ne_nil hpat
  refine ⟨Nat.zero_le _, hpos, Candidate.start txt (Nat.le_refl _), List.Pairwise.nil, ?_⟩
  intro k
  constructor
  · intro hk
    cases hk
  · rintro ⟨hk, -⟩
    omega

end Search

/-! ## The loops -/

section Loops

variable [DecidableEq α] {s pat txt : List α} {lps res : List Nat} {len i j fuel : Nat}

theorem Filling.round (h : Filling s lps len i) (hi : i < s.length) :
    ∃ lps' len' i', lpsRound s (lps, len, i) = some (.inl (lps', len', i')) ∧
      Filling s lps' len' i' ∧ 2 * (s.length - i') + len' < 2 * (s.length - i) + len := by
  have hshort := h.short
  have hread : s[i]? = some s[i] := List.getElem?_eq_getElem hi
  have hlen : len < s.length := by omega
  have hread' : s[len]? = some s[len] := List.getElem?_eq_getElem hlen
  simp only [lpsRound, if_pos hi, hread, hread', Option.bind_eq_bind, Option.bind_some]
  by_cases heq : s[i] = s[len]
  · obtain ⟨lps', hstore, hnext⟩ :=
      h.next hi (h.longest_succ hi (by rw [hread, hread', heq]))
    refine ⟨lps', len + 1, i + 1, ?_, hnext, by omega⟩
    simp [heq, hstore]
  · have hne : s[len]? ≠ s[i]? := by
      rw [hread, hread']
      exact fun h => heq (Option.some.inj h).symm
    by_cases hzero : len = 0
    · subst hzero
      obtain ⟨lps', hstore, hnext⟩ := h.next hi (h.longest_zero hi hne)
      refine ⟨lps', 0, i + 1, ?_, hnext, by omega⟩
      simp [heq, hstore]
    · obtain ⟨b, hb, hlongest⟩ := h.borders (len - 1) (by omega)
      rw [Nat.sub_add_cancel (Nat.pos_of_ne_zero hzero)] at hlongest
      have hless := hlongest.proper
      refine ⟨lps, b, i, ?_, ?_, by omega⟩
      · simp [heq, hzero, hb]
      · exact ⟨h.size, h.start, h.upper, by omega, h.candidate.fallback hlongest hne, h.borders⟩

theorem LPS_spec (hs : s ≠ []) (hfuel : 2 * s.length < fuel) :
    ∃ lps, LPS fuel s = some lps ∧ Borders s lps s.length := by
  apply loop_total (fun (lps, len, i) => Filling s lps len i)
    fun (_, len, i) => 2 * (s.length - i) + len
  · rintro ⟨lps, len, i⟩ hfill
    by_cases hi : i < s.length
    · obtain ⟨lps', len', i', hround, hnext, hless⟩ := hfill.round hi
      exact .inr ⟨(lps', len', i'), hround, hnext, hless⟩
    · have hupper := hfill.upper
      obtain rfl : i = s.length := Nat.le_antisymm hupper (Nat.le_of_not_lt hi)
      exact .inl ⟨lps, by rw [lpsRound, if_neg hi], hfill.borders⟩
  · exact filling_start hs
  · dsimp only
    omega

theorem Searching.round (h : Searching pat txt res i j) (hlps : Borders pat lps pat.length)
    (hi : i < txt.length) :
    ∃ res' i' j', searchRound pat txt lps (res, i, j) = some (.inl (res', i', j')) ∧
      Searching pat txt res' i' j' ∧
      2 * (txt.length - i') + j' < 2 * (txt.length - i) + j := by
  have hshort := h.short
  have hread : txt[i]? = some txt[i] := List.getElem?_eq_getElem hi
  have hread' : pat[j]? = some pat[j] := List.getElem?_eq_getElem hshort
  simp only [searchRound, if_pos hi, hread, hread', Option.bind_eq_bind, Option.bind_some]
  by_cases heq : txt[i] = pat[j]
  · have hnext : pat[j]? = txt[i]? := by rw [hread, hread', heq]
    by_cases hfull : j + 1 = pat.length
    · obtain ⟨b, hb, hlongest⟩ := hlps j hshort
      rw [hfull] at hlongest
      have hless := hlongest.proper
      have hlast : pat.length - 1 = j := by omega
      refine ⟨_, i + 1, b, ?_, h.full hi hnext hfull hlongest, by omega⟩
      simp [heq, hfull, hlast, hb]
    · refine ⟨res, i + 1, j + 1, ?_, h.further hi hnext (by omega), by omega⟩
      simp [heq, hfull]
  · have hne : pat[j]? ≠ txt[i]? := by
      rw [hread, hread']
      exact fun h => heq (Option.some.inj h).symm
    by_cases hzero : j = 0
    · subst hzero
      refine ⟨res, i + 1, 0, ?_, h.restart hi hne, by omega⟩
      simp [heq]
    · obtain ⟨b, hb, hlongest⟩ := hlps (j - 1) (by omega)
      rw [Nat.sub_add_cancel (Nat.pos_of_ne_zero hzero)] at hlongest
      have hless := hlongest.proper
      refine ⟨res, i, b, ?_, ?_, by omega⟩
      · simp [heq, hzero, hb]
      · exact ⟨h.upper, by omega, h.candidate.fallback hlongest hne, h.found⟩

end Loops

example : searchForPat 11 ['a', 'a'] ['a', 'a', 'a'] = some [0, 1] := by decide

end SearchForPat

end MoreCpp
