import Mathlib.Data.List.Basic

/-!
Prefixes of a pattern that end a prefix of a text, and the borders of the pattern, which
are those where the text is the pattern itself.
-/

namespace MoreCpp.Library

variable {α : Type*} {pat txt : List α} {bound i j k b : Nat}

theorem take_succ_suffix_iff (hk : k < pat.length) (hi : i < txt.length) :
    pat.take (k + 1) <:+ txt.take (i + 1) ↔
      pat.take k <:+ txt.take i ∧ pat[k]? = txt[i]? := by
  rw [List.take_succ_eq_append_getElem hk, List.take_succ_eq_append_getElem hi,
    List.getElem?_eq_getElem hk, List.getElem?_eq_getElem hi]
  constructor
  · rintro ⟨t, ht⟩
    rw [← List.append_assoc] at ht
    obtain ⟨hrest, hlast⟩ := List.append_inj' ht rfl
    exact ⟨⟨t, hrest⟩, congrArg some (List.singleton_inj.mp hlast)⟩
  · rintro ⟨⟨t, ht⟩, hlast⟩
    rw [Option.some.inj hlast, ← ht]
    exact ⟨t, by rw [List.append_assoc]⟩

/-- Of two prefixes that end the same text the shorter ends the longer. -/
theorem take_suffix_take (hkj : k ≤ j) (hk : pat.take k <:+ txt.take i)
    (hj : pat.take j <:+ txt.take i) : pat.take k <:+ pat.take j := by
  apply List.suffix_of_suffix_length_le hk hj
  rw [List.length_take, List.length_take]
  omega

/-- The longest proper prefix of the first `n` characters that is also their end has
length `b`. -/
structure LongestBorder (pat : List α) (n b : Nat) : Prop where
  proper : b < n
  border : pat.take b <:+ pat.take n
  longest : ∀ k < n, pat.take k <:+ pat.take n → k ≤ b

theorem LongestBorder.one (pat : List α) : LongestBorder pat 1 0 where
  proper := Nat.one_pos
  border := List.nil_suffix
  longest k hk _ := by omega

/-- A prefix that ends the text before `i`. None of the first `bound` ones is longer and
goes on with the character at `i`. -/
structure Candidate (pat txt : List α) (bound i j : Nat) : Prop where
  matched : pat.take j <:+ txt.take i
  longest : ∀ k < bound, pat.take k <:+ txt.take i → pat[k]? = txt[i]? → k ≤ j

namespace Candidate

theorem start (txt : List α) (hbound : bound ≤ pat.length) : Candidate pat txt bound 0 0 where
  matched := List.nil_suffix
  longest k hk hmatch _ := by
    have hlength := hmatch.length_le
    rw [List.length_take, List.length_take] at hlength
    omega

/-- Where the next character differs, the next candidate is the longest border. -/
theorem fallback (h : Candidate pat txt bound i j) (hb : LongestBorder pat j b)
    (hne : pat[j]? ≠ txt[i]?) : Candidate pat txt bound i b where
  matched := hb.border.trans h.matched
  longest k hk hmatch hnext := by
    have hle := h.longest k hk hmatch hnext
    have hkj : k ≠ j := by
      intro heq
      subst heq
      exact hne hnext
    exact hb.longest k (by omega) (take_suffix_take hle hmatch h.matched)

theorem le_succ (h : Candidate pat txt bound i j) (hi : i < txt.length)
    (hbound : bound ≤ pat.length) (hk : k ≤ bound) (hmatch : pat.take k <:+ txt.take (i + 1)) :
    k ≤ j + 1 := by
  cases k with
  | zero => exact Nat.zero_le _
  | succ k =>
      obtain ⟨hbefore, hnext⟩ := (take_succ_suffix_iff (by omega) hi).mp hmatch
      exact Nat.succ_le_succ (h.longest k hk hbefore hnext)

theorem eq_zero (h : Candidate pat txt bound i 0) (hne : pat[0]? ≠ txt[i]?)
    (hi : i < txt.length) (hbound : bound ≤ pat.length) (hk : k ≤ bound)
    (hmatch : pat.take k <:+ txt.take (i + 1)) : k = 0 := by
  cases k with
  | zero => rfl
  | succ k =>
      obtain ⟨hbefore, hnext⟩ := (take_succ_suffix_iff (by omega) hi).mp hmatch
      have hle := h.longest k hk hbefore hnext
      obtain rfl : k = 0 := by omega
      exact absurd hnext hne

end Candidate

theorem add_length_le (hpat : pat ≠ []) (h : pat <+: txt.drop k) :
    k + pat.length ≤ txt.length := by
  have hlength := h.length_le
  rw [List.length_drop] at hlength
  have hpos := List.length_pos_of_ne_nil hpat
  omega

/-- An occurrence at `k` ends the text up to where it ends. -/
theorem prefix_drop_iff (hk : k + pat.length ≤ txt.length) :
    pat <+: txt.drop k ↔ pat <:+ txt.take (k + pat.length) := by
  rw [List.take_add]
  constructor
  · intro h
    rw [← List.prefix_iff_eq_take.mp h]
    exact List.suffix_append _ _
  · rintro ⟨t, ht⟩
    have hlength : pat.length = ((txt.drop k).take pat.length).length := by
      rw [List.length_take, List.length_drop]
      omega
    obtain ⟨-, hpat⟩ := List.append_inj' ht hlength
    rw [hpat]
    exact List.take_prefix _ _

end MoreCpp.Library
