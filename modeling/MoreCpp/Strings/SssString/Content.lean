import MoreCpp.Strings.SssString.Refinement

/-!
What becomes of the characters. A copy to a new array ends at the first `'\0'`, while
storing a character in place and copying `ch` do not.
-/

namespace MoreCpp.SssString

open Library

namespace Value

variable {v : Value} {c : UInt8}

theorem append_stored : (v.append c).cells[v.size]? = some (some c) := by
  have hroom := v.size_lt_grown
  exact pushed_getElem?_self (by omega)

/-- The characters are kept unless they are copied and some come after a `'\0'`. -/
theorem append_same_iff : (∀ i < v.size, (v.append c).cells[i]? = v.cells[i]?) ↔
    ¬ (v.cells.length = v.size + 1 ∧ WrittenAfter 0 v.cells v.size) := by
  by_cases hfull : v.cells.length = v.size + 1
  · obtain ⟨chars, hchars, hle⟩ := v.terminated
    have hcopied := strcpyNew_same_iff (n := v.size + v.size + 2) hchars hle v.size_lt (by omega)
    rw [append_cells_of_full hfull, and_iff_right hfull, ← hcopied]
    apply forall₂_congr
    intro i hi
    rw [pushed_getElem?_of_lt hi]
  · refine iff_of_true (fun i hi => ?_) fun h => hfull h.1
    rw [append_cells_of_room hfull, pushed_getElem?_of_lt hi]

theorem copy_same_iff : (∀ i < v.size, v.copy.cells[i]? = v.cells[i]?) ↔
    ¬ (shortMax < v.size ∧ WrittenAfter 0 v.cells v.size) := by
  have hcells : v.copy.cells = v.copied := rfl
  rw [hcells, copied]
  split
  · rename_i hsmall
    exact iff_of_true (fun _ _ => rfl) fun h => absurd h.1 (Nat.not_lt.mpr hsmall)
  · rename_i hlarge
    obtain ⟨chars, hchars, hle⟩ := v.terminated
    rw [and_iff_right (Nat.lt_of_not_le hlarge)]
    exact strcpyNew_same_iff hchars hle v.size_lt (Nat.lt_succ_self _)

end Value

/-- The size is one more, the characters are what they were, and `c` is the last. -/
def Appends (m m' : Memory) (s : Nat) (c : UInt8) : Prop :=
  ∃ x x', m.strings s = some x ∧ m'.strings s = some x' ∧ x'.sz = x.sz + 1 ∧
    (∀ i : Nat, i < x.sz → m'.char s i = m.char s i) ∧ m'.char s x.sz.toNat = some (some c)

/-- `self` has got the size and the characters of `s`. -/
def Copies (m m' : Memory) (self s : Nat) : Prop :=
  ∃ x x', m.strings s = some x ∧ m'.strings self = some x' ∧ x'.sz = x.sz ∧
    ∀ i : Nat, i < x.sz → m'.char self i = m.char s i

/-- Appending to the string needs a new array. -/
def Object.Reallocates (x : Object) : Prop :=
  x.sz = shortMax ∨ shortMax < x.sz ∧ x.union = .space 0

/-- A character that was written comes after a `'\0'`, both below the size. -/
def Memory.WrittenAfterNul (m : Memory) (s : Nat) : Prop :=
  ∃ x, m.strings s = some x ∧ ∃ i j : Nat, ∃ a, i < j ∧ j < x.sz ∧
    m.char s i = some (some 0) ∧ m.char s j = some (some a)

section Content

variable {E : Setting} {m m' : Memory} {values values' : Values} {s t : Nat} {x : Object}
  {v w : Value} {c : UInt8}

theorem Represents.writtenAfterNul_iff (h : Represents m values) (hs : m.strings s = some x)
    (hv : values s = some v) : m.WrittenAfterNul s ↔ WrittenAfter 0 v.cells v.size := by
  obtain ⟨x', hs', hsz, hchar⟩ := h.object hv
  obtain rfl := Option.some.inj (hs.symm.trans hs')
  simp only [Memory.WrittenAfterNul, WrittenAfter, hs, hchar, Option.some.injEq,
    exists_eq_left', hsz, Int.ofNat_lt]

theorem Represents.reallocates_iff (h : Represents m values) (hs : m.strings s = some x)
    (hv : values s = some v) : x.Reallocates ↔ v.cells.length = v.size + 1 := by
  rw [Object.Reallocates]
  rcases Nat.lt_or_ge shortMax v.size with hlarge | hsmall
  · obtain ⟨b, space, hobject, -, hspace⟩ := h.large hv hlarge
    obtain rfl := Option.some.inj (hs.symm.trans hobject)
    simp only [Union.space.injEq]
    omega
  · obtain ⟨hobject, hlength⟩ := h.small hv hsmall
    obtain rfl := Option.some.inj (hs.symm.trans hobject)
    simp only [reduceCtorEq, and_false, or_false]
    omega

theorem Represents.appends_iff (h : Represents m values) (hs : m.strings s = some x)
    (hv : values s = some v) (h' : Represents m' values') (hv' : values' s = some (v.append c)) :
    Appends m m' s c ↔ ¬ (x.Reallocates ∧ m.WrittenAfterNul s) := by
  rw [h.reallocates_iff hs hv, h.writtenAfterNul_iff hs hv, ← Value.append_same_iff (c := c)]
  obtain ⟨_, hs₁, hsz, hchar⟩ := h.object hv
  obtain ⟨x', hs', hsz', hchar'⟩ := h'.object hv'
  obtain rfl := Option.some.inj (hs.symm.trans hs₁)
  have hsize : (v.append c).size = v.size + 1 := rfl
  constructor
  · rintro ⟨_, _, hs₁, hs₂, -, hsame, -⟩ i hi
    obtain rfl := Option.some.inj (hs.symm.trans hs₁)
    rw [← hchar', ← hchar]
    exact hsame i (by omega)
  · intro hsame
    refine ⟨x, x', hs, hs', by omega, fun i hi => ?_, ?_⟩
    · rw [hchar', hchar]
      exact hsame i (by omega)
    · rw [hsz, Int.toNat_natCast, hchar']
      exact Value.append_stored

theorem Represents.copies_iff (h : Represents m values) (hs : m.strings s = some x)
    (hv : values s = some v) (h' : Represents m' values') (hv' : values' t = some v.copy) :
    Copies m m' t s ↔ ¬ (shortMax < x.sz ∧ m.WrittenAfterNul s) := by
  obtain ⟨_, hs₁, hsz, hchar⟩ := h.object hv
  obtain ⟨x', hs', hsz', hchar'⟩ := h'.object hv'
  obtain rfl := Option.some.inj (hs.symm.trans hs₁)
  rw [hsz, Int.ofNat_lt, h.writtenAfterNul_iff hs hv, ← Value.copy_same_iff]
  constructor
  · rintro ⟨_, _, hs₁, hs₂, -, hsame⟩ i hi
    obtain rfl := Option.some.inj (hs.symm.trans hs₁)
    rw [← hchar', ← hchar]
    exact hsame i (by omega)
  · intro hsame
    refine ⟨x, x', hs, hs', hsz'.trans hsz.symm, fun i hi => ?_⟩
    rw [hchar', hchar]
    exact hsame i (by omega)

end Content

end MoreCpp.SssString
