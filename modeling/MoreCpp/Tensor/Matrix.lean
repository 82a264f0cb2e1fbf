import MoreCpp.Library.Loop
import MoreCpp.Library.Matrices
import Mathlib.Algebra.BigOperators.Intervals
import Mathlib.Algebra.Ring.Int.Defs

/-!
`Matrix` of `tensor/matrix.hpp` with its products, for elements of any ring. A subscript
that is out of bounds and an assertion that fails give `none`. The constructor of a
`Matrix_slice` from extents, which the source leaves out, is a parameter.
-/

namespace MoreCpp

open Finset Library

namespace MatrixImpl

variable {T : Type}

/-- `Matrix_slice` of a matrix, whose `start` is 0: valid subscripts are of different
elements, and these are all there. -/
structure MatrixSlice where
  size : Nat
  extents : List Nat
  strides : List Nat
  offset_lt : ∀ dims, InBounds extents dims → offset strides dims < size
  offset_injective : ∀ dims dims', InBounds extents dims → InBounds extents dims' →
    offset strides dims = offset strides dims' → dims = dims'

/-- A `Matrix_slice` that keeps rows together. -/
def rowMajor (extents : List Nat) : MatrixSlice where
  size := extents.prod
  extents := extents
  strides := rowMajorStrides extents
  offset_lt _ := offset_lt
  offset_injective _ _ := offset_injective

structure Matrix (T : Type) where
  desc : MatrixSlice
  elems : List T
  length_elems : elems.length = desc.size

namespace Matrix

def extent (m : Matrix T) (n : Nat) : Option Nat := m.desc.extents[n]?

/-- `m(dims...)`, read. -/
def read (m : Matrix T) (dims : List Nat) : Option T :=
  if InBounds m.desc.extents dims then m.elems[offset m.desc.strides dims]? else none

/-- `m(dims...) = x`. -/
def write (m : Matrix T) (dims : List Nat) (x : T) : Option (Matrix T) :=
  if InBounds m.desc.extents dims then
    some { m with
      elems := m.elems.set (offset m.desc.strides dims) x
      length_elems := by rw [List.length_set, m.length_elems] }
  else none

/-- `Matrix(exts...)`. -/
def ofExtents [Zero T] (slice : List Nat → MatrixSlice) (exts : List Nat) : Matrix T where
  desc := slice exts
  elems := List.replicate (slice exts).size 0
  length_elems := List.length_replicate

variable {m : Matrix T} {dims : List Nat}

theorem read_isSome (h : InBounds m.desc.extents dims) : ∃ x, m.read dims = some x := by
  have hlt : offset m.desc.strides dims < m.elems.length := by
    rw [m.length_elems]
    exact m.desc.offset_lt dims h
  exact ⟨m.elems[offset m.desc.strides dims], by rw [read, if_pos h, List.getElem?_eq_getElem hlt]⟩

theorem read_eq_none (h : ¬ InBounds m.desc.extents dims) : m.read dims = none := if_neg h

/-- Only one element has changed, and it has now this value. -/
structure Changed (m m' : Matrix T) (dims : List Nat) (x : T) : Prop where
  desc : m'.desc = m.desc
  read : m'.read dims = some x
  rest : ∀ dims', dims' ≠ dims → m'.read dims' = m.read dims'

namespace Changed

variable {m' m'' : Matrix T} {x y : T}

theorem refl (h : m.read dims = some x) : Changed m m dims x := ⟨rfl, h, fun _ _ => rfl⟩

theorem trans (h : Changed m m' dims x) (h' : Changed m' m'' dims y) : Changed m m'' dims y where
  desc := h'.desc.trans h.desc
  read := h'.read
  rest dims' hne := (h'.rest dims' hne).trans (h.rest dims' hne)

theorem extents {exts : List Nat} (h : Changed m m' dims x) (hm : m.desc.extents = exts) :
    m'.desc.extents = exts := by rw [h.desc, hm]

end Changed

theorem write_spec (h : InBounds m.desc.extents dims) (x : T) :
    ∃ m', m.write dims x = some m' ∧ Changed m m' dims x := by
  have hlt : offset m.desc.strides dims < m.elems.length := by
    rw [m.length_elems]
    exact m.desc.offset_lt dims h
  refine ⟨_, if_pos h, rfl, ?_, fun dims' hne => ?_⟩
  · rw [read, if_pos h, List.getElem?_set_self hlt]
  · unfold read
    dsimp only
    split
    case isTrue h' =>
      rw [List.getElem?_set_ne]
      exact fun heq => hne (m.desc.offset_injective dims dims' h h' heq).symm
    case isFalse => rfl

theorem read_ofExtents [Zero T] {slice : List Nat → MatrixSlice} {exts : List Nat}
    (h : InBounds (slice exts).extents dims) :
    (ofExtents slice exts : Matrix T).read dims = some 0 := by
  refine (if_pos h).trans ?_
  rw [ofExtents, List.getElem?_replicate, if_pos ((slice exts).offset_lt dims h)]

/-- The matrix with these elements. -/
def tabulate [Zero T] (desc : MatrixSlice) (f : List Nat → T) : Matrix T where
  desc := desc
  elems := (List.range desc.size).map fun k =>
    ((subscripts desc.extents).find? fun dims => offset desc.strides dims = k).elim 0 f
  length_elems := by rw [List.length_map, List.length_range]

theorem read_tabulate [Zero T] {desc : MatrixSlice} {f : List Nat → T}
    (h : InBounds desc.extents dims) : (tabulate desc f).read dims = some (f dims) := by
  have hfind : ((subscripts desc.extents).find? fun dims' =>
      offset desc.strides dims' = offset desc.strides dims) = some dims := by
    cases hfound : (subscripts desc.extents).find? fun dims' =>
        offset desc.strides dims' = offset desc.strides dims with
    | none =>
        have hnone := List.find?_eq_none.mp hfound dims (mem_subscripts.mpr h)
        simp at hnone
    | some dims' =>
        have hsame := List.find?_some hfound
        have hmem := mem_subscripts.mp (List.mem_of_find?_eq_some hfound)
        rw [desc.offset_injective dims' dims hmem h (by simpa using hsame)]
  refine (if_pos h).trans ?_
  rw [tabulate, List.getElem?_map, List.getElem?_range (desc.offset_lt dims h), Option.map_some,
    hfind]
  rfl

/-- The element with these subscripts, where there is one. -/
def entry [Zero T] (m : Matrix T) (dims : List Nat) : T := (m.read dims).getD 0

theorem read_eq [Zero T] (h : InBounds m.desc.extents dims) :
    m.read dims = some (m.entry dims) := by
  obtain ⟨x, hx⟩ := read_isSome h
  rw [entry, hx, Option.getD_some]

end Matrix

theorem inBounds_one {exts : List Nat} {n i : Nat} (h : exts = [n]) :
    InBounds exts [i] ↔ i < n := by simp [h, InBounds]

theorem inBounds_two {exts : List Nat} {n m i j : Nat} (h : exts = [n, m]) :
    InBounds exts [i, j] ↔ i < n ∧ j < m := by simp [h, InBounds]

/-! ## The products -/

section Products

variable [Ring T] (slice : List Nat → MatrixSlice)

/-- A turn of the inner loop of `m * v`. -/
def addProduct (m v : Matrix T) (i j : Nat) (res : Matrix T) : Option (Matrix T) := do
  let r ← res.read [i]
  let x ← m.read [i, j]
  let y ← v.read [j]
  res.write [i] (r + x * y)

/-- `m * v`, where `slice` is the `Matrix_slice` of some extents. -/
def mulVector (m v : Matrix T) : Option (Matrix T) := do
  let cols ← m.extent 1
  let size ← v.extent 0
  if cols = size then
    let n ← m.extent 0
    forRange 0 n (fun i => forRange 0 n (addProduct m v i)) (Matrix.ofExtents slice [n])
  else none

/-- A turn of the inner loop of `m1 * m2`. -/
def setProduct (m1 m2 : Matrix T) (i j k : Nat) (res : Matrix T) : Option (Matrix T) := do
  let x ← m1.read [i, k]
  let y ← m2.read [k, j]
  res.write [i, j] (x * y)

/-- `m1 * m2`. -/
def mulMatrix (m1 m2 : Matrix T) : Option (Matrix T) := do
  let n ← m1.extent 0
  let m ← m1.extent 1
  let rows ← m2.extent 0
  if m = rows then
    let p ← m2.extent 1
    forRange 0 n (fun i => forRange 0 m fun j => forRange 0 p (setProduct m1 m2 i j))
      (Matrix.ofExtents slice [n, p])
  else none

end Products

section Vector

variable [Ring T] {slice : List Nat → MatrixSlice} {m v res : Matrix T} {n cols i : Nat}

theorem mulVector_eq (hm : m.desc.extents = [n, cols]) (hv : v.desc.extents = [cols]) :
    mulVector slice m v = forRange 0 n (fun i => forRange 0 n (addProduct m v i))
      (Matrix.ofExtents slice [n]) := by
  simp only [mulVector, Matrix.extent, hm, hv, List.getElem?_cons_zero, List.getElem?_cons_succ,
    Option.bind_eq_bind, Option.bind_some, if_true]

theorem row_spec (hm : m.desc.extents = [n, cols]) (hv : v.desc.extents = [cols])
    (hle : n ≤ cols) (hi : i < n) (hres : res.desc.extents = [n]) {x : T}
    (hx : res.read [i] = some x) :
    ∃ res', forRange 0 n (addProduct m v i) res = some res' ∧
      res.Changed res' [i] (x + ∑ j ∈ range n, m.entry [i, j] * v.entry [j]) := by
  have hrun := @forRange_rule _ (addProduct m v i) (fun j res' => res.Changed res' [i]
    (x + ∑ j' ∈ range j, m.entry [i, j'] * v.entry [j'])) 0 n res (.refl (by simpa using hx)) ?_
  · rwa [Nat.zero_max] at hrun
  · intro j res' _ hj hchanged
    have hjc : j < cols := by omega
    have hin := (inBounds_one (hchanged.extents hres)).mpr hi
    obtain ⟨res'', hwrite, hwritten⟩ := Matrix.write_spec hin
      (x + ∑ j' ∈ range j, m.entry [i, j'] * v.entry [j'] + m.entry [i, j] * v.entry [j])
    refine ⟨res'', ?_, ?_⟩
    · rw [addProduct, hchanged.read, Matrix.read_eq ((inBounds_two hm).mpr ⟨hi, hjc⟩),
        Matrix.read_eq ((inBounds_one hv).mpr hjc)]
      exact hwrite
    · rw [sum_range_succ, ← add_assoc]
      exact hchanged.trans hwritten

theorem mulVector_spec (hslice : ∀ exts, (slice exts).extents = exts)
    (hm : m.desc.extents = [n, cols]) (hv : v.desc.extents = [cols]) (hle : n ≤ cols) :
    ∃ res, mulVector slice m v = some res ∧ res.desc.extents = [n] ∧
      ∀ i < n, res.read [i] = some (∑ j ∈ range n, m.entry [i, j] * v.entry [j]) := by
  have hrun := @forRange_rule _ (fun i => forRange 0 n (addProduct m v i))
    (fun i res => res.desc.extents = [n] ∧
      (∀ r < i, res.read [r] = some (∑ j ∈ range n, m.entry [r, j] * v.entry [j])) ∧
      ∀ r, i ≤ r → r < n → res.read [r] = some 0) 0 n (Matrix.ofExtents slice [n]) ?_ ?_
  · obtain ⟨res, hrun, hdesc, hdone, -⟩ := hrun
    refine ⟨res, ?_, hdesc, fun i hi => hdone i (by omega)⟩
    rw [mulVector_eq hm hv]
    exact hrun
  · refine ⟨hslice [n], fun r hr => absurd hr (Nat.not_lt_zero r), fun r _ hr => ?_⟩
    exact Matrix.read_ofExtents ((inBounds_one (hslice [n])).mpr hr)
  · rintro i res - hi ⟨hdesc, hdone, hzero⟩
    obtain ⟨res', hrow, hchanged⟩ := row_spec hm hv hle hi hdesc (hzero i le_rfl hi)
    refine ⟨res', hrow, hchanged.extents hdesc, fun r hr => ?_, fun r hir hr => ?_⟩
    · obtain hlt | rfl := Nat.lt_succ_iff_lt_or_eq.mp hr
      · rw [hchanged.rest [r] (by simp; omega), hdone r hlt]
      · rw [hchanged.read, zero_add]
    · rw [hchanged.rest [r] (by simp; omega), hzero r (by omega) hr]

/-- The row is read up to the number of rows. -/
theorem mulVector_eq_none (hm : m.desc.extents = [n, cols]) (hv : v.desc.extents = [cols])
    (hlt : cols < n) : mulVector slice m v = none := by
  have hout : ¬ InBounds m.desc.extents [0, cols] := by
    rw [inBounds_two hm]
    omega
  have hturn : ∀ res, addProduct m v 0 cols res = none := by
    intro res
    rw [addProduct, Matrix.read_eq_none hout]
    cases res.read [0] <;> rfl
  rw [mulVector_eq hm hv]
  exact forRange_eq_none (Nat.zero_le 0) (by omega) fun res =>
    forRange_eq_none (Nat.zero_le cols) hlt hturn

end Vector

section Matrices

variable [Ring T] {slice : List Nat → MatrixSlice} {m1 m2 res : Matrix T} {n m p i j : Nat}

theorem mulMatrix_eq (h1 : m1.desc.extents = [n, m]) (h2 : m2.desc.extents = [m, p]) :
    mulMatrix slice m1 m2 =
      forRange 0 n (fun i => forRange 0 m fun j => forRange 0 p (setProduct m1 m2 i j))
        (Matrix.ofExtents slice [n, p]) := by
  simp only [mulMatrix, Matrix.extent, h1, h2, List.getElem?_cons_zero, List.getElem?_cons_succ,
    Option.bind_eq_bind, Option.bind_some, if_true]

/-- The product that stays of the sum at `i` and `j`. -/
def lastProduct (m1 m2 : Matrix T) (p i j : Nat) : T :=
  m1.entry [i, p - 1] * m2.entry [p - 1, j]

/-- Each product takes the place of the one before. -/
theorem element_spec (h1 : m1.desc.extents = [n, p]) (h2 : m2.desc.extents = [p, p])
    (hres : res.desc.extents = [n, p]) (hi : i < n) (hj : j < p) :
    ∃ res', forRange 0 p (setProduct m1 m2 i j) res = some res' ∧
      res.Changed res' [i, j] (lastProduct m1 m2 p i j) := by
  obtain ⟨x, hx⟩ := Matrix.read_isSome ((inBounds_two hres).mpr ⟨hi, hj⟩)
  have hrun := @forRange_rule _ (setProduct m1 m2 i j)
    (fun k res' => ∃ y, res.Changed res' [i, j] y ∧ (0 < k → y = lastProduct m1 m2 k i j)) 0 p res
    ⟨x, .refl hx, fun hk => absurd hk (Nat.lt_irrefl 0)⟩ ?_
  · obtain ⟨res', hrun, y, hchanged, hlast⟩ := hrun
    rw [Nat.zero_max] at hlast
    exact ⟨res', hrun, hlast (by omega) ▸ hchanged⟩
  · rintro k res' - hk ⟨y, hchanged, -⟩
    have hin := (inBounds_two (hchanged.extents hres)).mpr ⟨hi, hj⟩
    obtain ⟨res'', hwrite, hwritten⟩ :=
      Matrix.write_spec hin (m1.entry [i, k] * m2.entry [k, j])
    refine ⟨res'', ?_, _, hchanged.trans hwritten, fun _ => rfl⟩
    rw [setProduct, Matrix.read_eq ((inBounds_two h1).mpr ⟨hi, hk⟩),
      Matrix.read_eq ((inBounds_two h2).mpr ⟨hk, hj⟩)]
    exact hwrite

theorem products_row_spec (h1 : m1.desc.extents = [n, p]) (h2 : m2.desc.extents = [p, p])
    (hres : res.desc.extents = [n, p]) (hi : i < n) :
    ∃ res', forRange 0 p (fun j => forRange 0 p (setProduct m1 m2 i j)) res = some res' ∧
      res'.desc = res.desc ∧ (∀ j < p, res'.read [i, j] = some (lastProduct m1 m2 p i j)) ∧
      ∀ r c, r ≠ i → res'.read [r, c] = res.read [r, c] := by
  have hrun := @forRange_rule _ (fun j => forRange 0 p (setProduct m1 m2 i j))
    (fun j res' => res'.desc = res.desc ∧
      (∀ c < j, res'.read [i, c] = some (lastProduct m1 m2 p i c)) ∧
      ∀ r c, r ≠ i → res'.read [r, c] = res.read [r, c]) 0 p res
    ⟨rfl, fun c hc => absurd hc (Nat.not_lt_zero c), fun _ _ _ => rfl⟩ ?_
  · rwa [Nat.zero_max] at hrun
  · rintro j res' - hj ⟨hdesc, hdone, hrest⟩
    obtain ⟨res'', hrun, hchanged⟩ := element_spec h1 h2 (hdesc ▸ hres) hi hj
    refine ⟨res'', hrun, hchanged.desc.trans hdesc, fun c hc => ?_, fun r c hr => ?_⟩
    · obtain hlt | rfl := Nat.lt_succ_iff_lt_or_eq.mp hc
      · rw [hchanged.rest [i, c] (by simp; omega), hdone c hlt]
      · exact hchanged.read
    · rw [hchanged.rest [r, c] (by simp [hr]), hrest r c hr]

theorem mulMatrix_spec (hslice : ∀ exts, (slice exts).extents = exts)
    (h1 : m1.desc.extents = [n, p]) (h2 : m2.desc.extents = [p, p]) :
    ∃ res, mulMatrix slice m1 m2 = some res ∧ res.desc.extents = [n, p] ∧
      ∀ i < n, ∀ j < p, res.read [i, j] = some (lastProduct m1 m2 p i j) := by
  have hrun := @forRange_rule _
    (fun i => forRange 0 p fun j => forRange 0 p (setProduct m1 m2 i j))
    (fun i res => res.desc.extents = [n, p] ∧
      ∀ r < i, ∀ c < p, res.read [r, c] = some (lastProduct m1 m2 p r c))
    0 n (Matrix.ofExtents slice [n, p])
    ⟨hslice _, fun r hr => absurd hr (Nat.not_lt_zero r)⟩ ?_
  · obtain ⟨res, hrun, hdesc, hdone⟩ := hrun
    refine ⟨res, ?_, hdesc, fun i hi => hdone i (by omega)⟩
    rw [mulMatrix_eq h1 h2]
    exact hrun
  · rintro i res - hi ⟨hdesc, hdone⟩
    obtain ⟨res', hrow, hdesc', hread, hrest⟩ := products_row_spec h1 h2 hdesc hi
    refine ⟨res', hrow, hdesc' ▸ hdesc, fun r hr c hc => ?_⟩
    obtain hlt | rfl := Nat.lt_succ_iff_lt_or_eq.mp hr
    · rw [hrest r c (Nat.ne_of_lt hlt), hdone r hlt c hc]
    · exact hread c hc

/-- With no rows, no columns or no products there is nothing to do. -/
theorem mulMatrix_empty (h1 : m1.desc.extents = [n, m]) (h2 : m2.desc.extents = [m, p])
    (hempty : n = 0 ∨ m = 0 ∨ p = 0) :
    mulMatrix slice m1 m2 = some (Matrix.ofExtents slice [n, p]) := by
  have hidle : ∀ {lo hi : Nat} {body : Nat → Matrix T → Option (Matrix T)} (res : Matrix T),
      (∀ i res, body i res = some res) → forRange lo hi body res = some res := by
    intro lo hi body res hbody
    obtain ⟨res', hrun, rfl⟩ := @forRange_rule _ body (fun _ res' => res = res') lo hi res rfl
      fun i res' _ _ heq => ⟨res', hbody i res', heq⟩
    exact hrun
  rw [mulMatrix_eq h1 h2]
  obtain rfl | rfl | rfl := hempty
  · rfl
  · exact hidle _ fun i res => rfl
  · exact hidle _ fun i res => hidle _ fun j res => rfl

/-- The bounds of the two inner loops have changed places. -/
theorem mulMatrix_eq_none (h1 : m1.desc.extents = [n, m]) (h2 : m2.desc.extents = [m, p])
    (hn : 0 < n) (hm : 0 < m) (hp : 0 < p) (hne : m ≠ p) : mulMatrix slice m1 m2 = none := by
  rw [mulMatrix_eq h1 h2]
  apply forRange_eq_none (Nat.zero_le 0) hn
  intro res
  obtain hlt | hlt := Nat.lt_or_gt_of_ne hne
  · -- The row of `m1` is read at `m`.
    apply forRange_eq_none (Nat.zero_le 0) hm
    intro res
    apply forRange_eq_none (Nat.zero_le m) hlt
    intro res
    rw [setProduct, Matrix.read_eq_none (by rw [inBounds_two h1]; omega)]
    rfl
  · -- The row of `m2` is read at `p`.
    apply forRange_eq_none (Nat.zero_le p) hlt
    intro res
    apply forRange_eq_none (Nat.zero_le 0) hp
    intro res
    have hout : m2.read [0, p] = none :=
      Matrix.read_eq_none (by rw [inBounds_two h2]; omega)
    rw [setProduct, hout]
    cases m1.read [0, 0] <;> rfl

end Matrices

/-! ## What the products are -/

section Correct

variable [Ring T] {slice : List Nat → MatrixSlice} {m1 m2 v : Matrix T} {n m p : Nat}

structure IsMulMatrix (n m p : Nat) (m1 m2 res : Matrix T) : Prop where
  extents : res.desc.extents = [n, p]
  read : ∀ i < n, ∀ j < p,
    res.read [i, j] = some (∑ k ∈ range m, m1.entry [i, k] * m2.entry [k, j])

structure IsMulVector (n m : Nat) (m1 v res : Matrix T) : Prop where
  extents : res.desc.extents = [n]
  read : ∀ i < n, res.read [i] = some (∑ j ∈ range m, m1.entry [i, j] * v.entry [j])

theorem mulMatrix_iff (hslice : ∀ exts, (slice exts).extents = exts)
    (h1 : m1.desc.extents = [n, m]) (h2 : m2.desc.extents = [m, p]) :
    (∃ res, mulMatrix slice m1 m2 = some res ∧ IsMulMatrix n m p m1 m2 res) ↔
      n = 0 ∨ m = 0 ∨ p = 0 ∨ m = p ∧ ∀ i < n, ∀ j < p,
        ∑ k ∈ range (m - 1), m1.entry [i, k] * m2.entry [k, j] = 0 := by
  by_cases hempty : n = 0 ∨ m = 0 ∨ p = 0
  · refine iff_of_true ⟨_, mulMatrix_empty h1 h2 hempty, hslice _, fun i hi j hj => ?_⟩ ?_
    · obtain rfl : m = 0 := by omega
      rw [range_zero, sum_empty]
      exact Matrix.read_ofExtents ((inBounds_two (hslice [n, p])).mpr ⟨hi, hj⟩)
    · obtain hn | hm | hp := hempty
      · exact .inl hn
      · exact .inr (.inl hm)
      · exact .inr (.inr (.inl hp))
  · obtain ⟨hn, hm, hp⟩ : n ≠ 0 ∧ m ≠ 0 ∧ p ≠ 0 := by simpa only [not_or] using hempty
    rw [or_iff_right hn, or_iff_right hm, or_iff_right hp]
    by_cases heq : m = p
    · subst heq
      obtain ⟨res, hres, hextents, hread⟩ := mulMatrix_spec hslice h1 h2
      rw [and_iff_right rfl]
      have hsum : ∀ i j, ∑ k ∈ range m, m1.entry [i, k] * m2.entry [k, j] =
          ∑ k ∈ range (m - 1), m1.entry [i, k] * m2.entry [k, j] + lastProduct m1 m2 m i j := by
        intro i j
        obtain ⟨m, rfl⟩ := Nat.exists_eq_succ_of_ne_zero hm
        exact sum_range_succ _ m
      constructor
      · rintro ⟨res', hres', -, hread'⟩ i hi j hj
        rw [hres, Option.some_inj] at hres'
        have hboth := (hread i hi j hj).symm.trans (hres' ▸ hread' i hi j hj)
        rw [Option.some_inj, hsum] at hboth
        exact left_eq_add.mp (by rw [add_comm, ← hboth])
      · intro hzero
        refine ⟨res, hres, hextents, fun i hi j hj => ?_⟩
        rw [hread i hi j hj, hsum, hzero i hi j hj, zero_add]
    · refine iff_of_false ?_ fun h => heq h.1
      rintro ⟨res, hres, -⟩
      rw [mulMatrix_eq_none h1 h2 (by omega) (by omega) (by omega) heq] at hres
      cases hres

theorem mulVector_iff (hslice : ∀ exts, (slice exts).extents = exts)
    (h1 : m1.desc.extents = [n, m]) (hv : v.desc.extents = [m]) :
    (∃ res, mulVector slice m1 v = some res ∧ IsMulVector n m m1 v res) ↔
      n ≤ m ∧ ∀ i < n, ∑ j ∈ Ico n m, m1.entry [i, j] * v.entry [j] = 0 := by
  by_cases hle : n ≤ m
  · obtain ⟨res, hres, hextents, hread⟩ := mulVector_spec hslice h1 hv hle
    rw [and_iff_right hle]
    constructor
    · rintro ⟨res', hres', -, hread'⟩ i hi
      rw [hres, Option.some_inj] at hres'
      have hboth := (hread i hi).symm.trans (hres' ▸ hread' i hi)
      rw [Option.some_inj, ← sum_range_add_sum_Ico _ hle] at hboth
      exact left_eq_add.mp hboth
    · intro hzero
      refine ⟨res, hres, hextents, fun i hi => ?_⟩
      rw [hread i hi, ← sum_range_add_sum_Ico _ hle, hzero i hi, add_zero]
  · refine iff_of_false ?_ fun h => hle h.1
    rintro ⟨res, hres, -⟩
    rw [mulVector_eq_none h1 hv (by omega)] at hres
    cases hres

/-- The matrix product is right if and only if there is nothing to add up, or the inner
extents agree and the products but the last cancel. The vector product is right if and only
if there are no more rows than columns and the products of the further columns cancel. -/
theorem products_iff (hslice : ∀ exts, (slice exts).extents = exts)
    (h1 : m1.desc.extents = [n, m]) (h2 : m2.desc.extents = [m, p]) (hv : v.desc.extents = [m]) :
    ((∃ res, mulMatrix slice m1 m2 = some res ∧ IsMulMatrix n m p m1 m2 res) ↔
      n = 0 ∨ m = 0 ∨ p = 0 ∨ m = p ∧ ∀ i < n, ∀ j < p,
        ∑ k ∈ range (m - 1), m1.entry [i, k] * m2.entry [k, j] = 0) ∧
    ((∃ res, mulVector slice m1 v = some res ∧ IsMulVector n m m1 v res) ↔
      n ≤ m ∧ ∀ i < n, ∑ j ∈ Ico n m, m1.entry [i, j] * v.entry [j] = 0) :=
  ⟨mulMatrix_iff hslice h1 h2, mulVector_iff hslice h1 hv⟩

end Correct

/-- All elements are 1. -/
def ones (exts : List Nat) : Matrix Int where
  desc := rowMajor exts
  elems := List.replicate exts.prod 1
  length_elems := List.length_replicate

theorem products_iff_one :
    (∃ res, mulMatrix rowMajor (ones [1, 1]) (ones [1, 1]) = some res ∧
      IsMulMatrix 1 1 1 (ones [1, 1]) (ones [1, 1]) res) ∧
    ∃ res, mulVector rowMajor (ones [1, 1]) (ones [1]) = some res ∧
      IsMulVector 1 1 (ones [1, 1]) (ones [1]) res := by
  obtain ⟨hmatrix, hvector⟩ := @products_iff Int _ rowMajor (ones [1, 1]) (ones [1, 1])
    (ones [1]) 1 1 1 (fun _ => rfl) rfl rfl rfl
  exact ⟨hmatrix.mpr (by decide), hvector.mpr (by decide)⟩

/-- Products that are not added up, and subscripts out of bounds for shapes that are no squares. -/
theorem products_ones :
    (¬ ∃ res, mulMatrix rowMajor (ones [2, 2]) (ones [2, 2]) = some res ∧
      IsMulMatrix 2 2 2 (ones [2, 2]) (ones [2, 2]) res) ∧
    mulMatrix rowMajor (ones [1, 2]) (ones [2, 1]) = none ∧
    mulVector rowMajor (ones [2, 1]) (ones [1]) = none := by
  refine ⟨?_, mulMatrix_eq_none rfl rfl (by decide) (by decide) (by decide) (by decide),
    mulVector_eq_none rfl rfl (by decide)⟩
  rw [mulMatrix_iff (fun _ => rfl) rfl rfl]
  decide

end MatrixImpl

end MoreCpp
