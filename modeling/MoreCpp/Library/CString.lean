import MoreCpp.Library.BlockHeap
import Mathlib.Data.Int.Order.Basic
import Mathlib.Data.List.Lex
import Mathlib.Order.Lattice

/-!
Arrays of characters as the functions of C see them.
-/

namespace MoreCpp.Library

/-! ## Terminated strings

Strings that end with a terminator, in arrays with cells that were not written yet.
-/

section CString

variable {α : Type*} [DecidableEq α]

/-- The characters before the first terminator. There are none when an unwritten cell
or the end of the array comes first, which is undefined behaviour to read. -/
def cString (nul : α) : List (Option α) → Option (List α)
  | [] => none
  | none :: _ => none
  | some a :: rest => if a = nul then some [] else (cString nul rest).map (a :: ·)

/-- `strcpy`, which copies the terminator too and must have room for it. -/
def strcpy (nul : α) (dst src : List (Option α)) : Option (List (Option α)) := do
  let chars ← cString nul src
  if chars.length < dst.length then some (blit dst 0 (chars.map some ++ [some nul])) else none

section

variable {nul : α} {cells : List (Option α)} {chars : List α} {n i : Nat}

theorem cString_eq_some_iff : cString nul cells = some chars ↔
    nul ∉ chars ∧ ∃ rest, cells = chars.map some ++ some nul :: rest := by
  induction cells generalizing chars with
  | nil => simp [cString]
  | cons cell cells ih =>
      cases cell with
      | none => cases chars <;> simp [cString]
      | some b =>
          rw [cString]
          split
          · rename_i hb
            cases chars with
            | nil => simp [hb]
            | cons d chars =>
                have hne : nul ∉ d :: chars → b ≠ d := by
                  rintro hmem rfl
                  exact hmem (hb ▸ .head _)
                simp only [List.map_cons, List.cons_append, List.cons.injEq, Option.some.injEq]
                apply iff_of_false nofun
                rintro ⟨hmem, _, heq, -⟩
                exact hne hmem heq
          · rename_i hb
            cases chars with
            | nil => simp [hb]
            | cons d chars =>
                simp only [Option.map_eq_some_iff, List.cons.injEq, ih, List.mem_cons, not_or,
                  List.map_cons, List.cons_append, Option.some.injEq]
                constructor
                · rintro ⟨_, ⟨hmem, rest, hrest⟩, rfl, rfl⟩
                  exact ⟨⟨fun heq => hb heq.symm, hmem⟩, rest, rfl, hrest⟩
                · rintro ⟨⟨-, hmem⟩, rest, rfl, hrest⟩
                  exact ⟨chars, ⟨hmem, rest, hrest⟩, rfl, rfl⟩

theorem cString_terminator (h : cString nul cells = some chars) :
    cells[chars.length]? = some (some nul) := by
  obtain ⟨-, rest, rfl⟩ := cString_eq_some_iff.mp h
  simp

/-- The first terminator ends the string. -/
theorem cString_le_of_terminator (h : cString nul cells = some chars)
    (hi : cells[i]? = some (some nul)) : chars.length ≤ i := by
  obtain ⟨hmem, rest, rfl⟩ := cString_eq_some_iff.mp h
  by_contra hlt
  have hlt : i < chars.length := by omega
  rw [List.getElem?_append_left (by simpa using hlt), List.getElem?_map,
    List.getElem?_eq_getElem hlt] at hi
  have heq : chars[i] = nul := by simpa using hi
  exact hmem (heq ▸ List.getElem_mem hlt)

/-- What comes after the terminator does not matter. -/
theorem cString_set (h : cString nul cells = some chars) {cell : Option α}
    (hi : chars.length < i) : cString nul (cells.set i cell) = some chars := by
  obtain ⟨hmem, rest, rfl⟩ := cString_eq_some_iff.mp h
  refine cString_eq_some_iff.mpr ⟨hmem, rest.set (i - chars.length - 1) cell, ?_⟩
  obtain ⟨k, rfl⟩ := Nat.exists_eq_add_of_lt hi
  rw [List.set_append_right _ _ (by rw [List.length_map]; omega), List.length_map]
  have hindex : chars.length + k + 1 - chars.length = k + 1 := by omega
  rw [hindex, List.set_cons_succ]
  rfl

/-- A character is put in the place of the terminator, and another one after it. -/
theorem cString_push (h : cString nul cells = some chars) (a : α)
    (hroom : chars.length + 1 < cells.length) :
    cString nul ((cells.set chars.length (some a)).set (chars.length + 1) (some nul)) =
      some (if a = nul then chars else chars ++ [a]) := by
  obtain ⟨hmem, rest, rfl⟩ := cString_eq_some_iff.mp h
  cases rest with
  | nil => simp at hroom
  | cons cell rest =>
      have hcells : ((chars.map some ++ some nul :: cell :: rest).set chars.length (some a)).set
          (chars.length + 1) (some nul) = chars.map some ++ some a :: some nul :: rest := by
        rw [List.set_append_right _ _ (by simp), List.set_append_right _ _ (by simp)]
        simp
      rw [hcells]
      split
      · rename_i ha
        exact cString_eq_some_iff.mpr ⟨hmem, some nul :: rest, by rw [ha]⟩
      · rename_i ha
        refine cString_eq_some_iff.mpr ⟨?_, rest, by simp⟩
        rw [List.mem_append, List.mem_singleton, not_or]
        exact ⟨hmem, fun heq => ha heq.symm⟩

/-- The cells of a new array that a string was copied to. -/
def strcpyNew (nul : α) (n : Nat) (src : List (Option α)) : List (Option α) :=
  (strcpy nul (.replicate n none) src).getD []

theorem strcpy_replicate (h : cString nul cells = some chars) (hn : chars.length < n) :
    strcpy nul (.replicate n none) cells =
      some (chars.map some ++ some nul :: .replicate (n - chars.length - 1) none) := by
  have hroom : chars.length < (List.replicate n (none : Option α)).length := by
    rwa [List.length_replicate]
  rw [strcpy, h]
  simp only [Option.bind_eq_bind, Option.bind_some, if_pos hroom, blit, List.take_zero,
    List.nil_append, List.length_append, List.length_map, List.length_singleton, Nat.zero_add,
    List.drop_replicate, List.append_assoc, List.singleton_append]
  rw [Nat.sub_add_eq]

section New

variable (h : cString nul cells = some chars) (hn : chars.length < n)

include h hn

theorem strcpyNew_eq : strcpyNew nul n cells =
    chars.map some ++ some nul :: .replicate (n - chars.length - 1) none := by
  rw [strcpyNew, strcpy_replicate h hn]
  rfl

theorem strcpy_new : strcpy nul (.replicate n none) cells = some (strcpyNew nul n cells) := by
  rw [strcpyNew_eq h hn, strcpy_replicate h hn]

theorem cString_strcpyNew : cString nul (strcpyNew nul n cells) = some chars :=
  cString_eq_some_iff.mpr ⟨(cString_eq_some_iff.mp h).1, _, strcpyNew_eq h hn⟩

theorem strcpyNew_length : (strcpyNew nul n cells).length = n := by
  rw [strcpyNew_eq h hn]
  simp only [List.length_append, List.length_map, List.length_cons, List.length_replicate]
  omega

/-- Nothing after the terminator is copied. -/
theorem strcpyNew_getElem? (hi : i < n) : (strcpyNew nul n cells)[i]? =
    if i ≤ chars.length then cells[i]? else some none := by
  rw [strcpyNew_eq h hn]
  obtain ⟨-, rest, rfl⟩ := cString_eq_some_iff.mp h
  split
  · rename_i hle
    rcases Nat.lt_or_eq_of_le hle with hlt | rfl
    · rw [List.getElem?_append_left (by simpa using hlt),
        List.getElem?_append_left (by simpa using hlt)]
    · rw [List.getElem?_append_right (by simp), List.getElem?_append_right (by simp)]
      simp
  · rename_i hlt
    obtain ⟨k, rfl⟩ := Nat.exists_eq_add_of_lt (Nat.lt_of_not_le hlt)
    rw [List.getElem?_append_right (by rw [List.length_map]; omega), List.length_map]
    have hindex : chars.length + k + 1 - chars.length = k + 1 := by omega
    rw [hindex, List.getElem?_cons_succ, List.getElem?_replicate, if_pos (by omega)]

end New

/-- A character that was written comes after a terminator, among the first `n` cells. -/
def WrittenAfter (nul : α) (cells : List (Option α)) (n : Nat) : Prop :=
  ∃ i j a, i < j ∧ j < n ∧ cells[i]? = some (some nul) ∧ cells[j]? = some (some a)

/-- A copy has all of the characters unless some come after a terminator. -/
theorem strcpyNew_same_iff {size : Nat} (h : cString nul cells = some chars)
    (hchars : chars.length ≤ size) (hsize : size < cells.length) (hn : size < n) :
    (∀ i < size, (strcpyNew nul n cells)[i]? = cells[i]?) ↔ ¬ WrittenAfter nul cells size := by
  have hroom : chars.length < n := by omega
  constructor
  · rintro hsame ⟨i, j, a, hij, hj, hi, ha⟩
    have hle := cString_le_of_terminator h hi
    have hcopied := hsame j hj
    rw [strcpyNew_getElem? h hroom (by omega), if_neg (by omega), ha] at hcopied
    cases hcopied
  · intro hnone i hi
    rw [strcpyNew_getElem? h hroom (by omega)]
    split
    · rfl
    · rename_i hlt
      cases hcell : cells[i]? with
      | none =>
          rw [List.getElem?_eq_none_iff] at hcell
          omega
      | some cell =>
          cases cell with
          | none => rfl
          | some a =>
              exact absurd ⟨chars.length, i, a, by omega, hi, cString_terminator h, hcell⟩ hnone

end

end CString

/-! ## Comparison

`memcmp` and the lexicographic order. The sign of the result of `memcmp` is that of the
first difference, and nothing more is known of it. With the lengths to decide between
a list and one that it begins, this is the order of lists.
-/

section Memcmp

/-- The sign of a number says how two values are ordered. -/
structure Signs {β : Type*} [LinearOrder β] (r : Int) (a b : β) : Prop where
  neg : r < 0 ↔ a < b
  zero : r = 0 ↔ a = b
  pos : 0 < r ↔ b < a

namespace Signs

variable {β : Type*} [LinearOrder β] {r r' : Int} {a b c : β}

theorem of_lt (h : a < b) (hr : r < 0) : Signs r a b :=
  ⟨iff_of_true hr h, iff_of_false hr.ne h.ne, iff_of_false hr.not_gt h.not_gt⟩

theorem of_gt (h : b < a) (hr : 0 < r) : Signs r a b :=
  ⟨iff_of_false hr.not_gt h.not_gt, iff_of_false hr.ne' h.ne', iff_of_true hr h⟩

theorem of_eq (a : β) : Signs 0 a a :=
  ⟨iff_of_false (lt_irrefl _) (lt_irrefl _), iff_of_true rfl rfl,
    iff_of_false (lt_irrefl _) (lt_irrefl _)⟩

theorem nonpos_iff (h : Signs r a b) : r ≤ 0 ↔ a ≤ b := by
  rw [← not_lt, h.pos, not_lt]

/-- Two numbers that order the same values have the same sign. -/
theorem sign_eq (h : Signs r a b) (h' : Signs r' a b) : r.sign = r'.sign := by
  rcases lt_trichotomy a b with hlt | heq | hgt
  · rw [Int.sign_eq_neg_one_of_neg (h.neg.mpr hlt), Int.sign_eq_neg_one_of_neg (h'.neg.mpr hlt)]
  · rw [h.zero.mpr heq, h'.zero.mpr heq]
  · rw [Int.sign_eq_one_of_pos (h.pos.mpr hgt), Int.sign_eq_one_of_pos (h'.pos.mpr hgt)]

end Signs

section Lists

variable {α : Type*} [LinearOrder α] {r : Int} {as bs : List α}

theorem cons_lt_cons_self_iff (a : α) : a :: as < a :: bs ↔ as < bs :=
  List.lex_cons_iff

theorem Signs.cons_iff (a : α) : Signs r (a :: as) (a :: bs) ↔ Signs r as bs := by
  constructor
  · rintro ⟨hneg, hzero, hpos⟩
    exact ⟨hneg.trans (cons_lt_cons_self_iff a), hzero.trans (List.cons_inj_right a),
      hpos.trans (cons_lt_cons_self_iff a)⟩
  · rintro ⟨hneg, hzero, hpos⟩
    exact ⟨hneg.trans (cons_lt_cons_self_iff a).symm, hzero.trans (List.cons_inj_right a).symm,
      hpos.trans (cons_lt_cons_self_iff a).symm⟩

/-- Beginning alike changes nothing in the order. -/
theorem Signs.append_left_iff (p : List α) : Signs r (p ++ as) (p ++ bs) ↔ Signs r as bs := by
  induction p with
  | nil => rfl
  | cons a p ih => rw [List.cons_append, List.cons_append, Signs.cons_iff, ih]

end Lists

/-- What `memcmp` returns for the first two values that differ. -/
structure Memcmp (α : Type*) [LinearOrder α] where
  difference : α → α → Int
  signs : ∀ a b, Signs (difference a b) a b

namespace Memcmp

variable {α : Type*} [LinearOrder α] (C : Memcmp α)

def run : List α → List α → Int
  | a :: as, b :: bs => if a = b then run as bs else C.difference a b
  | _, _ => 0

/-- What the common part does not decide, the lengths do. -/
def compare (as bs : List α) : Int :=
  let common := min as.length bs.length
  let res := C.run (as.take common) (bs.take common)
  if res ≠ 0 then res
  else if as.length < bs.length then -1
  else if bs.length < as.length then 1
  else 0

theorem compare_signs (as bs : List α) : Signs (C.compare as bs) as bs := by
  induction as generalizing bs with
  | nil =>
      cases bs with
      | nil => exact .of_eq []
      | cons b bs => exact .of_lt List.Lex.nil (by simp [compare, run])
  | cons a as ih =>
      cases bs with
      | nil => exact .of_gt List.Lex.nil (by simp [compare, run])
      | cons b bs =>
          have hmin : min (a :: as).length (b :: bs).length =
              min as.length bs.length + 1 := by simp
          by_cases heq : a = b
          · subst heq
            have hrest : C.compare (a :: as) (a :: bs) = C.compare as bs := by
              rw [compare, hmin]
              simp [run, compare]
            rw [hrest, Signs.cons_iff]
            exact ih bs
          · have hne : C.difference a b ≠ 0 := fun hzero => heq ((C.signs a b).zero.mp hzero)
            have hfirst : C.compare (a :: as) (b :: bs) = C.difference a b := by
              rw [compare, hmin]
              simp [run, heq, hne]
            rw [hfirst]
            rcases lt_or_gt_of_ne heq with hlt | hgt
            · exact .of_lt (List.Lex.rel hlt) ((C.signs a b).neg.mpr hlt)
            · exact .of_gt (List.Lex.rel hgt) ((C.signs a b).pos.mpr hgt)

end Memcmp

end Memcmp

end MoreCpp.Library
