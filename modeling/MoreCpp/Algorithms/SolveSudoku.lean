import MoreCpp.Library.Backtracking
import Mathlib.Data.Fin.Basic
import Mathlib.Data.List.FinRange
import Mathlib.Data.List.Induction
import Mathlib.Data.List.Pairwise
import Mathlib.Data.List.ProdSigma

/-!
`solve_sudoku` of `algorithms/graphs/graphs.cpp`. A cell that is `'.'` is `none`, and the
digit `v + '1'` is `some v`. The tables `row`, `col` and `box` are given with what they
hold before the function writes to them, which may be anything.
-/

namespace MoreCpp

open Library

namespace SolveSudoku

abbrev Board := Fin 9 → Fin 9 → Option (Fin 9)

def Board.set (board : Board) (i j v : Fin 9) : Board :=
  fun a b => if a = i ∧ b = j then some v else board a b

/-- `i/3`. -/
def third (i : Fin 9) : Fin 3 := ⟨i / 3, by omega⟩

@[ext] structure Tables where
  row : Fin 9 → Fin 9 → Int
  col : Fin 9 → Fin 9 → Int
  box : Fin 3 → Fin 3 → Fin 9 → Int

/-- `row[i][v] = col[j][v] = box[i/3][j/3][v] = mark`. -/
def Tables.set (tables : Tables) (i j v : Fin 9) (mark : Int) : Tables where
  row a w := if a = i ∧ w = v then mark else tables.row a w
  col b w := if b = j ∧ w = v then mark else tables.col b w
  box a b w := if a = third i ∧ b = third j ∧ w = v then mark else tables.box a b w

/-- `!row[i][v] && !col[j][v] && !box[i/3][j/3][v]`. -/
def Tables.free (tables : Tables) (i j v : Fin 9) : Prop :=
  tables.row i v = 0 ∧ tables.col j v = 0 ∧ tables.box (third i) (third j) v = 0

instance (tables : Tables) (i j v : Fin 9) : Decidable (tables.free i j v) :=
  inferInstanceAs (Decidable (_ ∧ _))

/-- A turn of the loops over the board, which lists the empty cells. -/
def scanCell (board : Board) (s : Tables × List (Fin 9 × Fin 9)) (i j : Fin 9) :
    Tables × List (Fin 9 × Fin 9) :=
  match board i j with
  | none => (s.1, s.2 ++ [(i, j)])
  | some v => (s.1.set i j v 1, s.2)

def scan (tables : Tables) (board : Board) : Tables × List (Fin 9 × Fin 9) :=
  (List.finRange 9).foldl (fun s i =>
    (List.finRange 9).foldl (fun s j => scanCell board s i j) s) (tables, [])

structure State where
  tables : Tables
  board : Board
  ok : Bool

/-- A turn of the loop over `v` up to the test of `ok`, with the call for the next cell. -/
def tryDigit (next : State → State) (i j v : Fin 9) (s : State) : State :=
  if s.tables.free i j v then
    let s' := next { s with tables := s.tables.set i j v 1, board := s.board.set i j v }
    { s' with tables := s'.tables.set i j v 0 }
  else s

def tryDigits (next : State → State) (i j : Fin 9) : List (Fin 9) → State → State
  | [], s => s
  | v :: vs, s =>
    let s' := tryDigit next i j v s
    if s'.ok then s' else tryDigits next i j vs s'

/-- `dfs(k)`, where the cells `e[k]`, `e[k+1]`, ... are left. -/
def dfs : List (Fin 9 × Fin 9) → State → State
  | [], s => { s with ok := true }
  | (i, j) :: e, s => tryDigits (dfs e) i j (List.finRange 9) s

/-- The board at the end, from the tables and the board at the start. -/
def solveSudoku (tables : Tables) (board : Board) : Board :=
  let (marked, e) := scan tables board
  (dfs e { tables := marked, board, ok := false }).board

variable {board : Board} {start tables : Tables} {i j v : Fin 9}

@[simp] theorem Board.set_self : board.set i j v i j = some v := if_pos ⟨rfl, rfl⟩

theorem Board.set_of_ne {a b : Fin 9} (h : (a, b) ≠ (i, j)) : board.set i j v a b = board a b :=
  if_neg fun hsame => h (Prod.ext hsame.1 hsame.2)

/-! ## The tables -/

/-- The same digit in a row, a column or a box. -/
def Clash (p q : (Fin 9 × Fin 9) × Fin 9) : Prop :=
  p.2 = q.2 ∧ (p.1.1 = q.1.1 ∨ p.1.2 = q.1.2 ∨
    third p.1.1 = third q.1.1 ∧ third p.1.2 = third q.1.2)

/-- The tables have the marks of the start and those of the digits that are placed. -/
structure Marked (start tables : Tables) (placed : Set ((Fin 9 × Fin 9) × Fin 9)) : Prop where
  row : ∀ i v, tables.row i v = 0 ↔ start.row i v = 0 ∧ ∀ j, ((i, j), v) ∉ placed
  col : ∀ j v, tables.col j v = 0 ↔ start.col j v = 0 ∧ ∀ i, ((i, j), v) ∉ placed
  box : ∀ a b v, tables.box a b v = 0 ↔
    start.box a b v = 0 ∧ ∀ i j, third i = a → third j = b → ((i, j), v) ∉ placed

variable {placed : Set ((Fin 9 × Fin 9) × Fin 9)}

theorem Marked.free_iff (h : Marked start tables placed) :
    tables.free i j v ↔ start.free i j v ∧ ∀ q ∈ placed, ¬Clash ((i, j), v) q := by
  rw [Tables.free, h.row, h.col, h.box]
  constructor
  · rintro ⟨⟨hrow, hrow'⟩, ⟨hcol, hcol'⟩, hbox, hbox'⟩
    refine ⟨⟨hrow, hcol, hbox⟩, ?_⟩
    rintro ⟨⟨a, b⟩, w⟩ hq ⟨hv, hi | hj | ⟨hi, hj⟩⟩
    all_goals dsimp only at *; subst hv
    · subst hi
      exact hrow' b hq
    · subst hj
      exact hcol' a hq
    · exact hbox' a b hi.symm hj.symm hq
  · rintro ⟨⟨hrow, hcol, hbox⟩, hplaced⟩
    exact ⟨⟨hrow, fun b hq => hplaced _ hq ⟨rfl, .inl rfl⟩⟩,
      ⟨hcol, fun a hq => hplaced _ hq ⟨rfl, .inr (.inl rfl)⟩⟩, hbox,
      fun a b ha hb hq => hplaced _ hq ⟨rfl, .inr (.inr ⟨ha.symm, hb.symm⟩)⟩⟩

theorem Marked.set (h : Marked start tables placed) :
    Marked start (tables.set i j v 1) (insert ((i, j), v) placed) := by
  constructor
  case row =>
    intro a w
    simp only [Tables.set]
    split
    case isTrue hsame =>
      obtain ⟨rfl, rfl⟩ := hsame
      exact iff_of_false Int.one_ne_zero fun hnone => hnone.2 j (Set.mem_insert ..)
    case isFalse hother =>
      rw [h.row]
      refine and_congr_right fun _ => forall_congr' fun b => ?_
      rw [Set.mem_insert_iff, or_iff_right]
      rintro ⟨⟩
      exact hother ⟨rfl, rfl⟩
  case col =>
    intro b w
    simp only [Tables.set]
    split
    case isTrue hsame =>
      obtain ⟨rfl, rfl⟩ := hsame
      exact iff_of_false Int.one_ne_zero fun hnone => hnone.2 i (Set.mem_insert ..)
    case isFalse hother =>
      rw [h.col]
      refine and_congr_right fun _ => forall_congr' fun a => ?_
      rw [Set.mem_insert_iff, or_iff_right]
      rintro ⟨⟩
      exact hother ⟨rfl, rfl⟩
  case box =>
    intro a b w
    simp only [Tables.set]
    split
    case isTrue hsame =>
      obtain ⟨rfl, rfl, rfl⟩ := hsame
      exact iff_of_false Int.one_ne_zero fun hnone => hnone.2 i j rfl rfl (Set.mem_insert ..)
    case isFalse hother =>
      rw [h.box]
      refine and_congr_right fun _ => forall₄_congr fun i' j' ha hb => ?_
      rw [Set.mem_insert_iff, or_iff_right]
      rintro ⟨⟩
      exact hother ⟨ha.symm, hb.symm, rfl⟩

/-- The marks of a digit that was free are taken back. -/
theorem set_set_of_free (h : tables.free i j v) : (tables.set i j v 1).set i j v 0 = tables := by
  obtain ⟨hrow, hcol, hbox⟩ := h
  apply Tables.ext
  · funext a w
    simp only [Tables.set]
    split
    case isTrue hsame => rw [hsame.1, hsame.2, hrow]
    case isFalse => rfl
  · funext b w
    simp only [Tables.set]
    split
    case isTrue hsame => rw [hsame.1, hsame.2, hcol]
    case isFalse => rfl
  · funext a b w
    simp only [Tables.set]
    split
    case isTrue hsame => rw [hsame.1, hsame.2.1, hsame.2.2, hbox]
    case isFalse => rfl

/-! ## The search -/

/-- What the search over the cells `e` does, when it tries the assignments `among`. -/
structure Searched (start : Tables) (placed : Set ((Fin 9 × Fin 9) × Fin 9))
    (e : List (Fin 9 × Fin 9)) (among : Set (Fin 9 × Fin 9 → Fin 9)) (s s' : State) : Prop where
  tables : s'.tables = s.tables
  frame : ∀ i j, (i, j) ∉ e → s'.board i j = s.board i j
  tried : ∀ i j, s'.board i j = s.board i j ∨ ∃ v, s'.board i j = some v ∧ start.free i j v
  found : s'.ok = true → ∃ c, Solves (fun p => start.free p.1 p.2) Clash placed e c ∧
    ∀ i j, (i, j) ∈ e → s'.board i j = some (c (i, j))
  complete : s'.ok = false → ∀ c ∈ among, ¬Solves (fun p => start.free p.1 p.2) Clash placed e c

variable {e : List (Fin 9 × Fin 9)} {among among' : Set (Fin 9 × Fin 9 → Fin 9)}
  {s s' s'' : State} {next : State → State}

theorem Searched.refl (hok : s.ok = false)
    (hnone : ∀ c ∈ among, ¬Solves (fun p => start.free p.1 p.2) Clash placed e c) :
    Searched start placed e among s s where
  tables := rfl
  frame _ _ _ := rfl
  tried _ _ := .inl rfl
  found h := absurd (hok.symm.trans h) Bool.false_ne_true
  complete _ := hnone

/-- A search that finds nothing, and then one of other assignments. -/
theorem Searched.trans (h : Searched start placed e among s s') (hok : s'.ok = false)
    (h' : Searched start placed e among' s' s'') :
    Searched start placed e (among ∪ among') s s'' where
  tables := h'.tables.trans h.tables
  frame i j hij := (h'.frame i j hij).trans (h.frame i j hij)
  tried i j := by
    obtain hsame | hfree := h'.tried i j
    · rw [hsame]
      exact h.tried i j
    · exact .inr hfree
  found := h'.found
  complete hnone c hc := by
    obtain hc | hc := hc
    · exact h.complete hok c hc
    · exact h'.complete hnone c hc

theorem tryDigit_spec (hfresh : (i, j) ∉ e)
    (hnext : ∀ placed s, s.ok = false → Marked start s.tables placed →
      Searched start placed e Set.univ s (next s))
    (hok : s.ok = false) (hmarked : Marked start s.tables placed) :
    Searched start placed ((i, j) :: e) { c | c (i, j) = v } s (tryDigit next i j v s) := by
  unfold tryDigit
  split
  case isTrue hfree =>
    obtain ⟨hstart, hplaced⟩ := hmarked.free_iff.mp hfree
    have h := hnext (insert ((i, j), v) placed)
      { s with tables := s.tables.set i j v 1, board := s.board.set i j v } hok hmarked.set
    constructor
    case tables =>
      dsimp only
      rw [h.tables]
      exact set_set_of_free hfree
    case frame =>
      intro a b hab
      rw [List.mem_cons, not_or] at hab
      obtain ⟨hne, hab⟩ := hab
      exact (h.frame a b hab).trans (Board.set_of_ne hne)
    case tried =>
      intro a b
      obtain hsame | htried := h.tried a b
      · obtain heq | hne := eq_or_ne (a, b) (i, j)
        · obtain ⟨rfl, rfl⟩ := Prod.mk.inj heq
          exact .inr ⟨v, hsame.trans Board.set_self, hstart⟩
        · exact .inl (hsame.trans (Board.set_of_ne hne))
      · exact .inr htried
    case found =>
      intro hfound
      obtain ⟨c, hsolves, hboard⟩ := h.found hfound
      refine ⟨_, hsolves.cons hfresh hstart hplaced, fun a b hab => ?_⟩
      obtain heq | hab := List.mem_cons.mp hab
      · obtain ⟨rfl, rfl⟩ := Prod.mk.inj heq
        rw [Function.update_self]
        exact (h.frame a b hfresh).trans Board.set_self
      · rw [Function.update_of_ne fun heq : (a, b) = (i, j) => hfresh (heq ▸ hab)]
        exact hboard a b hab
    case complete =>
      rintro hnone c rfl ⟨-, -, hsolves⟩
      exact h.complete hnone c trivial hsolves
  case isFalse hfree =>
    refine Searched.refl hok fun c hc hsolves => hfree ?_
    obtain rfl : c (i, j) = v := hc
    exact hmarked.free_iff.mpr ⟨hsolves.1, hsolves.2.1⟩

theorem tryDigits_spec (digits : List (Fin 9)) (hfresh : (i, j) ∉ e)
    (hnext : ∀ placed s, s.ok = false → Marked start s.tables placed →
      Searched start placed e Set.univ s (next s))
    (hok : s.ok = false) (hmarked : Marked start s.tables placed) :
    Searched start placed ((i, j) :: e) { c | c (i, j) ∈ digits } s
      (tryDigits next i j digits s) := by
  induction digits generalizing s with
  | nil => exact Searched.refl hok fun c hc => absurd hc List.not_mem_nil
  | cons v vs ih =>
      have hfirst := tryDigit_spec (v := v) hfresh hnext hok hmarked
      have hsplit : { c : Fin 9 × Fin 9 → Fin 9 | c (i, j) ∈ v :: vs } =
          { c | c (i, j) = v } ∪ { c | c (i, j) ∈ vs } := Set.ext fun c => List.mem_cons
      rw [tryDigits, hsplit]
      split
      case isTrue hok' =>
        exact ⟨hfirst.tables, hfirst.frame, hfirst.tried, hfirst.found,
          fun hnone => absurd (hnone.symm.trans hok') Bool.false_ne_true⟩
      case isFalse hok' =>
        rw [Bool.not_eq_true] at hok'
        exact hfirst.trans hok' (ih hok' (hfirst.tables ▸ hmarked))

theorem dfs_spec (hnodup : e.Nodup) (hok : s.ok = false) (hmarked : Marked start s.tables placed) :
    Searched start placed e Set.univ s (dfs e s) := by
  induction e generalizing placed s with
  | nil => exact ⟨rfl, fun _ _ _ => rfl, fun _ _ => .inl rfl,
      fun _ => ⟨fun _ => 0, trivial, fun _ _ h => absurd h List.not_mem_nil⟩,
      fun h => by cases h⟩
  | cons p e ih =>
      obtain ⟨i, j⟩ := p
      obtain ⟨hfresh, hnodup⟩ := List.nodup_cons.mp hnodup
      have h := tryDigits_spec (List.finRange 9) hfresh
        (fun placed s hok hmarked => ih hnodup hok hmarked) hok hmarked
      exact ⟨h.tables, h.frame, h.tried, h.found,
        fun hnone c _ => h.complete hnone c (List.mem_finRange _)⟩

/-! ## The scan of the board -/

/-- The digits that are given. -/
def givens (board : Board) : Set ((Fin 9 × Fin 9) × Fin 9) := { q | board q.1.1 q.1.2 = some q.2 }

theorem marked_start (tables : Tables) : Marked tables tables ∅ where
  row _ _ := (and_iff_left fun _ => id).symm
  col _ _ := (and_iff_left fun _ => id).symm
  box _ _ _ := (and_iff_left fun _ _ _ _ => id).symm

theorem scanCell_none {s : Tables × List (Fin 9 × Fin 9)} (h : board i j = none) :
    scanCell board s i j = (s.1, s.2 ++ [(i, j)]) := by
  rw [scanCell, h]

theorem scanCell_some {s : Tables × List (Fin 9 × Fin 9)} (h : board i j = some v) :
    scanCell board s i j = (s.1.set i j v 1, s.2) := by
  rw [scanCell, h]

theorem scanCells_spec (tables : Tables) (board : Board) (cells : List (Fin 9 × Fin 9)) :
    let s := cells.foldl (fun s p => scanCell board s p.1 p.2) (tables, [])
    Marked tables s.1 { q | q.1 ∈ cells ∧ board q.1.1 q.1.2 = some q.2 } ∧
      s.2 = cells.filter fun p => board p.1 p.2 = none := by
  induction cells using List.reverseRecOn with
  | nil => exact ⟨by simpa using marked_start tables, rfl⟩
  | append_singleton cells p ih =>
      obtain ⟨hmarked, he⟩ := ih
      obtain ⟨i, j⟩ := p
      rw [List.foldl_append, List.foldl_cons, List.foldl_nil, List.filter_append]
      dsimp only
      obtain hcell | ⟨v, hcell⟩ := Option.eq_none_or_eq_some (board i j)
      · have hsame : { q : (Fin 9 × Fin 9) × Fin 9 |
            q.1 ∈ cells ++ [(i, j)] ∧ board q.1.1 q.1.2 = some q.2 } =
              { q | q.1 ∈ cells ∧ board q.1.1 q.1.2 = some q.2 } := by
          ext ⟨⟨a, b⟩, w⟩
          refine and_congr_left fun hab => ?_
          rw [List.mem_append, List.mem_singleton, or_iff_left]
          rintro ⟨⟩
          cases hcell.symm.trans hab
        rw [scanCell_none hcell, hsame, he]
        exact ⟨hmarked, by simp [hcell]⟩
      · have hmore : { q : (Fin 9 × Fin 9) × Fin 9 |
            q.1 ∈ cells ++ [(i, j)] ∧ board q.1.1 q.1.2 = some q.2 } =
              insert ((i, j), v) { q | q.1 ∈ cells ∧ board q.1.1 q.1.2 = some q.2 } := by
          ext ⟨⟨a, b⟩, w⟩
          rw [Set.mem_insert_iff, Set.mem_ofPred_eq, Set.mem_ofPred_eq, List.mem_append,
            List.mem_singleton, or_and_right, or_comm]
          refine or_congr_left ⟨?_, ?_⟩
          · rintro ⟨⟨⟩, hab⟩
            rw [Option.some.inj (hcell.symm.trans hab)]
          · rintro ⟨⟩
            exact ⟨rfl, hcell⟩
        rw [scanCell_some hcell, hmore, he]
        exact ⟨hmarked.set, by simp [hcell]⟩

theorem scan_spec (tables : Tables) (board : Board) :
    Marked tables (scan tables board).1 (givens board) ∧ (scan tables board).2.Nodup ∧
      ∀ i j, (i, j) ∈ (scan tables board).2 ↔ board i j = none := by
  have hscan : scan tables board = ((List.finRange 9).product (List.finRange 9)).foldl
      (fun s p => scanCell board s p.1 p.2) (tables, []) := by
    rw [List.product, List.foldl_flatMap]
    simp only [List.foldl_map]
    rfl
  have hall : ∀ p, p ∈ (List.finRange 9).product (List.finRange 9) := fun p =>
    List.mem_product.mpr ⟨List.mem_finRange p.1, List.mem_finRange p.2⟩
  obtain ⟨hmarked, he⟩ := scanCells_spec tables board ((List.finRange 9).product (List.finRange 9))
  rw [← hscan] at hmarked he
  refine ⟨?_, ?_, fun i j => ?_⟩
  · simp only [hall, true_and] at hmarked
    exact hmarked
  · rw [he]
    exact ((List.nodup_finRange 9).product (List.nodup_finRange 9)).filter _
  · rw [he, List.mem_filter, decide_eq_true_eq]
    exact and_iff_right (hall _)

/-! ## Sudoku -/

/-- Every row, column and box has no digit twice. -/
structure Valid (c : Fin 9 → Fin 9 → Fin 9) : Prop where
  row : ∀ i, (c i).Injective
  col : ∀ j, (c · j).Injective
  box : ∀ i j i' j', third i = third i' → third j = third j' → c i j = c i' j' → i = i' ∧ j = j'

/-- The digits that are given stand where they are given. -/
def Completes (board : Board) (c : Fin 9 → Fin 9 → Fin 9) : Prop :=
  ∀ i j v, board i j = some v → c i j = v

/-- The board at the end is a valid one that has the digits given at the start. -/
def Solved (board result : Board) : Prop :=
  ∃ c, Valid c ∧ Completes board c ∧ ∀ i j, result i j = some (c i j)

/-- What is left in the tables does not stand in the way of some solution. -/
def Unmarked (tables : Tables) (board : Board) : Prop :=
  ∃ c, Valid c ∧ Completes board c ∧ ∀ i j, board i j = none → tables.free i j (c i j)

theorem Clash.symm {p q : (Fin 9 × Fin 9) × Fin 9} (h : Clash p q) : Clash q p :=
  ⟨h.1.symm, h.2.imp Eq.symm (Or.imp Eq.symm (And.imp Eq.symm Eq.symm))⟩

/-- No two cells clash. -/
theorem valid_iff {c : Fin 9 → Fin 9 → Fin 9} :
    Valid c ↔ ∀ p q : Fin 9 × Fin 9, p ≠ q → ¬Clash (p, c p.1 p.2) (q, c q.1 q.2) := by
  constructor
  · rintro h ⟨i, j⟩ ⟨a, b⟩ hne ⟨hsame, hi | hj | ⟨hi, hj⟩⟩
    all_goals dsimp only at *; apply hne
    · subst hi
      rw [h.row i hsame]
    · subst hj
      rw [h.col j hsame]
    · obtain ⟨rfl, rfl⟩ := h.box i j a b hi hj hsame
      rfl
  · intro h
    constructor
    case row =>
      intro i j b hsame
      by_contra hne
      exact h (i, j) (i, b) (by simpa using hne) ⟨hsame, .inl rfl⟩
    case col =>
      intro j i a hsame
      by_contra hne
      exact h (i, j) (a, j) (by simpa using hne) ⟨hsame, .inr (.inl rfl)⟩
    case box =>
      intro i j a b hi hj hsame
      by_contra hne
      exact h (i, j) (a, b) (by simpa using hne) ⟨hsame, .inr (.inr ⟨hi, hj⟩)⟩

theorem search_spec (tables : Tables) (board : Board) :
    ∃ e s, solveSudoku tables board = s.board ∧ e.Nodup ∧
      (∀ i j, (i, j) ∈ e ↔ board i j = none) ∧
      Searched tables (givens board) e Set.univ
        { tables := (scan tables board).1, board, ok := false } s := by
  obtain ⟨hmarked, hnodup, he⟩ := scan_spec tables board
  exact ⟨_, _, rfl, hnodup, he, dfs_spec hnodup rfl hmarked⟩

/-- Only digits that the tables leave free at the start are ever written to a cell. -/
theorem free_of_solveSudoku (hempty : board i j = none)
    (hdigit : solveSudoku tables board i j = some v) : tables.free i j v := by
  obtain ⟨e, s, hresult, -, -, hsearched⟩ := search_spec tables board
  rw [hresult] at hdigit
  obtain hsame | ⟨w, hw, hfree⟩ := hsearched.tried i j
  · cases hempty.symm.trans (hsame.symm.trans hdigit)
  · rwa [Option.some.inj (hdigit.symm.trans hw)]

/-- The digits that are given, and what the search has found elsewhere. -/
def filled (board : Board) (c : Fin 9 × Fin 9 → Fin 9) (i j : Fin 9) : Fin 9 :=
  (board i j).getD (c (i, j))

theorem filled_valid {c : Fin 9 → Fin 9 → Fin 9} {c' : Fin 9 × Fin 9 → Fin 9}
    (hvalid : Valid c) (hcompletes : Completes board c) (he : ∀ i j, (i, j) ∈ e ↔ board i j = none)
    (hsolves : Solves (fun p => tables.free p.1 p.2) Clash (givens board) e c') :
    Valid (filled board c') := by
  rw [valid_iff] at hvalid ⊢
  obtain ⟨heach, hpairs⟩ := solves_iff.mp hsolves
  have hgiven : ∀ p : Fin 9 × Fin 9, ∀ v, board p.1 p.2 = some v →
      filled board c' p.1 p.2 = v ∧ c p.1 p.2 = v := fun p v hp =>
    ⟨by rw [filled, hp, Option.getD_some], hcompletes _ _ _ hp⟩
  have hfound : ∀ p : Fin 9 × Fin 9, board p.1 p.2 = none →
      filled board c' p.1 p.2 = c' p ∧ p ∈ e := fun p hp =>
    ⟨by rw [filled, hp, Option.getD_none], (he _ _).mpr hp⟩
  have : Std.Symm fun p p' : Fin 9 × Fin 9 => ¬Clash (p', c' p') (p, c' p) :=
    ⟨fun p p' h hclash => h hclash.symm⟩
  intro p q hne
  obtain hp | ⟨v, hp⟩ := Option.eq_none_or_eq_some (board p.1 p.2) <;>
    obtain hq | ⟨w, hq⟩ := Option.eq_none_or_eq_some (board q.1 q.2)
  · rw [(hfound p hp).1, (hfound q hq).1]
    exact hpairs.forall (hfound q hq).2 (hfound p hp).2 hne.symm
  · rw [(hfound p hp).1, (hgiven q w hq).1]
    exact (heach p (hfound p hp).2).2 (q, w) hq
  · rw [(hgiven p v hp).1, (hfound q hq).1]
    exact fun hclash => (heach q (hfound q hq).2).2 (p, v) hp hclash.symm
  · have hclash := hvalid p q hne
    rwa [(hgiven p v hp).2, (hgiven q w hq).2, ← (hgiven p v hp).1, ← (hgiven q w hq).1] at hclash

theorem solveSudoku_iff (tables : Tables) (board : Board) :
    Solved board (solveSudoku tables board) ↔ Unmarked tables board := by
  constructor
  · rintro ⟨c, hvalid, hcompletes, hresult⟩
    exact ⟨c, hvalid, hcompletes, fun i j hempty => free_of_solveSudoku hempty (hresult i j)⟩
  · rintro ⟨c, hvalid, hcompletes, hfree⟩
    obtain ⟨e, s, hresult, hnodup, he, hsearched⟩ := search_spec tables board
    have hsolves : Solves (fun p => tables.free p.1 p.2) Clash (givens board) e
        fun p => c p.1 p.2 := by
      rw [valid_iff] at hvalid
      refine solves_iff.mpr ⟨fun p hp => ⟨hfree _ _ ((he _ _).mp hp), fun q hq => ?_⟩, ?_⟩
      · obtain ⟨q, w⟩ := q
        obtain rfl : c q.1 q.2 = w := hcompletes _ _ _ hq
        refine hvalid p q ?_
        rintro rfl
        cases ((he _ _).mp hp).symm.trans hq
      · exact hnodup.imp fun hne => hvalid _ _ hne.symm
    have hok : s.ok = true := by
      by_contra hnot
      exact hsearched.complete (Bool.not_eq_true _ ▸ hnot) _ trivial hsolves
    obtain ⟨c', hsolves', hboard⟩ := hsearched.found hok
    refine ⟨filled board c', filled_valid hvalid hcompletes he hsolves', ?_, fun i j => ?_⟩
    · intro i j v hij
      rw [filled, hij, Option.getD_some]
    · rw [hresult, filled]
      obtain hempty | ⟨v, hij⟩ := Option.eq_none_or_eq_some (board i j)
      · rw [hempty, Option.getD_none]
        exact hboard i j ((he i j).mpr hempty)
      · have hgiven : (i, j) ∉ e := fun hmem => by cases hij.symm.trans ((he i j).mp hmem)
        rw [hij, Option.getD_some, hsearched.frame i j hgiven]
        exact hij

/-! ## Marks that are left in the tables -/

/-- A Sudoku that is filled in row by row. -/
def pattern (i j : Fin 9) : Fin 9 := Fin.ofNat 9 (3 * i + i / 3 + j)

theorem pattern_eq_iff {i j i' j' : Fin 9} : pattern i j = pattern i' j' ↔
    (3 * i.val + i.val / 3 + j.val) % 9 = (3 * i'.val + i'.val / 3 + j'.val) % 9 := Fin.ext_iff

theorem pattern_valid : Valid pattern where
  row i j j' h := by
    have hmod := pattern_eq_iff.mp h
    omega
  col j i i' h := by
    have hmod := pattern_eq_iff.mp h
    have hshift : ∀ k : Nat, k < 9 → (3 * k + k / 3) % 9 = 3 * (k % 3) + k / 3 := by omega
    have hsame : (3 * i.val + i.val / 3) % 9 = (3 * i'.val + i'.val / 3) % 9 := by omega
    rw [hshift i.val i.isLt, hshift i'.val i'.isLt] at hsame
    omega
  box i j i' j' hi hj h := by
    have hmod := pattern_eq_iff.mp h
    have hi' : i.val / 3 = i'.val / 3 := Fin.ext_iff.mp hi
    have hj' : j.val / 3 = j'.val / 3 := Fin.ext_iff.mp hj
    omega

/-- All of it but the first cell. -/
def withHole : Board := fun i j => if i = 0 ∧ j = 0 then none else some (pattern i j)

/-- No digit is free for the cell, and it stays empty. -/
theorem solveSudoku_withHole :
    (∃ c, Valid c ∧ Completes withHole c) ∧
      ¬Solved withHole (solveSudoku ⟨fun _ _ => 1, fun _ _ => 0, fun _ _ _ => 0⟩ withHole) := by
  constructor
  · refine ⟨pattern, pattern_valid, fun i j v hij => ?_⟩
    unfold withHole at hij
    split at hij
    · cases hij
    · exact Option.some.inj hij
  · rintro ⟨c, -, -, hresult⟩
    have hfree := free_of_solveSudoku (i := 0) (j := 0) rfl (hresult 0 0)
    exact absurd hfree.1 Int.one_ne_zero

end SolveSudoku

end MoreCpp
