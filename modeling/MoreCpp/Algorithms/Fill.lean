import MoreCpp.Library.GraphSearch
import MoreCpp.Library.Grid
import MoreCpp.Library.Loop
import Mathlib.Data.Fintype.Prod

/-!
`fill` of `algorithms/graphs/graphs.cpp`, on a grid of `m` rows and `n` columns.
-/

namespace MoreCpp

open Library

namespace Fill

abbrev Grid (m n : Nat) := Cell m n → Char

variable {m n : Nat}

def dfs : Nat → Int → Int → Grid m n → Option (Grid m n)
  | 0, _, _, _ => none
  | fuel + 1, i, j, grid =>
    match cellAt m n i j with
    | none => some grid
    | some c =>
      if grid c ≠ 'O' then some grid
      else steps.foldlM (fun grid d => dfs fuel (i + d.1) (j + d.2) grid)
        (Function.update grid c '.')

/-- What the last loops write into a cell. -/
def restore (a : Char) : Char := if a = '.' then 'O' else if a = 'O' then 'X' else a

def restoreAll (grid : Grid m n) : Grid m n :=
  (rowMajor m n).foldl (fun grid c => Function.update grid c (restore (grid c))) grid

/-- The loops that start the marking. -/
def markAll (fuel : Nat) (grid : Grid m n) : Option (Grid m n) := do
  let grid ← forRange 0 m (fun i grid => do
    let grid ← dfs fuel i 0 grid
    dfs fuel i (n - 1) grid) grid
  forRange 1 (m - 1) (fun j grid => do
    let grid ← dfs fuel 0 j grid
    dfs fuel (m - 1) j grid) grid

def fill (fuel : Nat) (grid : Grid m n) : Option (Grid m n) := do
  let grid ← markAll fuel grid
  return restoreAll grid

/-! ## Marking -/

def openCells (grid : Grid m n) : Set (Cell m n) := {c | grid c = 'O'}

/-- The seeds for coordinates that may lie outside. -/
def seedAt (i j : Int) : Set (Cell m n) := {c | cellAt m n i j = some c}

/-- Some cells are marked, which are what the seeds lead to. -/
structure Marked (S : Set (Cell m n)) (grid grid' : Grid m n) : Prop where
  cells : ∀ c, grid' c = grid c ∨ grid c = 'O' ∧ grid' c = '.'
  flood : Flood Adjacent S (openCells grid) (openCells grid')

variable {S T : Set (Cell m n)} {grid grid' grid'' : Grid m n} {c : Cell m n} {i j : Int}
  {fuel : Nat}

def openCount (grid : Grid m n) : Nat := (Finset.univ.filter fun c => grid c = 'O').card

theorem Marked.append (h : Marked S grid grid') (h' : Marked T grid' grid'') :
    Marked (S ∪ T) grid grid'' := by
  refine ⟨fun c => ?_, h.flood.append h'.flood⟩
  rcases h'.cells c with hsame | ⟨hopen, hmark⟩
  · rw [hsame]
    exact h.cells c
  · rcases h.cells c with hsame | ⟨-, hmark'⟩
    · exact .inr ⟨hsame ▸ hopen, hmark⟩
    · rw [hmark'] at hopen
      exact absurd hopen (by decide)

theorem Marked.none (h : ∀ s ∈ S, s ∉ openCells grid) : Marked S grid grid :=
  ⟨fun _ => .inl rfl, .none h⟩

theorem Marked.openCount_le (h : Marked S grid grid') : openCount grid' ≤ openCount grid := by
  refine Finset.card_le_card fun c hc => ?_
  rw [Finset.mem_filter] at hc ⊢
  exact ⟨hc.1, h.flood.subset hc.2⟩

theorem openCells_update (hc : grid c = 'O') :
    openCells (Function.update grid c '.') = openCells grid \ {c} := by
  ext d
  obtain rfl | hne := eq_or_ne d c
  · simp [openCells]
  · simp [openCells, hne]

theorem openCount_update (hc : grid c = 'O') :
    openCount (Function.update grid c '.') < openCount grid := by
  refine Finset.card_lt_card ((Finset.ssubset_iff_of_subset fun d hd => ?_).mpr ⟨c, ?_, ?_⟩)
  · rw [Finset.mem_filter] at hd ⊢
    obtain rfl | hne := eq_or_ne d c
    · exact ⟨hd.1, hc⟩
    · rwa [Function.update_of_ne hne] at hd
  · exact Finset.mem_filter.mpr ⟨Finset.mem_univ c, hc⟩
  · simp

theorem mem_seedAt : c ∈ seedAt i j ↔ i = c.1.val ∧ j = c.2.val := cellAt_eq_some

/-- The seeds some steps away. -/
def seedsAround (i j : Int) (seen : List (Int × Int)) : Set (Cell m n) :=
  {c | ∃ d ∈ seen, c ∈ seedAt (i + d.1) (j + d.2)}

theorem seedsAround_concat (seen : List (Int × Int)) (d : Int × Int) :
    (seedsAround i j (seen ++ [d]) : Set (Cell m n)) =
      seedsAround i j seen ∪ seedAt (i + d.1) (j + d.2) := by
  ext c
  simp [seedsAround, or_and_right, exists_or]

theorem seedsAround_steps (c : Cell m n) :
    seedsAround c.1.val c.2.val steps = {d | Adjacent c d} := by
  ext d
  rw [Set.mem_ofPred_eq, ← mem_around, around, List.mem_filterMap]
  rfl

/-- A cell is marked, and then what its neighbours lead to. -/
theorem Marked.visit (hc : grid c = 'O')
    (h : Marked {d | Adjacent c d} (Function.update grid c '.') grid') :
    Marked {c} grid grid' := by
  constructor
  case cells =>
    intro d
    have hcell := h.cells d
    obtain rfl | hne := eq_or_ne d c
    · rw [Function.update_self] at hcell
      exact .inr ⟨hc, hcell.elim id And.right⟩
    · rwa [Function.update_of_ne hne] at hcell
  case flood =>
    have hflood := h.flood
    rw [openCells_update hc] at hflood
    exact hflood.visit hc

/-- A call marks what the cell at its coordinates leads to. -/
theorem dfs_spec (hfuel : openCount grid < fuel) :
    ∃ grid', dfs fuel i j grid = some grid' ∧ Marked (seedAt i j) grid grid' := by
  induction fuel generalizing i j grid with
  | zero => exact absurd hfuel (Nat.not_lt_zero _)
  | succ fuel ih =>
      cases hcell : cellAt m n i j with
      | none =>
          refine ⟨grid, by rw [dfs, hcell], .none fun s hs => ?_⟩
          cases hcell.symm.trans hs
      | some c =>
          have hseed : (seedAt i j : Set (Cell m n)) = {c} := by
            ext d
            rw [seedAt, Set.mem_ofPred_eq, hcell, Option.some_inj, Set.mem_singleton_iff, eq_comm]
          by_cases hc : grid c = 'O'
          · have hcalls : ∃ grid', steps.foldlM (fun grid d => dfs fuel (i + d.1) (j + d.2) grid)
                (Function.update grid c '.') = some grid' ∧
                Marked (seedsAround i j steps) (Function.update grid c '.') grid' := by
              refine foldlM_rule
                (fun seen => Marked (seedsAround i j seen) (Function.update grid c '.'))
                (.none fun s hs => by simp [seedsAround] at hs) fun seen d rest mid _ hmid => ?_
              have hless := hmid.openCount_le.trans_lt (openCount_update hc)
              obtain ⟨grid', hcall, hmarked⟩ :=
                ih (i := i + d.1) (j := j + d.2) (hless.trans_le (Nat.le_of_lt_succ hfuel))
              refine ⟨grid', hcall, ?_⟩
              rw [seedsAround_concat]
              exact hmid.append hmarked
            obtain ⟨grid', hrun, hmarked⟩ := hcalls
            obtain ⟨rfl, rfl⟩ := cellAt_eq_some.mp hcell
            rw [seedsAround_steps] at hmarked
            refine ⟨grid', ?_, hseed ▸ hmarked.visit hc⟩
            rw [dfs, hcell]
            exact (if_neg (not_not_intro hc)).trans hrun
          · refine ⟨grid, ?_, .none fun s hs => ?_⟩
            · rw [dfs, hcell]
              exact if_pos hc
            · rw [hseed, Set.mem_singleton_iff] at hs
              rw [hs]
              exact hc

/-! ## The border -/

/-- The cells from which the marking starts. -/
def Seeded (c : Cell m n) : Prop :=
  c.2.val = 0 ∨ c.2.val + 1 = n ∨
    (c.1.val = 0 ∨ c.1.val + 1 = m) ∧ 1 ≤ c.2.val ∧ c.2.val < m - 1

/-- Two calls in a row. -/
theorem dfs_twice {i' j' : Int} (h : Marked S grid grid') (hfuel : openCount grid < fuel)
    (hT : ∀ c, c ∈ T ↔ c ∈ S ∨ c ∈ seedAt i j ∨ c ∈ seedAt i' j') :
    ∃ grid'', (do
      let grid ← dfs fuel i j grid'
      dfs fuel i' j' grid) = some grid'' ∧ Marked T grid grid'' := by
  obtain ⟨mid, hfirst, hmid⟩ := dfs_spec (i := i) (j := j) (h.openCount_le.trans_lt hfuel)
  have hboth := h.append hmid
  obtain ⟨grid'', hsecond, hlast⟩ :=
    dfs_spec (i := i') (j := j') (hboth.openCount_le.trans_lt hfuel)
  refine ⟨grid'', ?_, ?_⟩
  · rw [hfirst]
    exact hsecond
  · have hset : T = S ∪ seedAt i j ∪ seedAt i' j' := by
      ext c
      rw [hT, Set.mem_union, Set.mem_union, or_assoc]
    rw [hset]
    exact hboth.append hlast

/-- The two loops mark what the seeded cells lead to. -/
theorem markAll_spec (grid : Grid m n) (hfuel : openCount grid < fuel) :
    ∃ marked, markAll fuel grid = some marked ∧ Marked {c | Seeded c} grid marked := by
  have hsides : ∃ mid, forRange 0 m (fun i grid => do
      let grid ← dfs fuel i 0 grid
      dfs fuel i (n - 1) grid) grid = some mid ∧
      Marked {c | c.1.val < max 0 m ∧ (c.2.val = 0 ∨ c.2.val + 1 = n)} grid mid := by
    refine forRange_rule
      (fun i => Marked {c | c.1.val < i ∧ (c.2.val = 0 ∨ c.2.val + 1 = n)} grid)
      (.none fun s hs => absurd hs.1 (Nat.not_lt_zero _)) fun i grid' _ hi hmarked => ?_
    refine dfs_twice hmarked hfuel fun c => ?_
    rw [mem_seedAt, mem_seedAt, Set.mem_ofPred_eq, Set.mem_ofPred_eq]
    omega
  obtain ⟨mid, hsides, hmid⟩ := hsides
  have hends : ∃ marked, forRange 1 (m - 1) (fun j grid => do
      let grid ← dfs fuel 0 j grid
      dfs fuel (m - 1) j grid) mid = some marked ∧
      Marked {c : Cell m n | c.2.val = 0 ∨ c.2.val + 1 = n ∨
        (c.1.val = 0 ∨ c.1.val + 1 = m) ∧ 1 ≤ c.2.val ∧ c.2.val < max 1 (m - 1)} grid marked := by
    refine forRange_rule (fun j => Marked {c : Cell m n | c.2.val = 0 ∨ c.2.val + 1 = n ∨
      (c.1.val = 0 ∨ c.1.val + 1 = m) ∧ 1 ≤ c.2.val ∧ c.2.val < j} grid) ?_
      fun j grid' hj _ hmarked => ?_
    · refine ⟨hmid.cells, hmid.flood.congr fun c _ => ?_⟩
      rw [Set.mem_ofPred_eq, Set.mem_ofPred_eq]
      omega
    · refine dfs_twice hmarked hfuel fun c => ?_
      rw [mem_seedAt, mem_seedAt, Set.mem_ofPred_eq, Set.mem_ofPred_eq]
      omega
  obtain ⟨marked, hends, hmarked⟩ := hends
  refine ⟨marked, ?_, hmarked.cells, hmarked.flood.congr fun c _ => ?_⟩
  · rw [markAll, hsides]
    exact hends
  · rw [Set.mem_ofPred_eq, Set.mem_ofPred_eq, Seeded]
    omega

/-! ## The last loops -/

theorem restoreAll_apply (grid : Grid m n) (c : Cell m n) :
    restoreAll grid c = restore (grid c) := by
  have hhit : ∀ (grid : Grid m n) (d c : Cell m n), c = d →
      Function.update grid d (restore (grid d)) c = restore (grid c) := by
    rintro grid d _ rfl
    exact Function.update_self ..
  exact foldl_hit hhit (fun grid d c hne => Function.update_of_ne hne ..) nodup_rowMajor
    (mem_rowMajor c) rfl (fun d hd => hd.symm) grid

/-! ## The result -/

/-- A cell is open afterwards just when it was and open cells join it to the border. -/
def Surrounded (grid result : Grid m n) : Prop :=
  ∀ c, (result c = 'O' ↔
      grid c = 'O' ∧ ∃ b, OnBorder b ∧ Through Adjacent (openCells grid) b c) ∧
    (result c ≠ 'O' → result c = 'X')

/-- The open cells of the first and last row from which no marking starts are joined to
one from which it does. -/
def Joined (grid : Grid m n) : Prop :=
  ∀ c, (c.1.val = 0 ∨ c.1.val + 1 = m) → m - 1 ≤ c.2.val → grid c = 'O' →
    ∃ s, Seeded s ∧ Through Adjacent (openCells grid) s c

theorem Seeded.onBorder {c : Cell m n} (h : Seeded c) : OnBorder c := by
  unfold Seeded at h
  unfold OnBorder
  omega

theorem fill_spec (grid : Grid m n) (hcells : ∀ c, grid c = 'X' ∨ grid c = 'O')
    (hfuel : m * n < fuel) : ∃ result, fill fuel grid = some result ∧
      ∀ c, (result c = 'O' ↔ ∃ s, Seeded s ∧ Through Adjacent (openCells grid) s c) ∧
        (result c ≠ 'O' → result c = 'X') := by
  have hcount : openCount grid < fuel := by
    refine (Finset.card_filter_le _ _).trans_lt ?_
    rwa [Finset.card_univ, Fintype.card_prod, Fintype.card_fin, Fintype.card_fin]
  obtain ⟨marked, hrun, hmarked⟩ := markAll_spec grid hcount
  refine ⟨restoreAll marked, by rw [fill, hrun]; rfl, fun c => ?_⟩
  rw [restoreAll_apply]
  rcases hcells c with hc | hc
  · -- a cell that was not open is not marked
    have hsame : marked c = 'X' := by
      rcases hmarked.cells c with hsame | ⟨hopen, -⟩
      · rw [hsame, hc]
      · rw [hc] at hopen
        exact absurd hopen (by decide)
    rw [hsame]
    refine ⟨iff_of_false (by decide) ?_, fun _ => rfl⟩
    rintro ⟨s, -, hway⟩
    have hopen : grid c = 'O' := hway.mem
    rw [hc] at hopen
    exact absurd hopen (by decide)
  · have hreach := hmarked.flood.not_mem_iff (x := c) hc
    rcases hmarked.cells c with hsame | ⟨-, hmark⟩
    · have hleft : marked c = 'O' := hsame.trans hc
      rw [hleft]
      exact ⟨iff_of_false (by decide) fun h => hreach.mpr h hleft, fun _ => rfl⟩
    · rw [hmark]
      refine ⟨iff_of_true rfl (hreach.mp fun hleft => ?_), fun h => absurd rfl h⟩
      exact absurd (hmark.symm.trans hleft) (by decide)

/-- Two rows of three cells, where the one in the middle of the first row is open. -/
def notch : Grid 2 3 := fun c => if c.1.val = 0 ∧ c.2.val = 1 then 'O' else 'X'

end Fill

end MoreCpp
