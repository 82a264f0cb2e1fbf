import MoreCpp.Library.Grid
import MoreCpp.Library.Loop
import MoreCpp.Library.GraphSearch
import Mathlib.Data.Int.ConditionallyCompleteOrder
import Mathlib.Order.ConditionallyCompleteLattice.Basic
import Mathlib.Data.Prod.Lex
import Mathlib.Order.Fin.Basic

/-!
`trap_rain_water` of `algorithms/array/array.cpp`, on a grid of `m` rows and `n` columns,
with integers of any size.
-/

namespace MoreCpp

open Library

namespace TrapRainWater

variable {m n : Nat}

structure State (m n : Nat) where
  pq : List (Int × Cell m n)
  vis : Cell m n → Bool
  ans : Int

/-- The order of the tuples. -/
def key (e : Int × Cell m n) : Int ×ₗ (Fin m ×ₗ Fin n) := toLex (e.1, toLex e.2)

/-- A turn of the first loop. -/
def enter (H : Cell m n → Int) (s : State m n) (c : Cell m n) : State m n :=
  if OnBorder c then
    { s with pq := (H c, c) :: s.pq, vis := Function.update s.vis c true }
  else s

/-- A turn of the loop over the neighbours. -/
def discover (H : Cell m n → Int) (h : Int) (s : State m n) (x : Cell m n) : State m n :=
  if s.vis x then s
  else
    { pq := (max h (H x), x) :: s.pq, vis := Function.update s.vis x true,
      ans := s.ans + max 0 (h - H x) }

def round (H : Cell m n → Int) (s : State m n) : Option (State m n ⊕ Int) :=
  match popMin key s.pq with
  | none => some (.inr s.ans)
  | some ((h, c), pq) => some (.inl (forAround c (discover H h) { s with pq }))

def trapRainWater (fuel : Nat) (H : Cell m n → Int) : Option Int :=
  loop (round H) fuel
    ((rowMajor m n).foldl (enter H) { pq := [], vis := fun _ => false, ans := 0 })

/-! ## Levels -/

/-- A route comes in over the border; its label is the greatest height on it. -/
def graph (H : Cell m n → Int) : LabelledGraph (Cell m n) (Cell m n) Int where
  Start c h := OnBorder c ∧ h = H c
  Joins v x u := Adjacent v x ∧ u = x
  extend h x := max h (H x)
  mono _ _ _ hle := max_le_max_right _ hle
  le_extend _ _ := le_max_left ..

noncomputable def level (H : Cell m n → Int) (c : Cell m n) : Int :=
  sInf {h | (graph H).Label c h}

variable {H : Cell m n → Int} {c v x : Cell m n} {h h' : Int} {s : State m n}

theorem level_eq (hleast : (graph H).Least c h) : level H c = h := IsLeast.csInf_eq hleast

theorem height_le (hlabel : (graph H).Label c h) : H c ≤ h := by
  cases hlabel with
  | start hs => exact hs.2.ge
  | step _ hjoins =>
      obtain ⟨-, rfl⟩ := hjoins
      exact le_max_right ..

theorem least_border (hc : OnBorder c) : (graph H).Least c (H c) :=
  ⟨.start ⟨hc, rfl⟩, fun _ => height_le⟩

/-! ## The search -/

/-- What holds between two rounds, or, but for one cell, between two turns of a round. -/
structure Inv (H : Cell m n → Int) (skip : Option (Cell m n)) (s : State m n) : Prop where
  queued : ∀ e ∈ s.pq, (graph H).Least e.2 e.1
  border : ∀ v, OnBorder v → s.vis v = true
  visited : ∀ v, s.vis v = true → ∃ h, (graph H).Least v h ∧
    ((∀ u, Adjacent v u → s.vis u = true) ∨ (h, v) ∈ s.pq ∨ skip = some v)
  sum : s.ans = markedSum s.vis fun v => level H v - H v

theorem Inv.covered (hinv : Inv H none s) : (graph H).Covered
    (fun v h => s.vis v = true ∧ (graph H).Least v h ∧ ∀ u, Adjacent v u → s.vis u = true)
    fun v h => (h, v) ∈ s.pq := by
  have hreached : ∀ v h, s.vis v = true → (graph H).Label v h → ∃ h' ≤ h,
      (s.vis v = true ∧ (graph H).Least v h' ∧ ∀ u, Adjacent v u → s.vis u = true) ∨
        (h', v) ∈ s.pq := by
    intro v h hv hlabel
    obtain ⟨h', hleast, hstate⟩ := hinv.visited v hv
    refine ⟨h', hleast.le hlabel, ?_⟩
    rcases hstate with haround | hmem | hskip
    · exact .inl ⟨hv, hleast, haround⟩
    · exact .inr hmem
    · cases hskip
  constructor
  case start => exact fun v h hs => hreached v h (hinv.border v hs.1) (.start hs)
  case step =>
    rintro v h x u ⟨-, hleast, haround⟩ hjoins
    exact hreached u _ (haround u (hjoins.2 ▸ hjoins.1)) (hleast.label.step hjoins)

/-- A cell first found from the lowest level of the queue gets its own level. -/
theorem Inv.least (hinv : Inv H none s) (hc : (h, c) ∈ s.pq) (hmin : ∀ e ∈ s.pq, h ≤ e.1)
    (hadj : Adjacent c x) (hx : s.vis x = false) : (graph H).Least x (max h (H x)) := by
  refine ⟨(hinv.queued _ hc).label.step ⟨hadj, rfl⟩, fun h' hlabel => max_le ?_ (height_le hlabel)⟩
  rcases hinv.covered.reaches hlabel with ⟨h'', -, hvis, -⟩ | ⟨v, h'', hmem, hle⟩
  · exact absurd (hx.symm.trans hvis) Bool.false_ne_true
  · exact (hmin _ hmem).trans hle

theorem vis_discover (hv : s.vis v = true) : (discover H h s x).vis v = true := by
  unfold discover
  split
  · exact hv
  · exact mark_eq_true.mpr (.inr hv)

theorem Inv.discover (hinv : Inv H (some c) s)
    (hnew : s.vis x = false → (graph H).Least x (max h (H x))) :
    Inv H (some c) (discover H h s x) ∧ (TrapRainWater.discover H h s x).vis x = true := by
  unfold TrapRainWater.discover
  split
  case isTrue hx => exact ⟨hinv, hx⟩
  case isFalse hx =>
    rw [Bool.not_eq_true] at hx
    have hleast := hnew hx
    refine ⟨⟨?_, ?_, ?_, ?_⟩, Function.update_self ..⟩
    · intro e he
      rcases List.mem_cons.mp he with rfl | he
      · exact hleast
      · exact hinv.queued e he
    · exact fun v hv => mark_eq_true.mpr (.inr (hinv.border v hv))
    · intro v hv
      rcases mark_eq_true.mp hv with rfl | hv
      · exact ⟨_, hleast, .inr (.inl List.mem_cons_self)⟩
      · obtain ⟨h', hleast', hstate⟩ := hinv.visited v hv
        refine ⟨h', hleast', ?_⟩
        rcases hstate with haround | hmem | hskip
        · exact .inl fun u hu => mark_eq_true.mpr (.inr (haround u hu))
        · exact .inr (.inl (List.mem_cons_of_mem _ hmem))
        · exact .inr (.inr hskip)
    · dsimp only
      rw [markedSum_mark hx, ← hinv.sum, level_eq hleast]
      omega

theorem Inv.discoverAll {cells : List (Cell m n)} (hinv : Inv H (some c) s)
    (hnew : ∀ x ∈ cells, s.vis x = false → (graph H).Least x (max h (H x))) :
    Inv H (some c) (cells.foldl (TrapRainWater.discover H h) s) ∧
      (∀ v, s.vis v = true ∨ v ∈ cells →
        (cells.foldl (TrapRainWater.discover H h) s).vis v = true) := by
  induction cells generalizing s with
  | nil => exact ⟨hinv, fun v hv => hv.elim id fun hv => absurd hv List.not_mem_nil⟩
  | cons x cells ih =>
      obtain ⟨hinv', hx⟩ := hinv.discover (hnew x List.mem_cons_self)
      obtain ⟨hlast, hmarked⟩ := ih hinv' fun y hy hfalse => by
        refine hnew y (List.mem_cons_of_mem _ hy) ?_
        by_contra hvis
        rw [Bool.not_eq_false] at hvis
        exact absurd (hfalse.symm.trans (vis_discover hvis)) Bool.false_ne_true
      refine ⟨hlast, fun v hv => hmarked v ?_⟩
      rcases hv with hv | hv
      · exact .inl (vis_discover hv)
      · rcases List.mem_cons.mp hv with rfl | hv
        · exact .inl hx
        · exact .inr hv

/-- How far the search still has to go. -/
def size (s : State m n) : Nat := unmarked s.vis + s.pq.length

theorem size_discover (s : State m n) : size (TrapRainWater.discover H h s x) = size s := by
  unfold TrapRainWater.discover
  split
  case isTrue => rfl
  case isFalse hx =>
    rw [Bool.not_eq_true] at hx
    have hless := unmarked_mark hx
    simp only [size, List.length_cons]
    omega

theorem size_discoverAll (cells : List (Cell m n)) (s : State m n) :
    size (cells.foldl (TrapRainWater.discover H h) s) = size s := by
  induction cells generalizing s with
  | nil => rfl
  | cons x cells ih => rw [List.foldl_cons, ih, size_discover]

/-- A round ends with all cells visited, or goes on from the lowest level of the queue. -/
theorem round_step [NeZero m] [NeZero n] (hinv : Inv H none s) :
    (∃ ans, round H s = some (.inr ans) ∧ (∀ c, (graph H).Least c (level H c)) ∧
      ans = ∑ c, (level H c - H c)) ∨
      ∃ s', round H s = some (.inl s') ∧ Inv H none s' ∧ size s' < size s := by
  by_cases hempty : s.pq = []
  · left
    have hround : round H s = some (.inr s.ans) := by
      rw [round, hempty, popMin_nil]
    have hstate : ∀ v, s.vis v = true → ∀ u, Adjacent v u → s.vis u = true := by
      intro v hv
      obtain ⟨h, -, haround | hmem | hskip⟩ := hinv.visited v hv
      · exact haround
      · rw [hempty] at hmem
        cases hmem
      · cases hskip
    have hall : ∀ v, s.vis v = true :=
      cell_induction (hinv.border _ (.inl rfl)) fun v u hv hadj => hstate v hv u hadj
    refine ⟨s.ans, hround, fun c => ?_, by rw [hinv.sum, markedSum_all hall]⟩
    obtain ⟨h, hleast, -⟩ := hinv.visited c (hall c)
    rwa [level_eq hleast]
  · right
    obtain ⟨⟨h, c⟩, pq, hpop, hmin, hperm⟩ := popMin_of_ne_nil key hempty
    have hc : (h, c) ∈ s.pq := hperm.mem_iff.mpr List.mem_cons_self
    have hlow : ∀ e ∈ s.pq, h ≤ e.1 := fun e he => Prod.Lex.monotone_fst _ _ (hmin e he)
    have hopen : Inv H (some c) { s with pq } := by
      refine ⟨fun e he => hinv.queued e (hperm.mem_iff.mpr (List.mem_cons_of_mem _ he)),
        hinv.border, fun v hv => ?_, hinv.sum⟩
      obtain ⟨h', hleast, hstate⟩ := hinv.visited v hv
      refine ⟨h', hleast, ?_⟩
      rcases hstate with haround | hmem | hskip
      · exact .inl haround
      · rcases List.mem_cons.mp (hperm.mem_iff.mp hmem) with heq | hmem
        · exact .inr (.inr (congrArg some (Prod.mk.inj heq).2.symm))
        · exact .inr (.inl hmem)
      · cases hskip
    have hnew : ∀ x ∈ around c, s.vis x = false → (graph H).Least x (max h (H x)) :=
      fun x hx hfalse => hinv.least hc hlow (mem_around.mp hx) hfalse
    obtain ⟨hlast, hmarked⟩ := hopen.discoverAll hnew
    refine ⟨(around c).foldl (TrapRainWater.discover H h) { s with pq }, ?_, ?_, ?_⟩
    · rw [round, hpop]
      dsimp only
      rw [forAround_eq]
    · refine ⟨hlast.queued, hlast.border, fun v hv => ?_, hlast.sum⟩
      obtain ⟨h', hleast, hstate⟩ := hlast.visited v hv
      refine ⟨h', hleast, ?_⟩
      rcases hstate with haround | hmem | hskip
      · exact .inl haround
      · exact .inr (.inl hmem)
      · obtain rfl := Option.some.inj hskip
        exact .inl fun u hu => hmarked u (.inr (mem_around.mpr hu))
    · rw [size_discoverAll]
      simp only [size, hperm.length_eq, List.length_cons]
      omega

/-! ## The border -/

theorem mem_enterAll {cells : List (Cell m n)} {e : Int × Cell m n} :
    e ∈ (cells.foldl (enter H) s).pq ↔ e ∈ s.pq ∨ ∃ c ∈ cells, OnBorder c ∧ e = (H c, c) := by
  induction cells generalizing s with
  | nil => simp
  | cons c cells ih =>
      rw [List.foldl_cons, ih, enter]
      simp only [List.mem_cons, exists_eq_or_imp]
      split
      case isTrue hc => simp only [List.mem_cons, hc, true_and, or_assoc, or_left_comm]
      case isFalse hc => simp only [hc, false_and, false_or]

theorem vis_enterAll {cells : List (Cell m n)} : (cells.foldl (enter H) s).vis v = true ↔
    s.vis v = true ∨ v ∈ cells ∧ OnBorder v := by
  induction cells generalizing s with
  | nil => simp
  | cons c cells ih =>
      rw [List.foldl_cons, ih, enter, List.mem_cons]
      split
      case isTrue hc =>
        rw [mark_eq_true]
        constructor
        · rintro ((rfl | hv) | ⟨hv, hborder⟩)
          · exact .inr ⟨.inl rfl, hc⟩
          · exact .inl hv
          · exact .inr ⟨.inr hv, hborder⟩
        · rintro (hv | ⟨rfl | hv, hborder⟩)
          · exact .inl (.inr hv)
          · exact .inl (.inl rfl)
          · exact .inr ⟨hv, hborder⟩
      case isFalse hc =>
        refine or_congr_right (and_congr_left fun hborder => (or_iff_right ?_).symm)
        rintro rfl
        exact hc hborder

theorem ans_enterAll (cells : List (Cell m n)) (s : State m n) :
    (cells.foldl (enter H) s).ans = s.ans := by
  induction cells generalizing s with
  | nil => rfl
  | cons c cells ih =>
      rw [List.foldl_cons, ih, enter]
      split <;> rfl

theorem length_enterAll (cells : List (Cell m n)) (s : State m n) :
    (cells.foldl (enter H) s).pq.length ≤ s.pq.length + cells.length := by
  induction cells generalizing s with
  | nil => exact Nat.le_refl _
  | cons c cells ih =>
      have hone : (enter H s c).pq.length ≤ s.pq.length + 1 := by
        unfold enter
        split
        · exact Nat.le_refl _
        · exact Nat.le_succ _
      have hrest := ih (enter H s c)
      rw [List.foldl_cons, List.length_cons]
      omega

theorem Inv.start (H : Cell m n → Int) : Inv H none
    ((rowMajor m n).foldl (enter H) { pq := [], vis := fun _ => false, ans := 0 }) := by
  have hmem : ∀ e, e ∈ ((rowMajor m n).foldl (enter H)
      { pq := [], vis := fun _ => false, ans := 0 }).pq ↔ ∃ c, OnBorder c ∧ e = (H c, c) := by
    intro e
    rw [mem_enterAll]
    simp [mem_rowMajor]
  have hvis : ∀ v, ((rowMajor m n).foldl (enter H)
      { pq := [], vis := fun _ => false, ans := 0 }).vis v = true ↔ OnBorder v := by
    intro v
    rw [vis_enterAll]
    simp [mem_rowMajor]
  refine ⟨?_, fun v hv => (hvis v).mpr hv, fun v hv => ?_, ?_⟩
  · intro e he
    obtain ⟨c, hc, rfl⟩ := (hmem e).mp he
    exact least_border hc
  · have hborder := (hvis v).mp hv
    exact ⟨H v, least_border hborder, .inr (.inl ((hmem _).mpr ⟨v, hborder, rfl⟩))⟩
  · rw [ans_enterAll, markedSum_zero]
    intro v hv
    rw [level_eq (least_border ((hvis v).mp hv)), sub_self]

/-! ## The result -/

theorem foldl_extend (path : List (Cell m n)) (h : Int) :
    some (path.foldl (graph H).extend h) = (h :: path.map H).max? := by
  rw [List.max?_cons', List.foldl_map]
  rfl

theorem max?_map_reverse (path : List (Cell m n)) (h : Int) :
    (path.reverse.map H).max? = some h ↔ (path.map H).max? = some h := by
  rw [List.map_reverse, List.max?_eq_some_iff, List.max?_eq_some_iff]
  simp only [List.mem_reverse]

theorem label_iff_path : (graph H).Label c h ↔
    ∃ b path, OnBorder b ∧ IsGridPath c b path ∧ (path.map H).max? = some h := by
  rw [LabelledGraph.label_iff]
  constructor
  · rintro ⟨b, _, path, ⟨hb, rfl⟩, hroute, rfl⟩
    refine ⟨b, (b :: path).reverse, hb, (isGridPath_cons.mpr hroute).reverse, ?_⟩
    rw [max?_map_reverse, foldl_extend, List.map_cons]
  · rintro ⟨b, path, hb, hpath, hmax⟩
    obtain ⟨rest, hrest⟩ := hpath.reverse.eq_cons
    refine ⟨b, H b, rest, ⟨hb, rfl⟩, isGridPath_cons.mp (hrest ▸ hpath.reverse), ?_⟩
    rw [← max?_map_reverse, hrest, List.map_cons, ← foldl_extend] at hmax
    exact Option.some.inj hmax

/-- The result is what fits between the heights and the levels, where the level of a cell
is the least that a path to the border rises to. -/
theorem trapRainWater_eq [NeZero m] [NeZero n] (H : Cell m n → Int) (fuel : Nat)
    (hfuel : 2 * (m * n) < fuel) : ∃ level : Cell m n → Int,
      (∀ c, IsLeast {h | ∃ b path, OnBorder b ∧ IsGridPath c b path ∧
        (path.map H).max? = some h} (level c)) ∧
      trapRainWater fuel H = some (∑ c, (level c - H c)) := by
  have hsize : size ((rowMajor m n).foldl (enter H)
      { pq := [], vis := fun _ => false, ans := 0 }) < fuel := by
    have hfew := length_enterAll (H := H) (rowMajor m n)
      { pq := [], vis := fun _ => false, ans := 0 }
    have hall := unmarked_le ((rowMajor m n).foldl (enter H)
      { pq := [], vis := fun _ => false, ans := 0 }).vis
    rw [length_rowMajor, List.length_nil] at hfew
    rw [Fintype.card_prod, Fintype.card_fin, Fintype.card_fin] at hall
    unfold size
    omega
  have hloop : ∃ ans, trapRainWater fuel H = some ans ∧
      (∀ c, (graph H).Least c (level H c)) ∧ ans = ∑ c, (level H c - H c) :=
    loop_total (Inv H none) size (fun _ => round_step) (Inv.start H) hsize
  obtain ⟨_, hrun, hleast, rfl⟩ := hloop
  refine ⟨level H, fun c => ?_, hrun⟩
  have hset : {h | (graph H).Label c h} = {h | ∃ b path, OnBorder b ∧ IsGridPath c b path ∧
      (path.map H).max? = some h} := Set.ext fun _ => label_iff_path
  rw [← hset]
  exact hleast c

/-- Two units of water in the middle. -/
theorem trapRainWater_eq_bowl : ∃ level : Cell 3 3 → Int,
    (∀ c, IsLeast {h | ∃ b path, OnBorder b ∧ IsGridPath c b path ∧
      (path.map fun c : Cell 3 3 => if c = (1, 1) then (1 : Int) else 3).max? = some h}
        (level c)) ∧
    trapRainWater 19 (fun c : Cell 3 3 => if c = (1, 1) then 1 else 3) =
      some (∑ c, (level c - if c = (1, 1) then 1 else 3)) :=
  trapRainWater_eq (fun c : Cell 3 3 => if c = (1, 1) then 1 else 3) 19 (by decide)

end TrapRainWater

end MoreCpp
