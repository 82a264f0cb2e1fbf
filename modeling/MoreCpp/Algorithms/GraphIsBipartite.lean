import MoreCpp.Library.Loop
import MoreCpp.Library.GraphSearch
import Mathlib.Combinatorics.SimpleGraph.Connectivity.Connected
import Mathlib.Data.List.FinRange

/-!
`graph_is_bipartite` of `data/bipartite.hpp`, on `n` vertices, with the list of what it
prints. `none` is the side -1, and a queue that `fuel` rounds do not empty.
-/

namespace MoreCpp

open Function Library Relation

namespace GraphIsBipartite

variable {n : Nat}

structure State (n : Nat) where
  side : Fin n → Option Bool
  q : List (Fin n)
  isBipartite : Bool

/-- A turn of the loop over `adj[x]`. -/
def visit (x : Fin n) (s : State n) (y : Fin n) : State n :=
  if s.side y = none then
    { s with side := update s.side y ((s.side x).map not), q := s.q ++ [y] }
  else { s with isBipartite := s.isBipartite && decide (s.side y ≠ s.side x) }

def round (adj : Fin n → List (Fin n)) (s : State n) : Option (State n ⊕ State n) :=
  match s.q with
  | [] => some (.inr s)
  | x :: q => some (.inl ((adj x).foldl (visit x) { s with q }))

/-- A turn of the loop over `st`, with `side` and the messages before and after. -/
def component (fuel : Nat) (adj : Fin n → List (Fin n)) :
    (Fin n → Option Bool) × List String → Fin n → Option ((Fin n → Option Bool) × List String)
  | (side, out), st =>
    if side st = none then do
      let s ← loop (round adj) fuel
        { side := update side st (some false), q := [st], isBipartite := true }
      let message :=
        if s.isBipartite then "this component is bipartite\n"
        else "this component is not bipartie\n"
      return (s.side, out ++ [message])
    else some (side, out)

def graphIsBipartite (fuel : Nat) (adj : Fin n → List (Fin n)) : Option (List String) :=
  ((List.finRange n).foldlM (component fuel adj) (fun _ => none, [])).map Prod.snd

/-! ## Components -/

def graph (adj : Fin n → List (Fin n)) : SimpleGraph (Fin n) :=
  SimpleGraph.fromRel fun x y => y ∈ adj x

abbrev Component (adj : Fin n → List (Fin n)) := (graph adj).ConnectedComponent

variable {adj : Fin n → List (Fin n)} {C : Component adj} {st u v w x y : Fin n}
  {rest : List (Fin n)} {old : Fin n → Option Bool} {s : State n}

def Proper (C : Component adj) (c : Fin n → Bool) : Prop := ∀ u ∈ C.supp, ∀ w ∈ adj u, c u ≠ c w

/-- The component has a proper colouring with two colours. -/
def Bipartite (C : Component adj) : Prop := ∃ c, Proper C c

theorem mem_supp_of_row (hu : u ∈ C.supp) (hw : w ∈ adj u) : w ∈ C.supp := by
  obtain rfl | hne := eq_or_ne u w
  · exact hu
  · have hadj : (graph adj).Adj u w := ⟨hne, .inl hw⟩
    rw [SimpleGraph.ConnectedComponent.mem_supp_iff] at hu ⊢
    rw [← hu]
    exact (SimpleGraph.ConnectedComponent.sound hadj.reachable).symm

/-- What a vertex hands on to its row is true in its component. -/
theorem component_induction (hsymm : ∀ x y, y ∈ adj x → x ∈ adj y) {P : Fin n → Prop}
    (hst : st ∈ C.supp) (hstart : P st)
    (hstep : ∀ u ∈ C.supp, P u → ∀ w ∈ adj u, P w) (hv : v ∈ C.supp) : P v := by
  rw [SimpleGraph.ConnectedComponent.mem_supp_iff] at hst hv
  have hreach : (graph adj).Reachable st v :=
    SimpleGraph.ConnectedComponent.exact (hst.trans hv.symm)
  rw [SimpleGraph.reachable_iff_reflTransGen] at hreach
  have hboth : v ∈ C.supp ∧ P v := by
    induction hreach with
    | refl => exact ⟨hst, hstart⟩
    | tail hpath hadj ih =>
        rename_i u w
        have hreach := SimpleGraph.ConnectedComponent.sound
          ((SimpleGraph.reachable_iff_reflTransGen _ _).mpr hpath)
        have hu := ih (hreach.symm.trans hst)
        have hw : w ∈ adj u := hadj.2.elim id (hsymm w u)
        exact ⟨hv, hstep u hu.1 hu.2 w hw⟩
  exact hboth.2

/-! ## The search of one component -/

/-- The search from `st`, in which `rest` is left of the row of `x`. -/
structure Inv (C : Component adj) (old : Fin n → Option Bool) (st x : Fin n)
    (rest : List (Fin n)) (s : State n) : Prop where
  outside : ∀ v, v ∉ C.supp → s.side v = old v
  start : s.side st ≠ none
  current : x ∈ C.supp ∧ s.side x ≠ none
  queued : ∀ v ∈ s.q, v ∈ C.supp ∧ s.side v ≠ none
  /-- Every proper colouring is the one in hand or its opposite. -/
  forced : ∀ c, Proper C c → ∀ v ∈ C.supp, ∀ b, s.side v = some b → b = (c v != c st)
  handled : ∀ v ∈ C.supp, s.side v ≠ none → v ∈ s.q ∨ ∀ w ∈ adj v, (v = x ∧ w ∈ rest) ∨
    s.side w ≠ none ∧ (s.isBipartite = true → s.side w ≠ s.side v)
  conflict : s.isBipartite = false → ¬ Bipartite C

namespace Inv

theorem colour (h : Inv C old st x (y :: rest) s) (hrow : y ∈ adj x) (hy : s.side y = none) :
    Inv C old st x rest
      { s with side := update s.side y ((s.side x).map not), q := s.q ++ [y] } := by
  obtain ⟨hx, hside⟩ := h.current
  obtain ⟨b, hb⟩ := Option.ne_none_iff_exists'.mp hside
  have hold : ∀ v, s.side v ≠ none → update s.side y ((s.side x).map not) v = s.side v := by
    intro v hv
    have hne : v ≠ y := by
      rintro rfl
      exact hv hy
    exact update_of_ne hne _ _
  have hkept : ∀ v, s.side v ≠ none → update s.side y ((s.side x).map not) v ≠ none :=
    fun v hv => (hold v hv).symm ▸ hv
  have hyC := mem_supp_of_row hx hrow
  constructor
  case outside =>
    intro v hv
    have hne : v ≠ y := fun heq => hv (heq ▸ hyC)
    exact (update_of_ne hne _ _).trans (h.outside v hv)
  case start => exact hkept st h.start
  case current => exact ⟨hx, hkept x hside⟩
  case queued =>
    intro v hv
    rw [List.mem_append, List.mem_singleton] at hv
    obtain hv | rfl := hv
    · exact ⟨(h.queued v hv).1, hkept v (h.queued v hv).2⟩
    · exact ⟨hyC, by simp [hb]⟩
  case forced =>
    intro c hc v hv b' hb'
    dsimp only at hb'
    obtain rfl | hne := eq_or_ne v y
    · have hx' := h.forced c hc x hx b hb
      have hdiffer := hc x hx v hrow
      have hflip : ∀ i j k : Bool, i ≠ j → (!(i != k)) = (j != k) := by decide
      rw [update_self, hb, hx', Option.map_some, Option.some_inj] at hb'
      rw [← hb']
      exact hflip _ _ _ hdiffer
    · rw [update_of_ne hne] at hb'
      exact h.forced c hc v hv b' hb'
  case handled =>
    intro v hv hcoloured
    obtain rfl | hne := eq_or_ne v y
    · exact .inl (by simp)
    · dsimp only at hcoloured ⊢
      rw [update_of_ne hne] at hcoloured ⊢
      refine (h.handled v hv hcoloured).imp (List.mem_append_left _) fun hrows w hw => ?_
      obtain ⟨rfl, hmem⟩ | ⟨hdone, hdiffer⟩ := hrows w hw
      · obtain rfl | hmem := List.mem_cons.mp hmem
        · refine .inr ⟨by simp [hb], fun _ => ?_⟩
          rw [update_self, hb]
          simp
        · exact .inl ⟨rfl, hmem⟩
      · rw [hold w hdone]
        exact .inr ⟨hdone, hdiffer⟩
  case conflict => exact h.conflict

theorem compare (h : Inv C old st x (y :: rest) s) (hrow : y ∈ adj x) (hy : s.side y ≠ none) :
    Inv C old st x rest
      { s with isBipartite := s.isBipartite && decide (s.side y ≠ s.side x) } where
  outside := h.outside
  start := h.start
  current := h.current
  queued := h.queued
  forced := h.forced
  handled v hv hcoloured := by
    refine (h.handled v hv hcoloured).imp_right fun hrows w hw => ?_
    obtain ⟨rfl, hmem⟩ | ⟨hdone, hdiffer⟩ := hrows w hw
    · obtain rfl | hmem := List.mem_cons.mp hmem
      · exact .inr ⟨hy, by simp⟩
      · exact .inl ⟨rfl, hmem⟩
    · exact .inr ⟨hdone, by simp +contextual [hdiffer]⟩
  conflict := by
    intro hfalse
    rw [Bool.and_eq_false_iff, decide_eq_false_iff_not, not_not] at hfalse
    obtain hfalse | hsame := hfalse
    · exact h.conflict hfalse
    · rintro ⟨c, hc⟩
      obtain ⟨hx, hside⟩ := h.current
      obtain ⟨b, hb⟩ := Option.ne_none_iff_exists'.mp hside
      have hx' := h.forced c hc x hx b hb
      have hy' := h.forced c hc y (mem_supp_of_row hx hrow) b (hsame.trans hb)
      have hsides : ∀ i j k : Bool, (i != k) = (j != k) → i = j := by decide
      exact hc x hx y hrow (hsides _ _ _ (hx'.symm.trans hy'))

end Inv

/-- The vertices without a side, and those in the queue. -/
def left (s : State n) : Nat := unmarked (fun v => (s.side v).isSome) + s.q.length

theorem isSome_update (side : Fin n → Option Bool) (y : Fin n) (b : Bool) :
    (fun v => (update side y (some b) v).isSome) = update (fun v => (side v).isSome) y true := by
  funext v
  obtain rfl | hne := eq_or_ne v y
  · simp
  · simp [hne]

theorem left_visit (hside : s.side x ≠ none) (y : Fin n) : left (visit x s y) = left s := by
  unfold visit
  split
  case isTrue hy =>
    obtain ⟨b, hb⟩ := Option.ne_none_iff_exists'.mp hside
    have hless : unmarked (Function.update (fun v => (s.side v).isSome) y true) + 1 =
        unmarked fun v => (s.side v).isSome := unmarked_mark (by simp [hy])
    unfold left
    dsimp only
    rw [hb, Option.map_some, isSome_update, List.length_append, List.length_singleton]
    omega
  case isFalse => rfl

theorem visit_spec (h : Inv C old st x (y :: rest) s) (hrow : y ∈ adj x) :
    Inv C old st x rest (visit x s y) ∧ left (visit x s y) = left s := by
  refine ⟨?_, left_visit h.current.2 y⟩
  unfold visit
  split
  case isTrue hy => exact h.colour hrow hy
  case isFalse hy => exact h.compare hrow hy

theorem row_spec (h : Inv C old st x rest s) (hrest : ∀ y ∈ rest, y ∈ adj x) :
    Inv C old st x [] (rest.foldl (visit x) s) ∧ left (rest.foldl (visit x) s) = left s := by
  induction rest generalizing s with
  | nil => exact ⟨h, rfl⟩
  | cons y rest ih =>
      obtain ⟨hinv, hleft⟩ := visit_spec h (hrest y List.mem_cons_self)
      obtain ⟨hinv', hleft'⟩ := ih hinv fun y hy => hrest y (List.mem_cons_of_mem _ hy)
      exact ⟨hinv', hleft'.trans hleft⟩

theorem Inv.pop {q : List (Fin n)} (h : Inv C old st u [] s) (hq : s.q = x :: q) :
    Inv C old st x (adj x) { s with q } where
  outside := h.outside
  start := h.start
  current := h.queued x (by simp [hq])
  queued v hv := h.queued v (by simp [hq, hv])
  forced := h.forced
  handled v hv hcoloured := by
    obtain hmem | hrows := h.handled v hv hcoloured
    · rw [hq] at hmem
      obtain rfl | hmem := List.mem_cons.mp hmem
      · exact .inr fun w hw => .inl ⟨rfl, hw⟩
      · exact .inl hmem
    · exact .inr fun w hw => .inr ((hrows w hw).resolve_left fun h => List.not_mem_nil h.2)
  conflict := h.conflict

/-- No vertex is in hand between two rounds. -/
theorem Inv.next (h : Inv C old st x [] s) (hst : st ∈ C.supp) : Inv C old st st [] s where
  outside := h.outside
  start := h.start
  current := ⟨hst, h.start⟩
  queued := h.queued
  forced := h.forced
  handled v hv hcoloured := (h.handled v hv hcoloured).imp_right fun hrows w hw =>
    .inr ((hrows w hw).resolve_left fun h => List.not_mem_nil h.2)
  conflict := h.conflict

/-- What is true of a row when the queue is empty. -/
theorem Inv.row (h : Inv C old st x [] s) (hq : s.q = []) (hv : v ∈ C.supp)
    (hcoloured : s.side v ≠ none) (hw : w ∈ adj v) :
    s.side w ≠ none ∧ (s.isBipartite = true → s.side w ≠ s.side v) := by
  obtain hmem | hrows := h.handled v hv hcoloured
  · rw [hq] at hmem
    exact absurd hmem List.not_mem_nil
  · exact (hrows w hw).resolve_left fun h => List.not_mem_nil h.2

/-- All of the component has a side when the queue is empty. -/
theorem Inv.coloured (h : Inv C old st x [] s) (hsymm : ∀ x y, y ∈ adj x → x ∈ adj y)
    (hst : st ∈ C.supp) (hq : s.q = []) (hv : v ∈ C.supp) : s.side v ≠ none := by
  apply component_induction hsymm (P := fun v => s.side v ≠ none) hst h.start ?_ hv
  exact fun u hu hcoloured w hw => (h.row hq hu hcoloured hw).1

theorem Inv.bipartite_iff (h : Inv C old st x [] s) (hsymm : ∀ x y, y ∈ adj x → x ∈ adj y)
    (hst : st ∈ C.supp) (hq : s.q = []) : s.isBipartite = true ↔ Bipartite C := by
  constructor
  · intro htrue
    refine ⟨fun v => (s.side v).getD false, fun u hu w hw heq => ?_⟩
    have hu' := h.coloured hsymm hst hq hu
    obtain ⟨hw', hdiffer⟩ := h.row hq hu hu' hw
    obtain ⟨b, hb⟩ := Option.ne_none_iff_exists'.mp hu'
    obtain ⟨b', hb'⟩ := Option.ne_none_iff_exists'.mp hw'
    apply hdiffer htrue
    dsimp only at heq
    rw [hb, hb'] at heq ⊢
    exact congrArg some heq.symm
  · intro hC
    by_contra hfalse
    exact h.conflict (Bool.eq_false_of_not_eq_true hfalse) hC

theorem inv_start (hst : st ∈ C.supp) (hnew : ∀ v ∈ C.supp, old v = none) :
    Inv C old st st []
      { side := update old st (some false), q := [st], isBipartite := true } where
  outside v hv := by
    have hne : v ≠ st := by
      rintro rfl
      exact hv hst
    exact update_of_ne hne _ _
  start := by simp
  current := ⟨hst, by simp⟩
  queued v hv := by
    obtain rfl := List.mem_singleton.mp hv
    exact ⟨hst, by simp⟩
  forced c _ v hv b hb := by
    dsimp only at hb
    obtain rfl | hne := eq_or_ne v st
    · rw [update_self] at hb
      rw [bne_self_eq_false]
      exact (Option.some.inj hb).symm
    · rw [update_of_ne hne, hnew v hv] at hb
      cases hb
  handled v hv hcoloured := by
    dsimp only at hcoloured
    obtain rfl | hne := eq_or_ne v st
    · exact .inl List.mem_cons_self
    · rw [update_of_ne hne] at hcoloured
      exact absurd (hnew v hv) hcoloured
  conflict h := by cases h

/-- A search comes to an end and tells whether its component has a colouring. -/
theorem search_spec {fuel : Nat} (hsymm : ∀ x y, y ∈ adj x → x ∈ adj y) (hst : st ∈ C.supp)
    (hnew : ∀ v ∈ C.supp, old v = none) (hfuel : n < fuel) :
    ∃ s, loop (round adj) fuel
        { side := update old st (some false), q := [st], isBipartite := true } = some s ∧
      (s.isBipartite = true ↔ Bipartite C) ∧ ∀ v, s.side v ≠ none ↔ old v ≠ none ∨ v ∈ C.supp := by
  apply loop_total (fun s => Inv C old st st [] s) left
  · intro s h
    unfold round
    cases hq : s.q with
    | nil =>
        left
        refine ⟨s, rfl, h.bipartite_iff hsymm hst hq, fun v => ?_⟩
        by_cases hv : v ∈ C.supp
        · exact iff_of_true (h.coloured hsymm hst hq hv) (.inr hv)
        · rw [h.outside v hv]
          exact (or_iff_left hv).symm
    | cons x q =>
        right
        obtain ⟨hinv, hleft⟩ := row_spec (h.pop hq) fun y hy => hy
        refine ⟨_, rfl, hinv.next hst, ?_⟩
        rw [hleft, left, left, hq, List.length_cons]
        dsimp only
        omega
  · exact inv_start hst hnew
  · have hless : unmarked (Function.update (fun v => (old v).isSome) st true) + 1 =
        unmarked fun v => (old v).isSome := unmarked_mark (by simp [hnew st hst])
    have hmost := unmarked_le fun v => (old v).isSome
    rw [Fintype.card_fin] at hmost
    rw [left, isSome_update, List.length_singleton]
    omega

/-! ## The messages -/

open Classical in
noncomputable def message (C : Component adj) : String :=
  if Bipartite C then "this component is bipartite\n" else "this component is not bipartie\n"

theorem message_eq {b : Bool} (h : b = true ↔ Bipartite C) : message C =
    if b then "this component is bipartite\n" else "this component is not bipartie\n" := by
  cases b with
  | true => exact if_pos (h.mp rfl)
  | false => exact if_neg fun hC => Bool.false_ne_true (h.mpr hC)

/-- A vertex of `C` is less than all of `D`. -/
def Before (C D : Component adj) : Prop := ∃ u ∈ C.supp, ∀ w ∈ D.supp, u < w

/-- The components of what is seen, in the order of their least vertices. -/
structure Listed (seen : List (Fin n)) (cs : List (Component adj)) : Prop where
  nodup : cs.Nodup
  mem_iff : ∀ C, C ∈ cs ↔ ∃ u ∈ seen, u ∈ C.supp
  ordered : cs.Pairwise Before

/-- All the components, in the order of their least vertices. -/
structure InOrder (cs : List (Component adj)) : Prop where
  nodup : cs.Nodup
  all : ∀ C, C ∈ cs
  ordered : cs.Pairwise Before

variable {seen : List (Fin n)} {cs : List (Component adj)}

theorem Listed.again (h : Listed seen cs) (hC : C ∈ cs) (hst : st ∈ C.supp) :
    Listed (seen ++ [st]) cs where
  nodup := h.nodup
  ordered := h.ordered
  mem_iff D := by
    rw [h.mem_iff]
    constructor
    · rintro ⟨u, hu, hD⟩
      exact ⟨u, List.mem_append_left _ hu, hD⟩
    · rintro ⟨u, hu, hD⟩
      rw [List.mem_append, List.mem_singleton] at hu
      obtain hu | rfl := hu
      · exact ⟨u, hu, hD⟩
      · obtain rfl : C = D := hst.symm.trans hD
        exact (h.mem_iff C).mp hC

theorem Listed.concat (h : Listed seen cs) (hC : C ∉ cs) (hst : st ∈ C.supp)
    (hbefore : ∀ u ∈ seen, ∀ w, w ∉ seen → u < w) : Listed (seen ++ [st]) (cs ++ [C]) where
  nodup := List.concat_eq_append ▸ h.nodup.concat hC
  ordered := by
    refine List.pairwise_append.mpr ⟨h.ordered, List.pairwise_singleton _ _, fun D hD E hE => ?_⟩
    obtain rfl := List.mem_singleton.mp hE
    obtain ⟨u, hu, huD⟩ := (h.mem_iff D).mp hD
    exact ⟨u, huD, fun w hw => hbefore u hu w fun hseen => hC ((h.mem_iff E).mpr ⟨w, hseen, hw⟩)⟩
  mem_iff D := by
    rw [List.mem_append, h.mem_iff, List.mem_singleton]
    constructor
    · rintro (⟨u, hu, hD⟩ | rfl)
      · exact ⟨u, List.mem_append_left _ hu, hD⟩
      · exact ⟨st, by simp, hst⟩
    · rintro ⟨u, hu, hD⟩
      rw [List.mem_append, List.mem_singleton] at hu
      obtain hu | rfl := hu
      · exact .inl ⟨u, hu, hD⟩
      · exact .inr (hD.symm.trans hst)

/-- What holds of the sides and the messages before a turn. -/
structure Printed (adj : Fin n → List (Fin n)) (seen : List (Fin n)) (side : Fin n → Option Bool)
    (out : List String) (cs : List (Component adj)) : Prop where
  listed : Listed seen cs
  side_iff : ∀ v, side v ≠ none ↔ (graph adj).connectedComponentMk v ∈ cs
  out_eq : out = cs.map message

theorem component_spec {fuel : Nat} {side : Fin n → Option Bool} {out : List String}
    (hsymm : ∀ x y, y ∈ adj x → x ∈ adj y) (hfuel : n < fuel) (h : Printed adj seen side out cs)
    (hbefore : ∀ u ∈ seen, ∀ w, w ∉ seen → u < w) (st : Fin n) :
    ∃ side' out' cs', component fuel adj (side, out) st = some (side', out') ∧
      Printed adj (seen ++ [st]) side' out' cs' := by
  have hst : st ∈ ((graph adj).connectedComponentMk st).supp := rfl
  unfold component
  dsimp only
  split
  case isTrue hnone =>
    have hC : (graph adj).connectedComponentMk st ∉ cs :=
      fun hmem => (h.side_iff st).mpr hmem hnone
    have hnew : ∀ v ∈ ((graph adj).connectedComponentMk st).supp, side v = none := by
      intro v hv
      by_contra hside
      exact hC (hv ▸ (h.side_iff v).mp hside)
    obtain ⟨s, hloop, hverdict, hsides⟩ := search_spec hsymm hst hnew hfuel
    rw [hloop]
    refine ⟨_, _, _, rfl, h.listed.concat hC hst hbefore, fun v => ?_, ?_⟩
    · rw [hsides, h.side_iff, List.mem_append, List.mem_singleton]
      rfl
    · rw [List.map_append, h.out_eq, List.map_singleton, message_eq hverdict]
  case isFalse hsome =>
    exact ⟨side, out, cs, rfl, h.listed.again ((h.side_iff st).mp hsome) hst, h.side_iff, h.out_eq⟩

theorem graphIsBipartite_eq (adj : Fin n → List (Fin n)) (fuel : Nat)
    (hsymm : ∀ x y, y ∈ adj x → x ∈ adj y) (hfuel : n < fuel) :
    ∃ cs : List (Component adj), InOrder cs ∧
      graphIsBipartite fuel adj = some (cs.map message) := by
  have hrun : ∃ p, (List.finRange n).foldlM (component fuel adj) (fun _ => none, []) = some p ∧
      ∃ cs, Printed adj (List.finRange n) p.1 p.2 cs := by
    apply foldlM_rule fun seen (p : (Fin n → Option Bool) × List String) =>
      ∃ cs, Printed adj seen p.1 p.2 cs
    · exact ⟨[], ⟨⟨.nil, by simp, .nil⟩, by simp, rfl⟩⟩
    · rintro seen st rest ⟨side, out⟩ hsplit ⟨cs, h⟩
      have hbefore : ∀ u ∈ seen, ∀ w, w ∉ seen → u < w := by
        intro u hu w hw
        have hsorted := List.pairwise_lt_finRange n
        have hmem := List.mem_finRange w
        rw [hsplit] at hsorted hmem
        exact (List.pairwise_append.mp hsorted).2.2 u hu w
          ((List.mem_append.mp hmem).resolve_left hw)
      obtain ⟨side', out', cs', hturn, h'⟩ := component_spec hsymm hfuel h hbefore st
      exact ⟨(side', out'), hturn, cs', h'⟩
  obtain ⟨⟨side, out⟩, hrun, cs, h⟩ := hrun
  refine ⟨cs, ⟨h.listed.nodup, fun C => ?_, h.listed.ordered⟩, ?_⟩
  · obtain ⟨v, rfl⟩ := C.exists_rep
    exact (h.listed.mem_iff _).mpr ⟨v, List.mem_finRange v, rfl⟩
  · rw [graphIsBipartite, hrun]
    exact congrArg some h.out_eq

/-- Two vertices with two edges between them, and one with an edge to itself. -/
theorem graphIsBipartite_eq_loop :
    ∃ cs : List (Component fun x : Fin 3 => if x = 0 then [1, 1] else if x = 1 then [0, 0] else [2]),
      InOrder cs ∧ graphIsBipartite 4
        (fun x : Fin 3 => if x = 0 then [1, 1] else if x = 1 then [0, 0] else [2]) =
          some (cs.map message) :=
  graphIsBipartite_eq _ 4 (by decide) (by decide)

end GraphIsBipartite

end MoreCpp
