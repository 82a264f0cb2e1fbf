import Mathlib.Data.List.Chain
import Mathlib.Data.List.Induction
import Mathlib.Logic.Relation
import Mathlib.Order.Bounds.Basic
import Mathlib.Order.Monotone.Defs

/-!
Least labels in a graph. A route begins at a start with a label, and each edge on the way
turns the label into one that is at least as large. A search settles vertices with their
least labels, and has a frontier of labels that it has still to go on from.
-/

namespace MoreCpp.Library

structure LabelledGraph (V E L : Type*) [LinearOrder L] where
  Start : V → L → Prop
  Joins : V → E → V → Prop
  extend : L → E → L
  mono : ∀ e, Monotone (extend · e)
  le_extend : ∀ c e, c ≤ extend c e

/-- A route along the edges `es`. -/
inductive Route {V E : Type*} (Joins : V → E → V → Prop) (s : V) : List E → V → Prop
  | nil : Route Joins s [] s
  | concat {es v e u} : Route Joins s es v → Joins v e u → Route Joins s (es ++ [e]) u

section Routes

variable {V E : Type*} {Joins : V → E → V → Prop} {s u v : V} {e : E} {es : List E}

theorem route_nil : Route Joins s [] v ↔ v = s := by
  constructor
  · intro h
    generalize hes : ([] : List E) = es at h
    cases h with
    | nil => rfl
    | concat => exact absurd hes.symm (List.append_ne_nil_of_right_ne_nil _ (List.cons_ne_nil _ _))
  · rintro rfl
    exact .nil

theorem route_concat : Route Joins s (es ++ [e]) u ↔ ∃ v, Route Joins s es v ∧ Joins v e u := by
  constructor
  · intro h
    generalize hes : es ++ [e] = es' at h
    cases h with
    | nil => exact absurd hes (List.append_ne_nil_of_right_ne_nil _ (List.cons_ne_nil _ _))
    | concat hroute hjoins =>
        obtain ⟨rfl, hlast⟩ := List.append_inj' hes rfl
        obtain rfl := List.singleton_inj.mp hlast
        exact ⟨_, hroute, hjoins⟩
  · rintro ⟨v, hroute, hjoins⟩
    exact hroute.concat hjoins

/-- The edges on routes to `t` are those from which the way leads on to `t`. -/
theorem exists_route_mem {t : V} : (∃ es, Route Joins s es t ∧ e ∈ es) ↔
    ∃ es v u, Route Joins s es v ∧ Joins v e u ∧
      Relation.ReflTransGen (fun v u => ∃ e, Joins v e u) u t := by
  constructor
  · rintro ⟨es, hroute, he⟩
    induction hroute with
    | nil => exact absurd he List.not_mem_nil
    | @concat es v e' u hroute hjoins ih =>
        rcases List.mem_append.mp he with he | he
        · obtain ⟨es', v', u', hroute', hjoins', hway⟩ := ih he
          exact ⟨es', v', u', hroute', hjoins', hway.tail ⟨e', hjoins⟩⟩
        · obtain rfl := List.mem_singleton.mp he
          exact ⟨es, v, u, hroute, hjoins, .refl⟩
  · rintro ⟨es, v, u, hroute, hjoins, hway⟩
    induction hway with
    | refl => exact ⟨es ++ [e], hroute.concat hjoins, List.mem_concat_self⟩
    | tail _ hlink ih =>
        obtain ⟨es', hroute', he⟩ := ih
        obtain ⟨e', hjoins'⟩ := hlink
        exact ⟨es' ++ [e'], hroute'.concat hjoins', List.mem_append_left _ he⟩

/-- A route whose edges are the vertices that it comes to. -/
theorem route_iff_isChain {adj : V → V → Prop} {path : List V} :
    Route (fun v e u => adj v e ∧ u = e) s path v ↔
      (s :: path).IsChain adj ∧ (s :: path).getLast? = some v := by
  induction path using List.reverseRecOn generalizing v with
  | nil =>
      rw [route_nil, List.getLast?_singleton, Option.some_inj, eq_comm]
      exact (and_iff_right (List.isChain_singleton s)).symm
  | append_singleton path e ih =>
      rw [route_concat, ← List.cons_append, List.getLast?_concat, Option.some_inj,
        List.isChain_append]
      constructor
      · rintro ⟨w, hroute, hadj, rfl⟩
        obtain ⟨hchain, hlast⟩ := ih.mp hroute
        refine ⟨⟨hchain, List.isChain_singleton _, fun x hx y hy => ?_⟩, rfl⟩
        rw [hlast] at hx
        obtain rfl := Option.some.inj hx
        obtain rfl := Option.some.inj hy
        exact hadj
      · rintro ⟨⟨hchain, -, hlink⟩, rfl⟩
        obtain ⟨w, hw⟩ := Option.isSome_iff_exists.mp
          (List.getLast?_isSome.mpr (List.cons_ne_nil s path))
        exact ⟨w, ih.mpr ⟨hchain, hw⟩, hlink w hw e rfl, rfl⟩

end Routes

namespace LabelledGraph

variable {V E L : Type*} [LinearOrder L] (G : LabelledGraph V E L)

/-- The labels with which routes come to a vertex. -/
inductive Label : V → L → Prop
  | start {s c} : G.Start s c → Label s c
  | step {v c e u} : Label v c → G.Joins v e u → Label u (G.extend c e)

def Least (v : V) (c : L) : Prop := IsLeast {c | G.Label v c} c

variable {G} {v u s : V} {e : E} {c c' c₀ : L} {es : List E}

theorem Label.of_route (hs : G.Start s c₀) (h : Route G.Joins s es v) :
    G.Label v (es.foldl G.extend c₀) := by
  induction h with
  | nil => exact .start hs
  | concat _ hjoins ih =>
      rw [List.foldl_append]
      exact .step ih hjoins

theorem label_iff : G.Label v c ↔
    ∃ s c₀ es, G.Start s c₀ ∧ Route G.Joins s es v ∧ es.foldl G.extend c₀ = c := by
  constructor
  · intro h
    induction h with
    | start hs => exact ⟨_, _, [], hs, .nil, rfl⟩
    | step _ hjoins ih =>
        obtain ⟨s, c₀, es, hs, hroute, rfl⟩ := ih
        refine ⟨s, c₀, _, hs, hroute.concat hjoins, ?_⟩
        rw [List.foldl_append]
        rfl
  · rintro ⟨s, c₀, es, hs, hroute, rfl⟩
    exact .of_route hs hroute

theorem Least.label (h : G.Least v c) : G.Label v c := h.1

theorem Least.le (h : G.Least v c) (hlabel : G.Label v c') : c ≤ c' := h.2 hlabel

theorem Least.eq (h : G.Least v c) (h' : G.Least v c') : c = c' := IsLeast.unique h h'

/-! ## Searches -/

variable (G) in
/-- All starts, and all that is one edge from a settled vertex, is settled or on the
frontier, with no larger label. -/
structure Covered (Settled Frontier : V → L → Prop) : Prop where
  start : ∀ s c, G.Start s c → ∃ c' ≤ c, Settled s c' ∨ Frontier s c'
  step : ∀ v c e u, Settled v c → G.Joins v e u → ∃ c' ≤ G.extend c e, Settled u c' ∨ Frontier u c'

namespace Covered

variable {Settled Settled' Frontier Frontier' : V → L → Prop}

/-- A vertex that is not settled with a label as small is still to come behind the frontier. -/
theorem reaches (h : G.Covered Settled Frontier) (hlabel : G.Label v c) :
    (∃ c' ≤ c, Settled v c') ∨ ∃ x c', Frontier x c' ∧ c' ≤ c := by
  have hsplit : ∀ {v c}, (∃ c' ≤ c, Settled v c' ∨ Frontier v c') →
      (∃ c' ≤ c, Settled v c') ∨ ∃ x c', Frontier x c' ∧ c' ≤ c := by
    rintro v c ⟨c', hle, hsettled | hfrontier⟩
    · exact .inl ⟨c', hle, hsettled⟩
    · exact .inr ⟨v, c', hfrontier, hle⟩
  induction hlabel with
  | start hs => exact hsplit (h.start _ _ hs)
  | step _ hjoins ih =>
      rcases ih with ⟨c', hle, hsettled⟩ | ⟨x, c', hfrontier, hle⟩
      · obtain ⟨c'', hle', hnext⟩ := h.step _ _ _ _ hsettled hjoins
        exact hsplit ⟨c'', hle'.trans (G.mono _ hle), hnext⟩
      · exact .inr ⟨x, c', hfrontier, hle.trans (G.le_extend _ _)⟩

/-- A search goes on: what was reached still is, and newly settled vertices hand on their
labels. -/
theorem advance (h : G.Covered Settled Frontier)
    (hkeep : ∀ v c, Settled v c ∨ Frontier v c → ∃ c' ≤ c, Settled' v c' ∨ Frontier' v c')
    (hnew : ∀ v c, Settled' v c → Settled v c ∨
      ∀ e u, G.Joins v e u → ∃ c' ≤ G.extend c e, Settled' u c' ∨ Frontier' u c') :
    G.Covered Settled' Frontier' := by
  have hstill : ∀ {v c}, (∃ c' ≤ c, Settled v c' ∨ Frontier v c') →
      ∃ c' ≤ c, Settled' v c' ∨ Frontier' v c' := by
    rintro v c ⟨c', hle, hreached⟩
    obtain ⟨c'', hle', hreached'⟩ := hkeep v c' hreached
    exact ⟨c'', hle'.trans hle, hreached'⟩
  refine ⟨fun s c hs => hstill (h.start s c hs), fun v c e u hsettled hjoins => ?_⟩
  rcases hnew v c hsettled with hold | hnext
  · exact hstill (h.step v c e u hold hjoins)
  · exact hnext e u hjoins

/-- A label that is on the frontier and not above any other there is least, unless the
vertex is settled. -/
theorem least (h : G.Covered Settled Frontier) (hlabel : G.Label v c)
    (hmin : ∀ x c', Frontier x c' → c ≤ c') (hunsettled : ∀ c', ¬ Settled v c') :
    G.Least v c := by
  refine ⟨hlabel, fun c' hlabel' => ?_⟩
  rcases h.reaches hlabel' with ⟨c'', -, hsettled⟩ | ⟨x, c'', hfrontier, hle⟩
  · exact absurd hsettled (hunsettled c'')
  · exact (hmin x c'' hfrontier).trans hle

end Covered

end LabelledGraph

end MoreCpp.Library
