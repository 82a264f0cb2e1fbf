import Mathlib.Data.List.Chain
import Mathlib.Data.List.Nodup
import Mathlib.Logic.Function.Basic

/-!
Cells that link to each other: segments of a singly linked list, and rings of a doubly linked
one.
-/

namespace MoreCpp.Library

/-! ## Segments

Singly linked segments. `link a` is the value in the cell at `a` and the
address of the next cell, where there is a cell with a next one.
-/

section LinkedSegment

variable {Addr V : Type*}

/-- Following `link` from `a` meets exactly `cells` and then stands at `z`. -/
def Segment (link : Addr → Option (V × Addr)) : Addr → List (Addr × V) → Addr → Prop
  | a, [], z => a = z
  | a, cell :: rest, z => a = cell.1 ∧ ∃ next, link a = some (cell.2, next) ∧
      Segment link next rest z

namespace Segment

variable {link link' : Addr → Option (V × Addr)} {a y z : Addr} {cells : List (Addr × V)}

theorem nil (link : Addr → Option (V × Addr)) (a : Addr) : Segment link a [] a := rfl

/-- Cells outside the segment do not matter. -/
theorem frame (h : Segment link a cells z)
    (hsame : ∀ cell ∈ cells, link' cell.1 = link cell.1) : Segment link' a cells z := by
  induction cells generalizing a with
  | nil => exact h
  | cons cell rest ih =>
      obtain ⟨rfl, next, hlink, hrest⟩ := h
      refine ⟨rfl, next, (hsame cell (by simp)).trans hlink, ?_⟩
      exact ih hrest fun c hc => hsame c (by simp [hc])

/-- The segment grows by the cell it stands at. -/
theorem snoc (h : Segment link a cells z) {value : V} (hlink : link z = some (value, y)) :
    Segment link a (cells ++ [(z, value)]) y := by
  induction cells generalizing a with
  | nil =>
      obtain rfl : a = z := h
      exact ⟨rfl, y, hlink, rfl⟩
  | cons cell rest ih =>
      obtain ⟨rfl, next, hcell, hrest⟩ := h
      exact ⟨rfl, next, hcell, ih hrest⟩

theorem link_of_mem (h : Segment link a cells z) {cell : Addr × V} (hcell : cell ∈ cells) :
    ∃ next, link cell.1 = some (cell.2, next) := by
  induction cells generalizing a with
  | nil => simp at hcell
  | cons c rest ih =>
      obtain ⟨rfl, next, hlink, hrest⟩ := h
      rcases List.mem_cons.mp hcell with rfl | hmem
      · exact ⟨next, hlink⟩
      · exact ih hrest hmem

/-- A segment without repetition is empty exactly when it starts at its end. -/
theorem start_eq_end_iff (h : Segment link a cells z)
    (hnot : z ∉ cells.map Prod.fst) : a = z ↔ cells = [] := by
  cases cells with
  | nil => exact ⟨fun _ => rfl, fun _ => h⟩
  | cons cell rest =>
      obtain ⟨rfl, _⟩ := h
      constructor
      · rintro rfl
        simp at hnot
      · simp

end Segment

end LinkedSegment

/-! ## Rings

Doubly linked rings through a sentinel. `next a` and `prev a` are what the links
at `a` hold, where there are any. Around the ring each is the inverse of the other.
-/

section LinkedRing

variable {Addr : Type*}

/-- `b` comes right after `a`, both ways. -/
def Linked (next prev : Addr → Option Addr) (a b : Addr) : Prop :=
  next a = some b ∧ prev b = some a

/-- From the sentinel `s` through `nodes` and back to it. -/
structure Ring (next prev : Addr → Option Addr) (s : Addr) (nodes : List Addr) : Prop where
  nodup : (s :: nodes).Nodup
  chain : (s :: (nodes ++ [s])).IsChain (Linked next prev)

/-- The elements met by following links from `a` until `stop`, unless the links
end or `fuel` steps do not lead there. -/
def walk [DecidableEq Addr] (next : Addr → Option Addr) (stop : Addr) :
    Nat → Addr → Option (List Addr)
  | 0, _ => none
  | fuel + 1, a =>
      if a = stop then some []
      else (next a).bind fun b => (walk next stop fuel b).map (a :: ·)

variable {next prev next' prev' : Addr → Option Addr} {s t x : Addr} {nodes pre post : List Addr}

/-- A walk does not follow the link at its stop. -/
theorem walk_congr [DecidableEq Addr] (h : ∀ a, a ≠ s → next' a = next a) (fuel : Nat) (a : Addr) :
    walk next' s fuel a = walk next s fuel a := by
  induction fuel generalizing a with
  | zero => rfl
  | succ fuel ih =>
      simp only [walk]
      split
      · rfl
      · rename_i hne
        rw [h a hne]
        simp only [ih]

/-- Only links between neighbours matter to a chain. -/
theorem chain_congr {l : List Addr} (h : l.IsChain (Linked next prev))
    (hnext : ∀ a ∈ l.dropLast, next' a = next a) (hprev : ∀ b ∈ l.tail, prev' b = prev b) :
    l.IsChain (Linked next' prev') := by
  induction l with
  | nil => exact .nil
  | cons a rest ih =>
      cases rest with
      | nil => exact .singleton a
      | cons b rest =>
          rw [List.isChain_cons_cons] at h ⊢
          obtain ⟨⟨hab, hba⟩, hrest⟩ := h
          refine ⟨⟨(hnext a (by simp)).trans hab, (hprev b (by simp)).trans hba⟩, ih hrest ?_ ?_⟩
          · intro c hc
            exact hnext c (by rw [List.dropLast_cons_of_ne_nil (by simp)]; exact .tail _ hc)
          · intro c hc
            exact hprev c (.tail _ hc)

/-- The sentinel and what follows it end with the last of them, and what
precedes the sentinel begins with the first. -/
theorem exists_eq_concat_last (s : Addr) (pre : List Addr) :
    ∃ init, s :: pre = init ++ [pre.getLast?.getD s] :=
  ⟨(s :: pre).dropLast, (List.dropLast_append_getLast? _ (by rw [List.getLast?_cons]; rfl)).symm⟩

theorem exists_eq_first_cons (s : Addr) (post : List Addr) :
    ∃ rest, post ++ [s] = post.head?.getD s :: rest := by
  cases post with
  | nil => exact ⟨[], rfl⟩
  | cons b rest => exact ⟨rest ++ [s], rfl⟩

theorem last_mem (s : Addr) (pre post : List Addr) :
    pre.getLast?.getD s ∈ s :: (pre ++ post) := by
  cases hlast : pre.getLast? with
  | none => exact .head _
  | some a => exact .tail _ (List.mem_append_left _ (List.mem_of_getLast? hlast))

theorem first_mem (s : Addr) (pre post : List Addr) :
    post.head?.getD s ∈ s :: (pre ++ post) := by
  cases hfirst : post.head? with
  | none => exact .head _
  | some a => exact .tail _ (List.mem_append_right _ (List.mem_of_head? hfirst))

theorem last_mem' (s : Addr) (nodes : List Addr) : nodes.getLast?.getD s ∈ s :: nodes := by
  have hmem := last_mem s nodes []
  rwa [List.append_nil] at hmem

theorem first_mem' (s : Addr) (nodes : List Addr) : nodes.head?.getD s ∈ s :: nodes :=
  first_mem s [] nodes

/-- A ring in pieces: up to the last before the middle, the middle with both
its neighbours, and from the first after it. -/
theorem ring_pieces_iff (pre mid post : List Addr) :
    Ring next prev s (pre ++ mid ++ post) ↔ (s :: (pre ++ mid ++ post)).Nodup ∧
      (s :: pre).IsChain (Linked next prev) ∧
      (pre.getLast?.getD s :: (mid ++ [post.head?.getD s])).IsChain (Linked next prev) ∧
      (post ++ [s]).IsChain (Linked next prev) := by
  obtain ⟨init, hinit⟩ := exists_eq_concat_last s pre
  obtain ⟨rest, hrest⟩ := exists_eq_first_cons s post
  have hpieces : s :: (pre ++ mid ++ post ++ [s]) =
      init ++ pre.getLast?.getD s :: (mid ++ post.head?.getD s :: rest) := by
    calc s :: (pre ++ mid ++ post ++ [s]) = (s :: pre) ++ (mid ++ (post ++ [s])) := by simp
      _ = init ++ pre.getLast?.getD s :: (mid ++ post.head?.getD s :: rest) := by
        rw [hinit, hrest, List.append_assoc, List.singleton_append]
  have hchain : (s :: (pre ++ mid ++ post ++ [s])).IsChain (Linked next prev) ↔
      (s :: pre).IsChain (Linked next prev) ∧
      (pre.getLast?.getD s :: (mid ++ [post.head?.getD s])).IsChain (Linked next prev) ∧
      (post ++ [s]).IsChain (Linked next prev) := by
    rw [hpieces, hinit, hrest, List.isChain_split, List.isChain_cons_split]
  constructor
  · rintro ⟨hnodup, h⟩
    exact ⟨hnodup, hchain.mp h⟩
  · rintro ⟨hnodup, h⟩
    exact ⟨hnodup, hchain.mpr h⟩

namespace Ring

theorem nil (hnext : next s = some s) (hprev : prev s = some s) : Ring next prev s [] where
  nodup := List.nodup_singleton s
  chain := .cons_cons ⟨hnext, hprev⟩ (.singleton s)

/-- Links outside the ring do not matter. -/
theorem frame (h : Ring next prev s nodes) (hnext : ∀ a ∈ s :: nodes, next' a = next a)
    (hprev : ∀ a ∈ s :: nodes, prev' a = prev a) : Ring next' prev' s nodes where
  nodup := h.nodup
  chain := by
    refine chain_congr h.chain (fun a ha => hnext a ?_) fun a ha => hprev a ?_
    · rwa [← List.cons_append, List.dropLast_concat] at ha
    · rw [List.tail_cons, List.mem_append, List.mem_singleton] at ha
      exact ha.elim (.tail _) fun heq => heq ▸ .head _

/-- The same ring, the other way round. -/
theorem reverse (h : Ring next prev s nodes) : Ring prev next s nodes.reverse where
  nodup := by
    have hnodup := h.nodup
    rw [List.nodup_cons] at hnodup ⊢
    rw [List.mem_reverse, List.nodup_reverse]
    exact hnodup
  chain := by
    have hflip : (s :: (nodes ++ [s])).reverse = s :: (nodes.reverse ++ [s]) := by simp
    rw [← hflip, List.isChain_reverse]
    exact h.chain.imp fun a b hab => ⟨hab.2, hab.1⟩

/-- Where a ring is cut there are two neighbours. -/
theorem linked (h : Ring next prev s (pre ++ post)) :
    Linked next prev (pre.getLast?.getD s) (post.head?.getD s) := by
  rw [← List.append_nil pre] at h
  exact List.isChain_pair.mp ((ring_pieces_iff pre [] post).mp h).2.2.1

theorem next_sentinel (h : Ring next prev s nodes) : next s = some (nodes.head?.getD s) := by
  have hlinked : Linked next prev s (nodes.head?.getD s) :=
    Ring.linked (show Ring next prev s ([] ++ nodes) from h)
  exact hlinked.1

theorem prev_sentinel (h : Ring next prev s nodes) : prev s = some (nodes.getLast?.getD s) := by
  have hlinked : Linked next prev (nodes.getLast?.getD s) s :=
    Ring.linked (show Ring next prev s (nodes ++ []) by rwa [List.append_nil])
  exact hlinked.2

/-- The neighbours of an element. -/
theorem links_of_mem (h : Ring next prev s (pre ++ x :: post)) :
    prev x = some (pre.getLast?.getD s) ∧ next x = some (post.head?.getD s) := by
  rw [← List.singleton_append, ← List.append_assoc] at h
  have hmiddle := ((ring_pieces_iff pre [x] post).mp h).2.2.1
  rw [List.singleton_append, List.isChain_cons_cons, List.isChain_pair] at hmiddle
  exact ⟨hmiddle.1.2, hmiddle.2.1⟩

theorem isSome (h : Ring next prev s nodes) {a : Addr} (ha : a ∈ s :: nodes) :
    (next a).isSome ∧ (prev a).isSome := by
  rcases List.mem_cons.mp ha with rfl | hmem
  · exact ⟨by rw [h.next_sentinel]; rfl, by rw [h.prev_sentinel]; rfl⟩
  · obtain ⟨pre, post, rfl⟩ := List.append_of_mem hmem
    obtain ⟨hprev, hnext⟩ := h.links_of_mem
    exact ⟨by rw [hnext]; rfl, by rw [hprev]; rfl⟩

/-- Every element has a successor. -/
theorem exists_linked (h : Ring next prev s nodes) {a : Addr} (ha : a ∈ s :: nodes) :
    ∃ b, Linked next prev a b := by
  rcases List.mem_cons.mp ha with rfl | hmem
  · exact ⟨_, Ring.linked (show Ring next prev a ([] ++ nodes) from h)⟩
  · obtain ⟨pre, post, rfl⟩ := List.append_of_mem hmem
    rw [← List.singleton_append, ← List.append_assoc] at h
    have hlinked := h.linked
    rw [List.getLast?_concat, Option.getD_some] at hlinked
    exact ⟨_, hlinked⟩

/-- The two links are each other's inverse. -/
theorem next_iff_prev (h : Ring next prev s nodes) {a b : Addr} (ha : a ∈ s :: nodes)
    (hb : b ∈ s :: nodes) : next a = some b ↔ prev b = some a := by
  have hb' : b ∈ s :: nodes.reverse := by
    rwa [List.mem_cons, List.mem_reverse, ← List.mem_cons]
  obtain ⟨after, hafter⟩ := h.exists_linked ha
  obtain ⟨before, hbefore⟩ := h.reverse.exists_linked hb'
  constructor
  · intro hnext
    obtain rfl := Option.some.inj (hafter.1.symm.trans hnext)
    exact hafter.2
  · intro hprev
    obtain rfl := Option.some.inj (hbefore.1.symm.trans hprev)
    exact hbefore.2

/-- Exchanging the middle of a ring, where only its neighbours' links to it change. -/
theorem splice {old new : List Addr} (h : Ring next prev s (pre ++ old ++ post))
    (hnodup : (s :: (pre ++ new ++ post)).Nodup)
    (hmiddle : (pre.getLast?.getD s :: (new ++ [post.head?.getD s])).IsChain (Linked next' prev'))
    (hnext : ∀ a ∈ s :: (pre ++ post), a ≠ pre.getLast?.getD s → next' a = next a)
    (hprev : ∀ b ∈ s :: (pre ++ post), b ≠ post.head?.getD s → prev' b = prev b) :
    Ring next' prev' s (pre ++ new ++ post) := by
  obtain ⟨-, hbefore, -, hafter⟩ := (ring_pieces_iff pre old post).mp h
  have hends : (s :: (pre ++ post)).Nodup := by
    refine hnodup.sublist (.cons_cons s ?_)
    rw [List.append_assoc]
    exact List.sublist_append_right .. |>.append_left pre
  obtain ⟨init, hinit⟩ := exists_eq_concat_last s pre
  obtain ⟨rest, hrest⟩ := exists_eq_first_cons s post
  have hpre : (init ++ [pre.getLast?.getD s]).Nodup :=
    hinit ▸ hends.sublist (List.sublist_append_left (s :: pre) post)
  have hpost : (post.head?.getD s :: rest).Nodup := by
    rw [← hrest, List.nodup_append_comm]
    exact hends.sublist (.cons_cons s (List.sublist_append_right pre post))
  have hlast : pre.getLast?.getD s ∈ s :: pre := by
    rw [hinit]
    exact List.mem_append_right _ (.head _)
  have hfirst : post.head?.getD s ∈ post ++ [s] := by
    rw [hrest]
    exact .head _
  have hapart : ∀ a ∈ s :: pre, a ∉ post := by
    intro a ha hpost
    have hparts : ((s :: pre) ++ post).Nodup := hends
    exact List.disjoint_of_nodup_append hparts ha hpost
  refine (ring_pieces_iff pre new post).mpr ⟨hnodup, ?_, hmiddle, ?_⟩
  · refine chain_congr hbefore (fun a ha => ?_) fun b hb => ?_
    · rw [hinit, List.dropLast_concat] at ha
      have hmem : a ∈ s :: pre := hinit ▸ List.mem_append_left _ ha
      apply hnext a (show a ∈ (s :: pre) ++ post from List.mem_append_left _ hmem)
      rintro rfl
      exact List.disjoint_of_nodup_append hpre ha (.head _)
    · rw [List.tail_cons] at hb
      apply hprev b (.tail _ (List.mem_append_left _ hb))
      rintro rfl
      rcases List.mem_append.mp hfirst with hmem | hs
      · exact hapart _ (.tail _ hb) hmem
      · have hs' := List.mem_singleton.mp hs
        exact (List.nodup_cons.mp hends).1 (List.mem_append_left _ (hs' ▸ hb))
  · refine chain_congr hafter (fun a ha => ?_) fun b hb => ?_
    · rw [List.dropLast_concat] at ha
      apply hnext a (.tail _ (List.mem_append_right _ ha))
      rintro rfl
      exact hapart _ hlast ha
    · rw [hrest, List.tail_cons] at hb
      have hmem : b ∈ post ++ [s] := hrest ▸ .tail _ hb
      apply hprev b
      · rcases List.mem_append.mp hmem with hpost | hs
        · exact .tail _ (List.mem_append_right _ hpost)
        · exact List.mem_singleton.mp hs ▸ .head _
      · rintro rfl
        exact (List.nodup_cons.mp hpost).1 hb

/-- A new element between two neighbours. -/
theorem insert (h : Ring next prev s (pre ++ post)) (hx : x ∉ s :: (pre ++ post))
    (hbefore : Linked next' prev' (pre.getLast?.getD s) x)
    (hafter : Linked next' prev' x (post.head?.getD s))
    (hnext : ∀ a ∈ s :: (pre ++ post), a ≠ pre.getLast?.getD s → next' a = next a)
    (hprev : ∀ b ∈ s :: (pre ++ post), b ≠ post.head?.getD s → prev' b = prev b) :
    Ring next' prev' s (pre ++ x :: post) := by
  have hmiddle : (pre.getLast?.getD s :: ([x] ++ [post.head?.getD s])).IsChain
      (Linked next' prev') := .cons_cons hbefore (.cons_cons hafter (.singleton _))
  have hcut : Ring next prev s (pre ++ [] ++ post) := by rwa [List.append_nil]
  have hnodup : (s :: (pre ++ [x] ++ post)).Nodup := by
    rw [List.append_assoc, List.singleton_append, ← List.cons_append, List.nodup_middle]
    exact List.nodup_cons.mpr ⟨hx, h.nodup⟩
  have hring := hcut.splice hnodup hmiddle hnext hprev
  rwa [List.append_assoc, List.singleton_append] at hring

/-- The neighbours of some elements are linked past them. -/
theorem remove {mid : List Addr} (h : Ring next prev s (pre ++ mid ++ post))
    (hlinked : Linked next' prev' (pre.getLast?.getD s) (post.head?.getD s))
    (hnext : ∀ a ∈ s :: (pre ++ post), a ≠ pre.getLast?.getD s → next' a = next a)
    (hprev : ∀ b ∈ s :: (pre ++ post), b ≠ post.head?.getD s → prev' b = prev b) :
    Ring next' prev' s (pre ++ post) := by
  have hnodup : (s :: (pre ++ [] ++ post)).Nodup := by
    rw [List.append_nil]
    exact h.nodup.sublist (.cons_cons s ((List.sublist_append_left pre mid).append_right post))
  have hring := h.splice hnodup (.cons_cons hlinked (.singleton _)) hnext hprev
  rwa [List.append_nil] at hring

/-- Following the links from the first element meets exactly the elements. -/
theorem walk_eq [DecidableEq Addr] (h : Ring next prev s nodes) {fuel : Nat}
    (hfuel : nodes.length < fuel) :
    walk next s fuel (nodes.head?.getD s) = some nodes := by
  have hnot := (List.nodup_cons.mp h.nodup).1
  have hchain := (List.isChain_cons.mp h.chain).2
  clear h
  induction nodes generalizing fuel with
  | nil =>
      obtain ⟨fuel, rfl⟩ := Nat.exists_eq_add_of_lt hfuel
      simp [walk]
  | cons a rest ih =>
      obtain ⟨fuel, rfl⟩ := Nat.exists_eq_add_of_lt hfuel
      have hne : a ≠ s := fun heq => hnot (heq ▸ .head _)
      have hstep : next a = some (rest.head?.getD s) := by
        obtain ⟨tail, htail⟩ := exists_eq_first_cons s rest
        rw [List.cons_append, htail, List.isChain_cons_cons] at hchain
        exact hchain.1.1
      have henough : rest.length < (a :: rest).length + fuel := by
        rw [List.length_cons]
        omega
      have hrest := ih henough (fun hmem => hnot (.tail _ hmem)) (List.isChain_cons.mp hchain).2
      simp only [List.head?_cons, Option.getD_some]
      rw [walk, if_neg hne, hstep, Option.bind_some, hrest]
      rfl

end Ring

/-- The nodes are linked among themselves and the sentinel points at both ends,
which need not point back at it. -/
structure Loose (next prev : Addr → Option Addr) (s : Addr) (nodes : List Addr) : Prop where
  nodup : (s :: nodes).Nodup
  chain : nodes.IsChain (Linked next prev)
  next_sentinel : ∃ a, next s = some a ∧ ∀ b ∈ nodes.head?, a = b
  prev_sentinel : ∃ a, prev s = some a ∧ ∀ b ∈ nodes.getLast?, a = b

namespace Loose

theorem frame (h : Loose next prev s nodes) (hnext : ∀ a ∈ s :: nodes, next' a = next a)
    (hprev : ∀ a ∈ s :: nodes, prev' a = prev a) : Loose next' prev' s nodes where
  nodup := h.nodup
  chain := chain_congr h.chain (fun a ha => hnext a (.tail _ (List.dropLast_subset _ ha)))
    fun a ha => hprev a (.tail _ (List.mem_of_mem_tail ha))
  next_sentinel := by
    rw [hnext s (.head _)]
    exact h.next_sentinel
  prev_sentinel := by
    rw [hprev s (.head _)]
    exact h.prev_sentinel

/-- The nodes of a ring, when another sentinel points at its ends. -/
theorem of_ring (h : Ring next prev s nodes) (ht : t ∉ nodes)
    (hnext : ∀ a ∈ nodes, next' a = next a) (hprev : ∀ a ∈ nodes, prev' a = prev a)
    (hfirst : next' t = next s) (hlast : prev' t = prev s) : Loose next' prev' t nodes where
  nodup := List.nodup_cons.mpr ⟨ht, (List.nodup_cons.mp h.nodup).2⟩
  chain := chain_congr (List.isChain_cons.mp h.chain).2.left_of_append
    (fun a ha => hnext a (List.dropLast_subset _ ha))
    fun a ha => hprev a (List.mem_of_mem_tail ha)
  next_sentinel := by
    refine ⟨_, hfirst.trans h.next_sentinel, fun b hb => ?_⟩
    rw [Option.mem_def.mp hb, Option.getD_some]
  prev_sentinel := by
    refine ⟨_, hlast.trans h.prev_sentinel, fun b hb => ?_⟩
    rw [Option.mem_def.mp hb, Option.getD_some]

/-- The ends are made to point back at the sentinel; with no nodes, it at itself. -/
theorem close [DecidableEq Addr] (h : Loose next prev s nodes) :
    Ring (Function.update next (nodes.getLast?.getD s) (some s))
      (Function.update prev (nodes.head?.getD s) (some s)) s nodes := by
  obtain ⟨hs, hnodup⟩ := List.nodup_cons.mp h.nodup
  cases nodes with
  | nil => exact .nil (Function.update_self ..) (Function.update_self ..)
  | cons a rest =>
      obtain ⟨init, hinit⟩ := exists_eq_concat_last a rest
      have hlast : (a :: rest).getLast? = some (rest.getLast?.getD a) := List.getLast?_cons
      rw [hlast, Option.getD_some, List.head?_cons, Option.getD_some]
      generalize rest.getLast?.getD a = z at hinit hlast
      obtain ⟨first, hnext, hfirst⟩ := h.next_sentinel
      obtain ⟨last, hprev, hend⟩ := h.prev_sentinel
      obtain rfl : first = a := hfirst a rfl
      obtain rfl : last = z := hend z hlast
      have hnodup' : (init ++ [last]).Nodup := hinit ▸ hnodup
      have hmem : last ∈ first :: rest := hinit ▸ List.mem_append_right _ (.head _)
      have hsFirst : s ≠ first := fun heq => hs (heq ▸ .head _)
      have hsLast : s ≠ last := fun heq => hs (heq ▸ hmem)
      refine ⟨h.nodup, ?_⟩
      rw [List.isChain_cons, List.isChain_append]
      refine ⟨?_, ?_, .singleton s, ?_⟩
      · intro y hy
        obtain rfl : first = y := Option.some.inj hy
        exact ⟨(Function.update_of_ne hsLast _ _).trans hnext, Function.update_self ..⟩
      · refine chain_congr h.chain (fun y hy => Function.update_of_ne ?_ _ _)
          fun y hy => Function.update_of_ne ?_ _ _
        · rintro rfl
          rw [hinit, List.dropLast_concat] at hy
          exact List.disjoint_of_nodup_append hnodup' hy (.head _)
        · rintro rfl
          exact (List.nodup_cons.mp hnodup).1 hy
      · intro x hx y hy
        obtain rfl : last = x := Option.some.inj (hlast.symm.trans hx)
        obtain rfl : s = y := Option.some.inj hy
        exact ⟨Function.update_self .., (Function.update_of_ne hsFirst _ _).trans hprev⟩

end Loose

end LinkedRing

end MoreCpp.Library
