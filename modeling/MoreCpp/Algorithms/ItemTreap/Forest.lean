import MoreCpp.Algorithms.ItemTreap.Rewiring

/-!
The treaps of a caller, held apart in its variables. A call does to them what the
operation of that name on trees does.
-/

namespace MoreCpp.ItemTreap

open Library

/-- The tree of each variable. -/
abbrev Forest := Nat → BinaryTree Cell

namespace Forest

variable (forest : Forest)

def take (n : Nat) : Forest := Function.update forest n .nil

def put (n : Nat) (t : BinaryTree Cell) : Forest := Function.update forest n t

def perform : Op → Forest
  | .insert t key prior it =>
      forest.put t (Treap.insert Cell.key Cell.prior ⟨it, key, prior⟩ (forest t))
  | .split t key l r =>
      ((forest.take t).put l (Treap.split Cell.key key (forest t)).1).put r
        (Treap.split Cell.key key (forest t)).2
  | .merge t l r => ((forest.take l).take r).put t (Treap.merge Cell.prior (forest l) (forest r))
  | .erase t key =>
      forest.put t (((Treap.erase Cell.key Cell.prior key (forest t)).map Prod.snd).getD (forest t))
  | .unite t l r =>
      ((forest.take l).take r).put t (Treap.unite Cell.key Cell.prior (forest l) (forest r))

end Forest

/-- Each variable holds its tree, and no item is in two places. -/
structure Holds (s : State) (forest : Forest) : Prop where
  tree : ∀ n, s.IsTree (s.root n) (forest n)
  distinct : ∀ n, Distinct (inorder (forest n))
  apart : ∀ n m, n ≠ m → Apart (inorder (forest n)) (inorder (forest m))

/-- A call changes the items of `cells`, some variables of the caller, and those of
activations of `unite`. -/
structure Changed (s s' : State) (cells : List Cell) (changed : List Nat) : Prop where
  data : ∀ p, (∀ c ∈ cells, c.address ≠ p) → s'.data p = s.data p
  link : ∀ ref : Ref, ref.Outside cells → (∀ v, ref ≠ .var v) → s'.load ref = s.load ref
  root : ∀ n, n ∉ changed → s'.root n = s.root n

section Holds

variable {s s' s'' : State} {forest forest' : Forest} {cells cells' : List Cell}
  {changed : List Nat} {refs : List Ref} {t : BinaryTree Cell} {root : Option Nat} {n l r : Nat}

namespace Changed

theorem isTree (h : Changed s s' cells changed) (ht : s.IsTree root t)
    (hapart : Apart cells (inorder t)) : s'.IsTree root t := by
  refine ht.congr (fun c hc => h.data _ fun d hd => hapart d hd c hc) fun c hc => ⟨?_, ?_⟩
  · exact h.link _ (outside_l fun d hd => hapart d hd c hc) nofun
  · exact h.link _ (outside_r fun d hd => hapart d hd c hc) nofun

theorem of_within (h : Within s s' cells refs)
    (hrefs : ∀ ref ∈ refs, ∃ n ∈ changed, ref = .var (.root n)) : Changed s s' cells changed where
  data p _ := congrFun h.data p
  link ref hout hvar := h.load ref (fun hmem => by
    obtain ⟨n, -, rfl⟩ := hrefs ref hmem
    exact hvar _ rfl) hout
  root n hn := Option.some.inj (h.load (.var (.root n)) (fun hmem => by
    obtain ⟨m, hm, heq⟩ := hrefs _ hmem
    obtain rfl : n = m := Var.root.inj (Ref.var.inj heq)
    exact hn hm) (Ref.outside_var _))

theorem give (s : State) (n : Nat) : Changed s (s.give n) [] [n] where
  data _ _ := rfl
  link ref _ hvar := by
    cases ref with
    | var v => exact absurd rfl (hvar v)
    | l p => rfl
    | r p => rfl
  root m hm := Function.update_of_ne
    (fun heq => hm (List.mem_singleton.mpr (Var.root.inj heq))) ..

end Changed

namespace Holds

/-- The trees of the changed variables are made of changed items, which the other
variables do not hold. -/
theorem change (h : Holds s forest) (hc : Changed s s' cells changed)
    (hcells : ∀ m, m ∉ changed → Apart cells (inorder (forest m)))
    (hkept : ∀ m, m ∉ changed → forest' m = forest m)
    (htree : ∀ m ∈ changed, s'.IsTree (s'.root m) (forest' m))
    (hdistinct : ∀ m ∈ changed, Distinct (inorder (forest' m)))
    (hsub : ∀ m ∈ changed, ∀ c ∈ inorder (forest' m), c ∈ cells)
    (hapart : ∀ m ∈ changed, ∀ k ∈ changed, m ≠ k →
      Apart (inorder (forest' m)) (inorder (forest' k))) : Holds s' forest' := by
  have hnew : ∀ m ∈ changed, ∀ k, k ∉ changed → Apart (inorder (forest' m)) (inorder (forest k)) :=
    fun m hm k hk c hcm d hd => hcells k hk c (hsub m hm c hcm) d hd
  refine ⟨fun m => ?_, fun m => ?_, fun m k hmk => ?_⟩
  · by_cases hm : m ∈ changed
    · exact htree m hm
    · rw [hkept m hm, hc.root m hm]
      exact hc.isTree (h.tree m) (hcells m hm)
  · by_cases hm : m ∈ changed
    · exact hdistinct m hm
    · rw [hkept m hm]
      exact h.distinct m
  · by_cases hm : m ∈ changed <;> by_cases hk : k ∈ changed
    · exact hapart m hm k hk hmk
    · rw [hkept k hk]
      exact hnew m hm k hk
    · rw [hkept m hm]
      exact fun c hcm d hd => (hnew k hk m hm d hd c hcm).symm
    · rw [hkept m hm, hkept k hk]
      exact h.apart m k hmk

/-- One variable gets a tree of changed items. -/
theorem put (h : Holds s forest) (hc : Changed s s' cells [n])
    (hcells : ∀ m, m ≠ n → Apart cells (inorder (forest m))) (htree : s'.IsTree (s'.root n) t)
    (hdistinct : Distinct (inorder t)) (hsub : ∀ c ∈ inorder t, c ∈ cells) :
    Holds s' (forest.put n t) := by
  have hself : forest.put n t n = t := Function.update_self ..
  refine h.change hc (fun m hm => hcells m (by simpa using hm))
    (fun m hm => Function.update_of_ne (by simpa using hm) ..) ?_ ?_ ?_ ?_
  · rintro m hm
    obtain rfl := List.mem_singleton.mp hm
    rwa [hself]
  · rintro m hm
    obtain rfl := List.mem_singleton.mp hm
    rwa [hself]
  · rintro m hm
    obtain rfl := List.mem_singleton.mp hm
    rwa [hself]
  · rintro m hm k hk hmk
    exact absurd ((List.mem_singleton.mp hm).trans (List.mem_singleton.mp hk).symm) hmk

theorem give (h : Holds s forest) (n : Nat) : Holds (s.give n) (forest.take n) := by
  refine h.put (.give s n) (fun _ _ _ hc => absurd hc List.not_mem_nil) ?_ .nil fun _ hc => hc
  exact Function.update_self ..

/-- The tree that is given away stays in the memory, apart from what is held. -/
theorem given (h : Holds s forest) (n : Nat) : (s.give n).IsTree (s.root n) (forest n) ∧
    ∀ m, Apart (inorder (forest n)) (inorder (forest.take n m)) := by
  refine ⟨(Changed.give s n).isTree (h.tree n) fun _ hc => absurd hc List.not_mem_nil, fun m => ?_⟩
  rcases eq_or_ne m n with rfl | hne
  · rw [Forest.take, Function.update_self]
    exact fun _ _ _ hd => absurd hd List.not_mem_nil
  · rw [Forest.take, Function.update_of_ne hne]
    exact h.apart n m hne.symm

theorem split (h : Holds s forest) (n : Nat) (key : Int) (hlr : l ≠ r) :
    ∃ s', s.Returns (.split n key l r) s' ∧ Holds s' (forest.perform (.split n key l r)) := by
  obtain ⟨ht, hapart⟩ := h.given n
  have href : Ref.var (.root l) ≠ .var (.root r) := by simpa using hlr
  obtain ⟨s', left, right, hrun, hleft, hleftTree, hright, hrightTree, hw⟩ :=
    State.split_spec (k := key) ht (h.distinct n) href (Ref.outside_var _) (Ref.outside_var _)
      rfl rfl
  have hparts := h.distinct n
  rw [← Treap.split_inorder Cell.key key (forest n)] at hparts
  obtain ⟨hdl, hdr, hlowHigh⟩ := distinct_append.mp hparts
  have hl : forest.perform (.split n key l r) l = (Treap.split Cell.key key (forest n)).1 :=
    (Function.update_of_ne hlr ..).trans (Function.update_self ..)
  have hr : forest.perform (.split n key l r) r = (Treap.split Cell.key key (forest n)).2 :=
    Function.update_self ..
  have hrootl : s'.root l = left := Option.some.inj hleft
  have hrootr : s'.root r = right := Option.some.inj hright
  have hc : Changed (s.give n) s' (inorder (forest n)) [l, r] := .of_within hw (by simp)
  refine ⟨s', ⟨_, hrun⟩, (h.give n).change hc (fun m _ => hapart m) (fun m hm => ?_) ?_ ?_ ?_ ?_⟩
  · simp only [List.mem_cons, List.not_mem_nil, or_false, not_or] at hm
    exact (Function.update_of_ne hm.2 ..).trans (Function.update_of_ne hm.1 ..)
  · simp only [List.forall_mem_cons, hl, hr, hrootl, hrootr]
    exact ⟨hleftTree, hrightTree, nofun⟩
  · simp only [List.forall_mem_cons, hl, hr]
    exact ⟨hdl, hdr, nofun⟩
  · simp only [List.forall_mem_cons, hl, hr]
    exact ⟨fun c hc => Treap.mem_split.mpr (.inl hc), fun c hc => Treap.mem_split.mpr (.inr hc),
      nofun⟩
  · simp only [List.forall_mem_cons, hl, hr]
    refine ⟨⟨fun hne => absurd rfl hne, fun _ => hlowHigh, nofun⟩,
      ⟨fun _ c hc d hd => (hlowHigh d hd c hc).symm, fun hne => absurd rfl hne, nofun⟩, nofun⟩

/-- Two trees are given away. -/
theorem given_two (h : Holds s forest) (hlr : l ≠ r) :
    Holds ((s.give l).give r) ((forest.take l).take r) ∧
      ((s.give l).give r).IsTree (s.root l) (forest l) ∧
      ((s.give l).give r).IsTree (s.root r) (forest r) ∧
      Distinct (inorder (forest l) ++ inorder (forest r)) ∧
      ∀ m, Apart (inorder (forest l) ++ inorder (forest r))
        (inorder ((forest.take l).take r m)) := by
  have hr : forest.take l r = forest r := Function.update_of_ne hlr.symm ..
  have hroot : (s.give l).root r = s.root r := (Changed.give s l).root r (by simpa using hlr.symm)
  refine ⟨(h.give l).give r, ?_, ?_, ?_, fun m => ?_⟩
  · exact (Changed.give _ r).isTree (h.given l).1 fun _ hc => absurd hc List.not_mem_nil
  · rw [← hroot, ← hr]
    exact ((h.give l).given r).1
  · exact distinct_append.mpr ⟨h.distinct l, h.distinct r, h.apart l r hlr⟩
  · rcases eq_or_ne m r with rfl | hmr
    · rw [Forest.take, Function.update_self]
      exact fun _ _ _ hd => absurd hd List.not_mem_nil
    · rw [Forest.take, Function.update_of_ne hmr]
      have hapart : Apart (inorder (forest r)) (inorder ((forest.take l) m)) :=
        hr ▸ (h.give l).apart r m hmr.symm
      exact ((h.given l).2 m).append hapart

theorem merge (h : Holds s forest) (n : Nat) (hlr : l ≠ r) :
    ∃ s', s.Returns (.merge n l r) s' ∧ Holds s' (forest.perform (.merge n l r)) := by
  obtain ⟨hgiven, hl, hr, hdistinct, hapart⟩ := h.given_two hlr
  obtain ⟨s', root, hrun, hload, htree, hw⟩ :=
    State.merge_spec hl hr hdistinct (Ref.outside_var (.root n)) rfl
  have hroot : s'.root n = root := Option.some.inj hload
  refine ⟨s', ⟨_, hrun⟩, hgiven.put (.of_within hw (by simp)) (fun m _ => hapart m) ?_ ?_ ?_⟩
  · rwa [hroot]
  · rwa [Treap.merge_inorder]
  · rw [Treap.merge_inorder]
    exact fun c hc => hc

theorem unite (h : Holds s forest) (n : Nat) (hlr : l ≠ r) :
    ∃ s', s.Returns (.unite n l r) s' ∧ Holds s' (forest.perform (.unite n l r)) := by
  obtain ⟨hgiven, hl, hr, hdistinct, hapart⟩ := h.given_two hlr
  obtain ⟨root, s₁, hrun, htree, hdata, hother⟩ :=
    State.unite_spec (forest l) (forest r) _ _ _ 0 hl hr hdistinct
  obtain ⟨s', hstore, hload, hw⟩ := s₁.store_spec root
    (show (s₁.load (.var (.root n))).isSome from rfl)
  have hroot : s'.root n = root := Option.some.inj hload
  have hperm := Treap.unite_perm Cell.key Cell.prior (forest l) (forest r)
  have hc : Changed ((s.give l).give r) s' (inorder (forest l) ++ inorder (forest r)) [n] := by
    refine ⟨fun p _ => ?_, fun ref hout hvar => ?_, fun m hm => ?_⟩
    · rw [hw.data, hdata]
    · rw [State.load_of_store hw (hvar _), hother ref ⟨hout, fun k _ => ⟨hvar _, hvar _⟩⟩]
    · have hne : Ref.var (.root m) ≠ .var (.root n) := by simpa using hm
      have hsame := hother (.var (.root m)) ⟨Ref.outside_var _, fun k _ => ⟨nofun, nofun⟩⟩
      exact Option.some.inj ((State.load_of_store hw hne).trans hsame)
  have henough : Enough ((forest l).numNodes + (forest r).numNodes)
      (fun fuel => s.perform fuel (.unite n l r)) s' := by
    intro fuel hfuel
    have hunite : ((s.give l).give r).unite fuel 0 (s.root l) (s.root r) = some (root, s₁) :=
      hrun fuel hfuel
    simp [State.perform, hunite, hstore]
  refine ⟨s', ⟨_, henough⟩, hgiven.put hc (fun m _ => hapart m) ?_ ?_ ?_⟩
  · rw [hroot]
    exact htree.store hw (Ref.outside_var _)
  · exact hdistinct.perm hperm.symm
  · exact fun c => hperm.mem_iff.mp

theorem erase (h : Holds s forest) (n : Nat) (key : Int) {found : Cell × BinaryTree Cell}
    (hfound : Treap.erase Cell.key Cell.prior key (forest n) = some found) :
    ∃ s', s.Returns (.erase n key) s' ∧ Holds s' (forest.perform (.erase n key)) := by
  obtain ⟨s', root, hrun, hload, htree, hdata, hother⟩ :=
    State.erase_spec (h.tree n) (show s.load (.var (.root n)) = some (s.root n) from rfl)
      (h.distinct n) (Ref.outside_var _) hfound
  obtain ⟨-, pre, post, hall, hrest⟩ := Treap.erase_inorder hfound
  have hroot : s'.root n = root := Option.some.inj hload
  have hc : Changed s s' (inorder (forest n)) [n] := by
    refine ⟨fun p hp => ?_, fun ref hout hvar => hother ref (hvar _) hout, fun m hm => ?_⟩
    · rw [hdata, Function.update_of_ne (hp _ (Treap.erase_mem hfound)).symm]
    · have hne : Ref.var (.root m) ≠ .var (.root n) := by simpa using hm
      exact Option.some.inj (hother _ hne (Ref.outside_var _))
  have hforest : forest.perform (.erase n key) = forest.put n found.2 := by
    rw [Forest.perform, hfound]
    rfl
  rw [hforest]
  refine ⟨s', ⟨_, hrun⟩, h.put hc (fun m hm => h.apart n m hm.symm) ?_ ?_ ?_⟩
  · rwa [hroot]
  · have hdistinct := h.distinct n
    rw [hall] at hdistinct
    rw [hrest]
    exact hdistinct.sublist (((List.sublist_cons_self ..).append_left pre).map Cell.address)
  · exact fun c hc => Treap.mem_erase hfound hc

theorem insert (h : Holds s forest) (n : Nat) (key prior : Int) {it : Nat}
    (hit : s.items it = none) :
    ∃ s', s.Returns (.insert n key prior it) s' ∧
      Holds s' (forest.perform (.insert n key prior it)) := by
  have hfresh : ∀ m, ∀ d ∈ inorder (forest m), it ≠ d.address := by
    rintro m d hd rfl
    have hdata := (h.tree m).data_of_mem hd
    rw [State.data, hit] at hdata
    cases hdata
  have hnew : Changed s (s.newItem it key prior) [⟨it, key, prior⟩] [] := by
    refine ⟨fun p hp => ?_, fun ref hout hvar => ?_, fun _ _ => rfl⟩
    · have hne : p ≠ it := (hp _ (.head _)).symm
      simp [State.data, State.newItem, hne]
    · cases ref with
      | var v => exact absurd rfl (hvar v)
      | l p =>
          have hne : p ≠ it := fun heq => hout _ (.head _) (congrArg some heq)
          simp [State.load, State.newItem, hne]
      | r p =>
          have hne : p ≠ it := fun heq => hout _ (.head _) (congrArg some heq)
          simp [State.load, State.newItem, hne]
  have hheld : Holds (s.newItem it key prior) forest := by
    refine h.change hnew (fun m _ c hc d hd => ?_) (fun _ _ => rfl) ?_ ?_ ?_ ?_
    · obtain rfl := List.mem_singleton.mp hc
      exact hfresh m d hd
    all_goals exact fun _ hm => absurd hm List.not_mem_nil
  have hdistinct : Distinct (⟨it, key, prior⟩ :: inorder (forest n)) :=
    distinct_cons.mpr ⟨fun d hd => (hfresh n d hd).symm, h.distinct n⟩
  have hdata : (s.newItem it key prior).data it = some (key, prior) := by
    simp [State.data, State.newItem]
  have hl : (s.newItem it key prior).load (.l it) = some none := by
    simp [State.load, State.newItem]
  have hr : (s.newItem it key prior).load (.r it) = some none := by
    simp [State.load, State.newItem]
  obtain ⟨s', root, hrun, hload, htree, hw⟩ :=
    State.insert_spec (hheld.tree n)
      (show (s.newItem it key prior).load (.var (.root n)) = some _ from rfl) hdata hl hr hdistinct
      (Ref.outside_var _)
  have hperm := Treap.insert_perm Cell.key Cell.prior ⟨it, key, prior⟩ (forest n)
  have hroot : s'.root n = root := Option.some.inj hload
  refine ⟨s', ⟨_, hrun⟩, hheld.put (.of_within hw (by simp)) (fun m hm => ?_) ?_ ?_ ?_⟩
  · exact Apart.cons (h.apart n m hm.symm) (hfresh m)
  · rwa [hroot]
  · exact hdistinct.perm hperm.symm
  · exact fun c => hperm.mem_iff.mp

end Holds

end Holds

end MoreCpp.ItemTreap
