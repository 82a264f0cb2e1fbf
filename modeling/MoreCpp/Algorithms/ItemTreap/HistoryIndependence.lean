import MoreCpp.Algorithms.ItemTreap.Refinement

/-!
Where an item is in a treap does not depend on how the treap came about, as long as no
key and no priority is inserted twice.
-/

namespace MoreCpp.ItemTreap

open Library

/-- An item without its address. -/
def Cell.item (c : Cell) : Int × Int := (c.key, c.prior)

/-- The items that the calls insert. -/
def inserted (ops : List Op) : List (Int × Int) := ops.filterMap fun
  | .insert _ key prior _ => some (key, prior)
  | _ => none

structure Unrepeated (items : List (Int × Int)) : Prop where
  key : (items.map Prod.fst).Nodup
  prior : (items.map Prod.snd).Nodup

/-- The call inserts the cell. -/
def Op.Inserts : Op → Cell → Prop
  | .insert _ key prior it, c => c = ⟨it, key, prior⟩
  | _, _ => False

theorem Op.Inserts.unique {op : Op} {c d : Cell} (hc : op.Inserts c) (hd : op.Inserts d) :
    c = d := by
  cases op with
  | insert t key prior it => exact hc.trans hd.symm
  | _ => exact hc.elim

theorem Op.Inserts.item_mem {op : Op} {c : Cell} (hc : op.Inserts c) : c.item ∈ inserted [op] := by
  cases op with
  | insert t key prior it =>
      obtain rfl : c = ⟨it, key, prior⟩ := hc
      exact .head _
  | _ => exact hc.elim

/-- The items of a tree have pairwise different keys and pairwise different priorities. -/
structure Distinguished (t : BinaryTree Cell) : Prop where
  key : ((inorder t).map Cell.key).Nodup
  prior : ((inorder t).map Cell.prior).Nodup

section Trees

variable {s : State} {root : Option Nat} {t t' : BinaryTree Cell} {items items' : List (Int × Int)}

theorem State.IsTree.unique (h : s.IsTree root t) (h' : s.IsTree root t') : t = t' := by
  induction t generalizing root t' with
  | nil =>
      obtain rfl : root = none := h
      cases t' with
      | nil => rfl
      | node d l' r' => exact absurd h'.1 nofun
  | node c l r ihl ihr =>
      obtain ⟨rfl, hc, left, right, hleft, hright, hl, hr⟩ := h
      cases t' with
      | nil => exact absurd h' nofun
      | node d l' r' =>
          obtain ⟨haddress, hd, left', right', hleft', hright', hl', hr'⟩ := h'
          obtain ⟨address, key, prior⟩ := c
          obtain ⟨address', key', prior'⟩ := d
          obtain rfl : address = address' := Option.some.inj haddress
          obtain ⟨rfl, rfl⟩ := Prod.mk.inj (Option.some.inj (hc.symm.trans hd))
          obtain rfl := Option.some.inj (hleft.symm.trans hleft')
          obtain rfl := Option.some.inj (hright.symm.trans hright')
          rw [ihl hl hl', ihr hr hr']

theorem Unrepeated.of_append (h : Unrepeated (items ++ items')) : Unrepeated items where
  key := by
    have hkey := h.key
    rw [List.map_append] at hkey
    exact (List.nodup_append'.mp hkey).1
  prior := by
    have hprior := h.prior
    rw [List.map_append] at hprior
    exact (List.nodup_append'.mp hprior).1

/-- Treaps of the same items have one shape. -/
theorem Distinguished.shape_eq (h : Distinguished t) (h' : Distinguished t')
    (ht : Treap.IsTreap Cell.key Cell.prior t) (ht' : Treap.IsTreap Cell.key Cell.prior t')
    (hsame : ∀ item, item ∈ (inorder t).map Cell.item ↔ item ∈ (inorder t').map Cell.item) :
    t.map Cell.item = t'.map Cell.item := by
  have hkeys (t : BinaryTree Cell) :
      (inorder t).map Cell.key = ((inorder t).map Cell.item).map Prod.fst := by
    rw [List.map_map]
    rfl
  have hpriors : (inorder t).map Cell.prior = ((inorder t).map Cell.item).map Prod.snd := by
    rw [List.map_map]
    rfl
  have hnodup : ((inorder t).map Cell.item).Nodup := .of_map _ (hkeys t ▸ h.key)
  have hnodup' : ((inorder t').map Cell.item).Nodup := .of_map _ (hkeys t' ▸ h'.key)
  have hitems : Treap.IsTreap Prod.fst Prod.snd (t.map Cell.item) := .map ht
  apply hitems.unique (.map ht')
  · rw [inorder_map, ← hkeys]
    exact h.key
  · rw [inorder_map, ← hpriors]
    exact h.prior
  · rw [inorder_map, inorder_map]
    exact (List.perm_ext_iff_of_nodup hnodup hnodup').mpr hsame

end Trees

section Held

variable {forest : Forest} {op : Op} {n : Nat} {t : BinaryTree Cell} {c : Cell}

def Forest.Has (forest : Forest) (c : Cell) : Prop := ∃ n, c ∈ inorder (forest n)

namespace Forest

theorem has_put (h : (forest.put n t).Has c) : c ∈ inorder t ∨ forest.Has c := by
  obtain ⟨m, hm⟩ := h
  rcases eq_or_ne m n with rfl | hne
  · rw [Forest.put, Function.update_self] at hm
    exact .inl hm
  · rw [Forest.put, Function.update_of_ne hne] at hm
    exact .inr ⟨m, hm⟩

theorem has_take (h : (forest.take n).Has c) : forest.Has c :=
  (has_put h).resolve_left List.not_mem_nil

/-- A call keeps cells that are there or inserts the new one. -/
theorem has_perform (h : (forest.perform op).Has c) : forest.Has c ∨ op.Inserts c := by
  cases op with
  | insert t key prior it =>
      rcases has_put h with hmem | hold
      · rcases Treap.mem_insert.mp hmem with rfl | hmem
        · exact .inr rfl
        · exact .inl ⟨t, hmem⟩
      · exact .inl hold
  | split t key l r =>
      rcases has_put h with hmem | h
      · exact .inl ⟨t, Treap.mem_split.mpr (.inr hmem)⟩
      · rcases has_put h with hmem | h
        · exact .inl ⟨t, Treap.mem_split.mpr (.inl hmem)⟩
        · exact .inl (has_take h)
  | merge t l r =>
      rcases has_put h with hmem | h
      · rw [Treap.merge_inorder] at hmem
        rcases List.mem_append.mp hmem with hmem | hmem
        · exact .inl ⟨l, hmem⟩
        · exact .inl ⟨r, hmem⟩
      · exact .inl (has_take (has_take h))
  | erase t key =>
      rcases has_put h with hmem | h
      · cases hfound : Treap.erase Cell.key Cell.prior key (forest t) with
        | none =>
            rw [hfound] at hmem
            exact .inl ⟨t, hmem⟩
        | some found =>
            rw [hfound] at hmem
            exact .inl ⟨t, Treap.mem_erase hfound hmem⟩
      · exact .inl h
  | unite t l r =>
      rcases has_put h with hmem | h
      · rcases Treap.mem_unite.mp hmem with hmem | hmem
        · exact .inl ⟨l, hmem⟩
        · exact .inl ⟨r, hmem⟩
      · exact .inl (has_take (has_take h))

end Forest

/-- What is held was inserted, and is told apart by its key and by its priority. -/
structure Traced (items : List (Int × Int)) (forest : Forest) : Prop where
  mem : ∀ c, forest.Has c → c.item ∈ items
  key : Set.InjOn Cell.key {c | forest.Has c}
  prior : Set.InjOn Cell.prior {c | forest.Has c}

namespace Traced

variable {items : List (Int × Int)}

theorem perform (h : Traced items forest) (hitems : Unrepeated (items ++ inserted [op])) :
    Traced (items ++ inserted [op]) (forest.perform op) := by
  have hkey := hitems.key
  have hprior := hitems.prior
  rw [List.map_append] at hkey hprior
  have hnew : ∀ c d : Cell, forest.Has c → op.Inserts d → c.key ≠ d.key ∧ c.prior ≠ d.prior := by
    intro c d hc hd
    constructor
    · intro heq
      apply (List.nodup_append'.mp hkey).2.2 (List.mem_map_of_mem (h.mem c hc))
      exact List.mem_map.mpr ⟨d.item, hd.item_mem, heq.symm⟩
    · intro heq
      apply (List.nodup_append'.mp hprior).2.2 (List.mem_map_of_mem (h.mem c hc))
      exact List.mem_map.mpr ⟨d.item, hd.item_mem, heq.symm⟩
  refine ⟨fun c hc => ?_, fun c hc d hd heq => ?_, fun c hc d hd heq => ?_⟩
  · rcases Forest.has_perform hc with hold | hnew
    · exact List.mem_append_left _ (h.mem c hold)
    · exact List.mem_append_right _ hnew.item_mem
  · rcases Forest.has_perform hc with hc | hc <;> rcases Forest.has_perform hd with hd | hd
    · exact h.key hc hd heq
    · exact absurd heq (hnew c d hc hd).1
    · exact absurd heq.symm (hnew d c hd hc).1
    · exact hc.unique hd
  · rcases Forest.has_perform hc with hc | hc <;> rcases Forest.has_perform hd with hd | hd
    · exact h.prior hc hd heq
    · exact absurd heq (hnew c d hc hd).2
    · exact absurd heq.symm (hnew d c hd hc).2
    · exact hc.unique hd

theorem distinguished (h : Traced items forest) (hdistinct : Distinct (inorder (forest n))) :
    Distinguished (forest n) where
  key := List.Nodup.map_on (fun _ hc _ hd heq => h.key ⟨n, hc⟩ ⟨n, hd⟩ heq) (.of_map _ hdistinct)
  prior := List.Nodup.map_on (fun _ hc _ hd heq => h.prior ⟨n, hc⟩ ⟨n, hd⟩ heq)
    (.of_map _ hdistinct)

end Traced

end Held

section Histories

variable {c₀ c c' : State × Keys} {ops ops' : List Op} {forest₀ : Forest}

/-- A history that inserts no key and no priority twice leaves treaps with what it
inserted. -/
theorem run_traced (hrun : system.Run c₀ ops c) (hops : Unrepeated (inserted ops))
    (hholds : Holds c₀.1 forest₀) (htreaps : forest₀.AreTreaps) (hkeys : forest₀.keys = c₀.2)
    (htraced : Traced [] forest₀) : ∃ forest, Holds c.1 forest ∧ forest.AreTreaps ∧
      forest.keys = c.2 ∧ Traced (inserted ops) forest := by
  induction hrun with
  | refl => exact ⟨forest₀, hholds, htreaps, hkeys, htraced⟩
  | @snoc ops c op c' _ hstep ih =>
      have hall : inserted (ops ++ [op]) = inserted ops ++ inserted [op] := List.filterMap_append
      rw [hall] at hops ⊢
      obtain ⟨forest, hholds, htreaps, hkeys, htraced⟩ := ih hops.of_append
      obtain ⟨hop, hreturns, hkeys'⟩ := hstep
      rw [← hkeys] at hop hkeys'
      obtain ⟨s, hreturns', hholds'⟩ := hholds.perform htreaps hop
      obtain rfl := hreturns'.unique hreturns
      refine ⟨_, hholds', htreaps.perform hop, ?_, htraced.perform hops⟩
      rw [hkeys', htreaps.keys_perform hop]

theorem run_distinguished (hrun : system.Run (.initial, fun _ => 0) ops c)
    (hops : Unrepeated (inserted ops)) : ∃ forest, Holds c.1 forest ∧
      ∀ n, Treap.IsTreap Cell.key Cell.prior (forest n) ∧ Distinguished (forest n) := by
  have hnone : ∀ d, ¬ Forest.Has (fun _ => .nil) d := fun d ⟨_, hd⟩ => List.not_mem_nil hd
  obtain ⟨forest, hholds, htreaps, -, htraced⟩ := run_traced hrun hops .initial
    (fun _ => Treap.isTreap_nil) rfl
    ⟨fun d hd => absurd hd (hnone d), fun d hd => absurd hd (hnone d),
      fun d hd => absurd hd (hnone d)⟩
  exact ⟨forest, hholds, fun n => ⟨htreaps n, htraced.distinguished (hholds.distinct n)⟩⟩

/-- Two histories whose treaps end with the same items end with the same shapes, each
item at the same place, and what is split is merged to the tree it was. -/
theorem history_independent (hrun : system.Run (.initial, fun _ => 0) ops c)
    (hrun' : system.Run (.initial, fun _ => 0) ops' c') (hops : Unrepeated (inserted ops))
    (hops' : Unrepeated (inserted ops')) :
    (∀ n n' t t', c.1.IsTree (c.1.root n) t → c'.1.IsTree (c'.1.root n') t' →
      (∀ item, item ∈ (inorder t).map Cell.item ↔ item ∈ (inorder t').map Cell.item) →
        t.map Cell.item = t'.map Cell.item) ∧
      ∀ n key l r m t, l ≠ r → c.1.IsTree (c.1.root n) t →
        ∃ s s', c.1.Returns (.split n key l r) s ∧ s.Returns (.merge m l r) s' ∧
          s'.IsTree (s'.root m) t := by
  obtain ⟨forest, hholds, hforest⟩ := run_distinguished hrun hops
  obtain ⟨forest', hholds', hforest'⟩ := run_distinguished hrun' hops'
  constructor
  · intro n n' t t' ht ht' hsame
    obtain rfl := ht.unique (hholds.tree n)
    obtain rfl := ht'.unique (hholds'.tree n')
    exact (hforest n).2.shape_eq (hforest' n').2 (hforest n).1 (hforest' n').1 hsame
  · intro n key l r m t hlr ht
    obtain rfl := ht.unique (hholds.tree n)
    obtain ⟨s, hsplit, hs⟩ := hholds.split n key hlr
    obtain ⟨s', hmerge, hs'⟩ := hs.merge m hlr
    refine ⟨s, s', hsplit, hmerge, ?_⟩
    have hl : forest.perform (.split n key l r) l = (Treap.split Cell.key key (forest n)).1 :=
      (Function.update_of_ne hlr ..).trans (Function.update_self ..)
    have hr : forest.perform (.split n key l r) r = (Treap.split Cell.key key (forest n)).2 :=
      Function.update_self ..
    have htree : (forest.perform (.split n key l r)).perform (.merge m l r) m =
        Treap.merge Cell.prior (forest.perform (.split n key l r) l)
          (forest.perform (.split n key l r) r) := Function.update_self ..
    rw [hl, hr, (hforest n).1.merge_split (hforest n).2.prior] at htree
    rw [← htree]
    exact hs'.tree m

/-- Two items inserted in either order, at either address. -/
theorem history_independent_two : ∃ c c' : State × Keys, ∃ t t',
    c.1.IsTree (c.1.root 0) t ∧ c'.1.IsTree (c'.1.root 0) t' ∧ t ≠ t' ∧
      t.map Cell.item = t'.map Cell.item ∧
      ∃ s s', c.1.Returns (.split 0 1 1 2) s ∧ s.Returns (.merge 0 1 2) s' ∧
        s'.IsTree (s'.root 0) t := by
  have hrun := ((System.Run.refl (State.initial, fun _ => 0)).snoc
    (show system.Step _ (.insert 0 1 10 0) (_, _) from
      ⟨rfl, ⟨0, .succ fun _ _ => rfl⟩, rfl⟩)).snoc
    (show system.Step _ (.insert 0 2 20 1) (_, _) from
      ⟨rfl, ⟨2, fun fuel hfuel => by
        obtain ⟨k, rfl⟩ := Nat.exists_eq_add_of_le' hfuel
        rfl⟩, rfl⟩)
  have hrun' := ((System.Run.refl (State.initial, fun _ => 0)).snoc
    (show system.Step _ (.insert 0 2 20 0) (_, _) from
      ⟨rfl, ⟨0, .succ fun _ _ => rfl⟩, rfl⟩)).snoc
    (show system.Step _ (.insert 0 1 10 1) (_, _) from
      ⟨rfl, ⟨2, fun fuel hfuel => by
        obtain ⟨k, rfl⟩ := Nat.exists_eq_add_of_le' hfuel
        rfl⟩, rfl⟩)
  obtain ⟨hshape, hrebuilt⟩ := history_independent hrun hrun' ⟨by decide, by decide⟩
    ⟨by decide, by decide⟩
  refine ⟨_, _, .node ⟨1, 2, 20⟩ (.node ⟨0, 1, 10⟩ .nil .nil) .nil,
    .node ⟨0, 2, 20⟩ (.node ⟨1, 1, 10⟩ .nil .nil) .nil, ?ht, ?ht', by decide,
    hshape 0 0 _ _ ?ht ?ht' fun item => Iff.rfl, hrebuilt 0 1 1 2 0 _ (by decide) ?ht⟩
  · exact ⟨rfl, rfl, some 0, none, rfl, rfl, ⟨rfl, rfl, none, none, rfl, rfl, rfl, rfl⟩, rfl⟩
  · exact ⟨rfl, rfl, some 1, none, rfl, rfl, ⟨rfl, rfl, none, none, rfl, rfl, rfl, rfl⟩, rfl⟩

end Histories

end MoreCpp.ItemTreap
