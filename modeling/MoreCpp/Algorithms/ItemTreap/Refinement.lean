import MoreCpp.Algorithms.ItemTreap.Forest
import MoreCpp.Library.TransitionSystem

/-!
The treaps of a caller refine multisets of keys.
-/

namespace MoreCpp.ItemTreap

open Library

/-- The keys that each variable holds. -/
abbrev Keys := Nat → Multiset Int

namespace Keys

variable (keys : Keys)

def take (n : Nat) : Keys := Function.update keys n 0

def put (n : Nat) (new : Multiset Int) : Keys := Function.update keys n new

/-- What a call means for the keys. -/
def apply : Op → Keys
  | .insert t key _ _ => keys.put t (key ::ₘ keys t)
  | .split t key l r =>
      ((keys.take t).put l ((keys t).filter (· ≤ key))).put r ((keys t).filter (key < ·))
  | .merge t l r => ((keys.take l).take r).put t (keys l + keys r)
  | .erase t key => keys.put t ((keys t).erase key)
  | .unite t l r => ((keys.take l).take r).put t (keys l + keys r)

end Keys

/-- A new item is put where none is, and different variables are passed for `l` and `r`.
Left keys are at most right keys where treaps are merged, and an erased key is there. -/
def State.Permitted (s : State) (keys : Keys) : Op → Prop
  | .insert _ _ _ it => s.items it = none
  | .split _ _ l r => l ≠ r
  | .merge _ l r => l ≠ r ∧ ∀ x ∈ keys l, ∀ y ∈ keys r, x ≤ y
  | .erase t key => key ∈ keys t
  | .unite _ l r => l ≠ r

namespace Forest

variable {forest : Forest} {s : State} {op : Op} {n m : Nat} {t : BinaryTree Cell} {c : Cell}

def keys (forest : Forest) : Keys := Treap.keys Cell.key ∘ forest

@[simp] theorem keys_put : (forest.put n t).keys = forest.keys.put n (Treap.keys Cell.key t) :=
  Function.comp_update ..

@[simp] theorem keys_take : (forest.take n).keys = forest.keys.take n := keys_put

/-- Every tree is a treap. -/
def AreTreaps (forest : Forest) : Prop := ∀ n, Treap.IsTreap Cell.key Cell.prior (forest n)

theorem AreTreaps.put (h : forest.AreTreaps) (ht : Treap.IsTreap Cell.key Cell.prior t) :
    (forest.put n t).AreTreaps := by
  intro m
  rcases eq_or_ne m n with rfl | hne
  · rwa [Forest.put, Function.update_self]
  · rw [Forest.put, Function.update_of_ne hne]
    exact h m

theorem AreTreaps.take (h : forest.AreTreaps) : (forest.take n).AreTreaps :=
  h.put Treap.isTreap_nil

theorem AreTreaps.exists_erase {key : Int} (h : forest.AreTreaps) (hkey : key ∈ forest.keys n) :
    ∃ found, Treap.erase Cell.key Cell.prior key (forest n) = some found :=
  (h n).ordered.exists_erase (Treap.mem_keys.mp hkey)

theorem AreTreaps.perform (h : forest.AreTreaps) (hop : s.Permitted forest.keys op) :
    (forest.perform op).AreTreaps := by
  cases op with
  | insert t key prior it => exact h.put (h t).insert
  | split t key l r => exact (h.take.put (h t).split.1).put (h t).split.2
  | merge t l r =>
      refine h.take.take.put ((h l).merge (h r) fun c hc d hd => ?_)
      exact hop.2 _ (Treap.mem_keys.mpr ⟨c, hc, rfl⟩) _ (Treap.mem_keys.mpr ⟨d, hd, rfl⟩)
  | erase t key =>
      obtain ⟨found, hfound⟩ := h.exists_erase hop
      rw [Forest.perform, hfound]
      exact h.put ((h t).erase hfound)
  | unite t l r => exact h.take.take.put ((h l).unite (h r))

theorem AreTreaps.keys_perform (h : forest.AreTreaps) (hop : s.Permitted forest.keys op) :
    (forest.perform op).keys = forest.keys.apply op := by
  cases op with
  | insert t key prior it =>
      rw [Forest.perform, keys_put, Treap.keys_insert, Keys.apply]
      rfl
  | split t key l r =>
      obtain ⟨hlow, hhigh⟩ := (h t).ordered.keys_split (k := key)
      rw [Forest.perform, keys_put, keys_put, keys_take, hlow, hhigh, Keys.apply]
      rfl
  | merge t l r =>
      rw [Forest.perform, keys_put, keys_take, keys_take, Treap.keys_merge, Keys.apply]
      rfl
  | erase t key =>
      obtain ⟨found, hfound⟩ := h.exists_erase hop
      rw [Forest.perform, hfound, Keys.apply]
      exact keys_put.trans (congrArg _ (Treap.keys_erase hfound))
  | unite t l r =>
      rw [Forest.perform, keys_put, keys_take, keys_take, Treap.keys_unite, Keys.apply]
      rfl

end Forest

/-- The variables hold treaps, apart from each other, with the keys. -/
def Represents (s : State) (keys : Keys) : Prop :=
  ∃ forest, Holds s forest ∧ forest.AreTreaps ∧ forest.keys = keys

section Runs

variable {s s' s'' : State} {forest : Forest} {keys : Keys} {op : Op}

theorem Holds.perform (h : Holds s forest) (htreaps : forest.AreTreaps)
    (hop : s.Permitted forest.keys op) :
    ∃ s', s.Returns op s' ∧ Holds s' (forest.perform op) := by
  cases op with
  | insert t key prior it => exact h.insert t key prior hop
  | split t key l r => exact h.split t key hop
  | merge t l r => exact h.merge t hop.1
  | erase t key =>
      obtain ⟨found, hfound⟩ := htreaps.exists_erase hop
      exact h.erase t key hfound
  | unite t l r => exact h.unite t hop

theorem State.Returns.unique (h : s.Returns op s') (h' : s.Returns op s'') : s' = s'' := by
  obtain ⟨size, henough⟩ := h
  obtain ⟨size', henough'⟩ := h'
  have hleft := henough (size + size' + 1) (by omega)
  have hright := henough' (size + size' + 1) (by omega)
  exact Option.some.inj (hleft.symm.trans hright)

theorem Represents.perform (h : Represents s keys) (hop : s.Permitted keys op) :
    ∃ s', s.Returns op s' ∧ Represents s' (keys.apply op) := by
  obtain ⟨forest, hholds, htreaps, rfl⟩ := h
  obtain ⟨s', hreturns, hholds'⟩ := hholds.perform htreaps hop
  exact ⟨s', hreturns, _, hholds', htreaps.perform hop, htreaps.keys_perform hop⟩

/-- Calls on treaps that are there, with the keys they should hold. -/
def system : System (State × Keys) Op where
  Init c := Represents c.1 c.2
  Step c op c' := c.1.Permitted c.2 op ∧ c.1.Returns op c'.1 ∧ c'.2 = c.2.apply op

/-- After any calls the variables hold treaps of the keys that the calls mean, and every
permitted call ends. -/
theorem refines_multiset {c : State × Keys} (hc : system.Reachable c) :
    Represents c.1 c.2 ∧ ∀ op, c.1.Permitted c.2 op → ∃ s', c.1.Returns op s' ∧
      Represents s' (c.2.apply op) := by
  have h : Represents c.1 c.2 := by
    refine system.reachable_invariant (fun c => Represents c.1 c.2) (fun _ hinit => hinit) ?_ c hc
    rintro ⟨s, keys⟩ op ⟨s', keys'⟩ - h ⟨hop, hreturns, rfl⟩
    obtain ⟨s'', hreturns', h'⟩ := h.perform hop
    obtain rfl := hreturns'.unique hreturns
    exact h'
  exact ⟨h, fun op hop => h.perform hop⟩

theorem Holds.initial : Holds .initial fun _ => .nil :=
  ⟨fun _ => rfl, fun _ => .nil, fun _ _ _ _ hc => absurd hc List.not_mem_nil⟩

theorem Represents.initial : Represents .initial fun _ => 0 :=
  ⟨_, Holds.initial, fun _ => Treap.isTreap_nil, rfl⟩

/-- A key is inserted twice with one priority and erased once, and what is left is split. -/
theorem refines_multiset_repeated : ∃ s keys, system.Reachable (s, keys) ∧ keys 0 = {5} ∧
    Represents s keys ∧ ∃ s', s.Returns (.split 0 4 1 2) s' ∧
      Represents s' (keys.apply (.split 0 4 1 2)) := by
  have hc₀ : system.Reachable (State.initial, fun _ => 0) := .start Represents.initial
  have hc₁ := hc₀.next (show system.Step _ (.insert 0 5 1 0) (_, _) from
    ⟨rfl, ⟨0, .succ fun _ _ => rfl⟩, rfl⟩)
  have hc₂ := hc₁.next (show system.Step _ (.insert 0 5 1 1) (_, _) from
    ⟨rfl, ⟨1, fun fuel hfuel => by
      obtain ⟨k, rfl⟩ := Nat.exists_eq_add_of_le' hfuel
      rfl⟩, rfl⟩)
  have hpresent := Multiset.mem_cons_self (5 : Int) {5}
  obtain ⟨s₃, hreturns, -⟩ := (refines_multiset hc₂).2 (.erase 0 5) hpresent
  have hc₃ := hc₂.next (show system.Step _ (.erase 0 5) (s₃, _) from ⟨hpresent, hreturns, rfl⟩)
  obtain ⟨h, hends⟩ := refines_multiset hc₃
  have hother : (1 : Nat) ≠ 2 := by decide
  exact ⟨s₃, _, hc₃, Multiset.erase_cons_head (5 : Int) {5}, h, hends (.split 0 4 1 2) hother⟩

end Runs

end MoreCpp.ItemTreap
