import MoreCpp.Algorithms.ItemTreap.Refinement

/-!
`erase` of any key. Unlike the other operations it does not check for a null pointer
before it reads the key of an item, so that it is for keys that are there.
-/

namespace MoreCpp.ItemTreap

open Library

variable {s s' : State} {forest forest' : Forest} {t : BinaryTree Cell} {root : Option Nat}
  {ref : Ref} {n : Nat} {key : Int}

/-- What `erase` should do to a treap: take out one item with the key if there is one,
and nothing otherwise. The other treaps stay. -/
structure Erased (forest forest' : Forest) (n : Nat) (key : Int) : Prop where
  one : (∃ c ∈ inorder (forest n), c.key = key) → ∃ c pre post, c.key = key ∧
    inorder (forest n) = pre ++ c :: post ∧ inorder (forest' n) = pre ++ post
  unchanged : (∀ c ∈ inorder (forest n), c.key ≠ key) → forest' n = forest n
  others : ∀ m, m ≠ n → forest' m = forest m

/-- The call ends, without undefined behaviour, and leaves such treaps. -/
def Erases (s : State) (forest : Forest) (n : Nat) (key : Int) : Prop :=
  ∃ s' forest', s.Returns (.erase n key) s' ∧ Holds s' forest' ∧ forest'.AreTreaps ∧
    Erased forest forest' n key

/-- The search for a key that is not there ends at a null pointer, which is followed. -/
theorem State.erase_absent (h : s.IsTree root t) (hroot : s.load ref = some root)
    (habsent : ∀ c ∈ inorder t, c.key ≠ key) (fuel : Nat) : s.erase fuel ref key = none := by
  induction t generalizing root ref fuel with
  | nil =>
      obtain rfl : root = none := h
      cases fuel with
      | zero => rfl
      | succ fuel => simp [State.erase, hroot]
  | node c tl tr ihl ihr =>
      obtain ⟨rfl, hdata, left, right, hleft, hright, htl, htr⟩ := h
      have hkeyOf := key_eq hdata
      have hne : c.key ≠ key := habsent c mem_node_self
      cases fuel with
      | zero => rfl
      | succ fuel =>
          by_cases hlt : key < c.key
          · have hrest := ihl htl hleft (fun d hd => habsent d (mem_node_left hd)) fuel
            simp [State.erase, hroot, hkeyOf, hne, hlt, hrest]
          · have hrest := ihr htr hright (fun d hd => habsent d (mem_node_right hd)) fuel
            simp [State.erase, hroot, hkeyOf, hne, hlt, hrest]

theorem Holds.not_erases (h : Holds s forest) (habsent : ∀ c ∈ inorder (forest n), c.key ≠ key) :
    (∀ fuel, s.perform fuel (.erase n key) = none) ∧ ¬ Erases s forest n key := by
  have hnone : ∀ fuel, s.perform fuel (.erase n key) = none :=
    State.erase_absent (h.tree n) rfl habsent
  refine ⟨hnone, ?_⟩
  rintro ⟨s', -, ⟨size, henough⟩, -⟩
  cases (hnone _).symm.trans (henough (size + 1) (Nat.lt_succ_self size))

/-- `erase` of a key meets its purpose exactly when some item has the key. -/
theorem erases_iff (h : Holds s forest) (htreaps : forest.AreTreaps) :
    Erases s forest n key ↔ ∃ c ∈ inorder (forest n), c.key = key := by
  constructor
  · intro herases
    by_contra habsent
    exact (h.not_erases fun c hc heq => habsent ⟨c, hc, heq⟩).2 herases
  · intro hpresent
    have hmem : key ∈ forest.keys n := Treap.mem_keys.mpr hpresent
    obtain ⟨found, hfound⟩ := htreaps.exists_erase hmem
    obtain ⟨s', hreturns, hholds⟩ := h.erase n key hfound
    have hkept : (forest.perform (.erase n key)).AreTreaps := htreaps.perform (s := s) hmem
    refine ⟨s', _, hreturns, hholds, hkept, ?_⟩
    have hforest : forest.perform (.erase n key) = forest.put n found.2 := by
      rw [Forest.perform, hfound]
      rfl
    obtain ⟨hkey, pre, post, hall, hrest⟩ := Treap.erase_inorder hfound
    rw [hforest]
    refine ⟨fun _ => ⟨found.1, pre, post, hkey, hall, ?_⟩, fun habsent => ?_, fun m hm => ?_⟩
    · rw [Forest.put, Function.update_self, hrest]
    · obtain ⟨c, hc, heq⟩ := hpresent
      exact absurd heq (habsent c hc)
    · exact Function.update_of_ne hm ..

/-- The only key of a treap is erased. -/
theorem erases_iff_only : ∃ s forest, Holds s forest ∧ Erases s forest 0 5 := by
  have hnew : State.initial.items 0 = none := rfl
  obtain ⟨s, -, h⟩ := Holds.initial.insert 0 5 1 hnew
  have htreaps : (Forest.perform (fun _ => .nil) (.insert 0 5 1 0)).AreTreaps :=
    Forest.AreTreaps.perform (s := State.initial) (fun _ => Treap.isTreap_nil) hnew
  exact ⟨s, _, h, (erases_iff h htreaps).mpr ⟨⟨0, 5, 1⟩, .head _, rfl⟩⟩

/-- Erasing from an empty treap follows a null pointer. -/
theorem erase_empty_faults : Holds .initial (fun _ => .nil) ∧
    Forest.AreTreaps (fun _ => .nil) ∧ (∀ fuel, State.initial.perform fuel (.erase 0 5) = none) ∧
    ¬ Erases .initial (fun _ => .nil) 0 5 :=
  ⟨Holds.initial, fun _ => Treap.isTreap_nil,
    Holds.initial.not_erases fun _ hc => absurd hc List.not_mem_nil⟩

end MoreCpp.ItemTreap
