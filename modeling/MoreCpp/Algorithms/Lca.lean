import MoreCpp.Library.DownwardPaths

/-!
`lca` of `algorithms/trees/trees.cpp`. The nodes of the tree are told apart by their
addresses; their data are not read.
-/

namespace MoreCpp

open Library

namespace Lca

variable {Address : Type} [DecidableEq Address]

/-- A null pointer is `none`. -/
def lca : BinaryTree Address → Address → Address → Option Address
  | .nil, _, _ => none
  | .node root left right, t1, t2 =>
    if root = t1 ∨ root = t2 then some root
    else
      let l_lca := lca left t1 t2
      let r_lca := lca right t1 t2
      if l_lca.isSome && r_lca.isSome then some root
      else if l_lca.isSome then l_lca else r_lca

variable {t left right : BinaryTree Address} {t1 t2 b : Address}

theorem lca_comm (t : BinaryTree Address) (t1 t2 : Address) : lca t t1 t2 = lca t t2 t1 := by
  induction t with
  | nil => rfl
  | node b left right ihl ihr =>
      rw [lca, lca, ihl, ihr]
      simp only [or_comm]

theorem lca_of_ne (h1 : b ≠ t1) (h2 : b ≠ t2) : lca (.node b left right) t1 t2 =
    if (lca left t1 t2).isSome && (lca right t1 t2).isSome then some b
    else if (lca left t1 t2).isSome then lca left t1 t2 else lca right t1 t2 := by
  rw [lca, if_neg (not_or.mpr ⟨h1, h2⟩)]

/-- Without the nodes there is nothing to find. -/
theorem lca_of_not_mem (h1 : t1 ∉ inorder t) (h2 : t2 ∉ inorder t) : lca t t1 t2 = none := by
  induction t with
  | nil => rfl
  | node b left right ihl ihr =>
      simp only [inorder_node, List.mem_append, List.mem_cons, not_or] at h1 h2
      rw [lca_of_ne (Ne.symm h1.2.1) (Ne.symm h2.2.1), ihl h1.1 h2.1, ihr h1.2.2 h2.2.2]
      rfl

/-- With one of the nodes, that one is found. -/
theorem lca_of_mem (hnodup : (inorder t).Nodup) (h1 : t1 ∈ inorder t) (h2 : t2 ∉ inorder t) :
    lca t t1 t2 = some t1 := by
  induction t with
  | nil => exact absurd h1 List.not_mem_nil
  | node b left right ihl ihr =>
      obtain ⟨hl, hr, hbl, hbr, hapart⟩ := nodup_node hnodup
      simp only [inorder_node, List.mem_append, List.mem_cons, not_or] at h1 h2
      obtain ⟨hl2, hb2, hr2⟩ := h2
      rcases h1 with h1 | rfl | h1
      · have hb1 : b ≠ t1 := fun heq => hbl (by rwa [heq])
        rw [lca_of_ne hb1 (Ne.symm hb2), ihl hl h1 hl2,
          lca_of_not_mem (hapart t1 h1) hr2]
        rfl
      · rw [lca, if_pos (.inl rfl)]
      · have hb1 : b ≠ t1 := fun heq => hbr (by rwa [heq])
        have hl1 : t1 ∉ inorder left := fun hmem => hapart t1 hmem h1
        rw [lca_of_ne hb1 (Ne.symm hb2), ihr hr h1 hr2, lca_of_not_mem hl1 hl2]
        rfl

/-- The result is the deepest node that has both in its subtree. -/
theorem lca_deepest (t : BinaryTree Address) (t1 t2 : Address) (hnodup : (inorder t).Nodup)
    (h1 : t1 ∈ inorder t) (h2 : t2 ∈ inorder t) :
    ∃ c, lca t t1 t2 = some c ∧ Deepest t t1 t2 c := by
  induction t with
  | nil => exact absurd h1 List.not_mem_nil
  | node b left right ihl ihr =>
      obtain ⟨hl, hr, hbl, hbr, hapart⟩ := nodup_node hnodup
      by_cases hroot : b = t1 ∨ b = t2
      · refine ⟨b, by rw [lca, if_pos hroot], deepest_root h1 h2 ?_ ?_⟩
        · rcases hroot with rfl | rfl
          · exact fun hmem => absurd hmem hbl
          · exact fun _ => hbl
        · rcases hroot with rfl | rfl
          · exact fun hmem => absurd hmem hbr
          · exact fun _ => hbr
      · obtain ⟨hb1, hb2⟩ := not_or.mp hroot
        have hsides : ∀ {x}, b ≠ x → x ∈ inorder (.node b left right) →
            x ∈ inorder left ∨ x ∈ inorder right := by
          intro x hx hmem
          rw [inorder_node, List.mem_append, List.mem_cons] at hmem
          exact hmem.imp_right fun hmem => hmem.resolve_left (Ne.symm hx)
        have hother : ∀ x ∈ inorder right, x ∉ inorder left := fun x hx hx' => hapart x hx' hx
        rw [lca_of_ne hb1 hb2]
        rcases hsides hb1 h1 with h1' | h1' <;> rcases hsides hb2 h2 with h2' | h2'
        · obtain ⟨c, hc, hdeepest⟩ := ihl hl h1' h2'
          rw [hc, lca_of_not_mem (hapart t1 h1') (hapart t2 h2')]
          exact ⟨c, rfl, deepest_left (hapart t1 h1') hdeepest⟩
        · rw [lca_of_mem hl h1' (hother t2 h2'), lca_comm right,
            lca_of_mem hr h2' (hapart t1 h1')]
          exact ⟨b, rfl, deepest_root h1 h2 (fun _ => hother t2 h2')
            fun hmem => absurd hmem (hapart t1 h1')⟩
        · rw [lca_of_mem hr h1' (hapart t2 h2'), lca_comm left,
            lca_of_mem hl h2' (hother t1 h1')]
          exact ⟨b, rfl, deepest_root h1 h2 (fun hmem => absurd hmem (hother t1 h1'))
            fun _ => hapart t2 h2'⟩
        · obtain ⟨c, hc, hdeepest⟩ := ihr hr h1' h2'
          rw [hc, lca_of_not_mem (hother t1 h1') (hother t2 h2')]
          exact ⟨c, rfl, deepest_right (hother t1 h1') hdeepest⟩

/-- A node that is above the other. -/
theorem lca_deepest_above :
    ∃ c, lca (.node 1 (.node 2 .nil (.node 3 .nil .nil)) .nil) 2 3 = some c ∧
      Deepest (.node 1 (.node 2 .nil (.node 3 .nil .nil)) .nil) 2 3 c :=
  lca_deepest (.node 1 (.node 2 .nil (.node 3 .nil .nil)) .nil) 2 3 (by decide) (by decide)
    (by decide)

end Lca

end MoreCpp
