import MoreCpp.Containers.ConflatingQueue.Model

/-!
The invariants of the conflating queue and what keeps them: the replacement of a
value, the eviction of the oldest entry, and an entry appended to the list and
to the map.
-/

namespace MoreCpp.ConflatingQueue

variable {Key Value : Type*}

/-- The invariants the class documents. -/
structure Documented (q : State Key Value) : Prop where
  onceEach : (q.entries.map Prod.fst).Nodup
  listed : ∀ key, (q.pending key).isSome ↔ key ∈ q.entries.map Prod.fst
  designates : ∀ key id, q.pending key = some id → ∃ node ∈ q.queue, node.id = id ∧ node.key = key
  bounded : q.size ≤ q.capacity

/-- And what they rest on: nodes differ, and there is room for one. -/
structure Inv (q : State Key Value) : Prop extends Documented q where
  ids : (q.queue.map Node.id).Nodup
  made : ∀ node ∈ q.queue, node.id < q.made
  roomy : 0 < q.capacity

namespace Inv

variable {q : State Key Value} {key : Key} {value : Value}

theorem keys_eq (q : State Key Value) : q.entries.map Prod.fst = q.queue.map Node.key := by
  rw [State.entries, List.map_map]
  rfl

/-- Two nodes with one number are the same. -/
theorem eq_of_id (h : Inv q) {node node' : Node Key Value} (hnode : node ∈ q.queue)
    (hnode' : node' ∈ q.queue) (hid : node.id = node'.id) : node = node' :=
  List.inj_on_of_nodup_map h.ids hnode hnode' hid

/-- A pending key has one node, which its iterator designates. -/
theorem found (h : Inv q) {id : Nat} (hpending : q.pending key = some id) :
    ∃ node ∈ q.queue, node.id = id ∧ node.key = key ∧
      ∀ node' ∈ q.queue, node'.id = id ↔ node'.key = key := by
  obtain ⟨node, hnode, hid, hkey⟩ := h.designates key id hpending
  have hkeys : (q.queue.map Node.key).Nodup := keys_eq q ▸ h.onceEach
  refine ⟨node, hnode, hid, hkey, fun node' hnode' => ⟨fun hid' => ?_, fun hkey' => ?_⟩⟩
  · rw [h.eq_of_id hnode' hnode (hid'.trans hid.symm), hkey]
  · rw [List.inj_on_of_nodup_map hkeys hnode' hnode (hkey'.trans hkey.symm), hid]

theorem make {capacity : Nat} (h : State.make capacity = .ok q) : Inv q ∧ q.capacity = capacity ∧
    q.entries = [] := by
  unfold State.make at h
  split at h
  case isTrue => cases h
  case isFalse hcapacity =>
    obtain rfl := Except.ok.inj h
    refine ⟨⟨⟨.nil, fun key => ?_, nofun, Nat.zero_le _⟩, .nil, nofun, ?_⟩, rfl, rfl⟩
    · simp [State.entries]
    · exact Nat.pos_of_ne_zero hcapacity

variable [DecidableEq Key]

/-- The value of a pending key is replaced. -/
theorem assign (h : Inv q) {id : Nat} (hpending : q.pending key = some id) (value : Value) :
    ∃ q', q.assign id value = some q' ∧ Inv q' ∧ q'.capacity = q.capacity ∧
      q'.entries = q.entries.map fun entry => if entry.1 = key then (key, value) else entry := by
  obtain ⟨node, hnode, hid, hkey, hunique⟩ := h.found hpending
  have hassign : q.assign id value = some { q with queue := q.queue.map fun node =>
      if node.id = id then { node with value := value } else node } :=
    if_pos (List.mem_map.mpr ⟨node, hnode, hid⟩)
  have hkept : ∀ node : Node Key Value,
      (if node.id = id then { node with value := value } else node).key = node.key ∧
      (if node.id = id then { node with value := value } else node).id = node.id := by
    intro node
    split <;> exact ⟨rfl, rfl⟩
  have hkeys : (q.queue.map fun node => if node.id = id then { node with value := value }
      else node).map Node.key = q.queue.map Node.key := by
    rw [List.map_map]
    exact List.map_congr_left fun node _ => (hkept node).1
  have hids : (q.queue.map fun node => if node.id = id then { node with value := value }
      else node).map Node.id = q.queue.map Node.id := by
    rw [List.map_map]
    exact List.map_congr_left fun node _ => (hkept node).2
  refine ⟨_, hassign, ⟨⟨?_, ?_, ?_, ?_⟩, ?_, ?_, h.roomy⟩, rfl, ?_⟩
  · rw [keys_eq, hkeys, ← keys_eq]
    exact h.onceEach
  · intro key'
    rw [keys_eq, hkeys, ← keys_eq]
    exact h.listed key'
  · intro key' id' hpending'
    obtain ⟨node', hnode', hid', hkey'⟩ := h.designates key' id' hpending'
    exact ⟨_, List.mem_map_of_mem hnode', (hkept node').2.trans hid', (hkept node').1.trans hkey'⟩
  · change (q.queue.map _).length ≤ q.capacity
    rw [List.length_map]
    exact h.bounded
  · rw [hids]
    exact h.ids
  · intro node' hnode'
    obtain ⟨node, hnode, rfl⟩ := List.mem_map.mp hnode'
    rw [(hkept node).2]
    exact h.made node hnode
  · simp only [State.entries, List.map_map]
    apply List.map_congr_left
    intro node' hnode'
    simp only [Function.comp_apply, ← hunique node' hnode']
    split
    case isTrue hsame => rw [(hunique node' hnode').mp hsame]
    case isFalse => rfl

/-- The oldest entry goes from the list and from the map. -/
theorem eraseOldest (h : Inv q) {oldest : Node Key Value} {rest : List (Node Key Value)}
    (hqueue : q.queue = oldest :: rest) :
    ∃ q', q.eraseOldest = some q' ∧ Inv q' ∧ q'.capacity = q.capacity ∧ q'.queue = rest ∧
      q'.pending = Function.update q.pending oldest.key none := by
  have herase : q.eraseOldest = some { q with
      pending := Function.update q.pending oldest.key none, queue := rest } := by
    rw [State.eraseOldest, hqueue]
  have hkeys : (q.queue.map Node.key).Nodup := keys_eq q ▸ h.onceEach
  have hids := h.ids
  rw [hqueue, List.map_cons, List.nodup_cons] at hkeys hids
  have hmem : ∀ node ∈ rest, node ∈ q.queue := fun node hnode => hqueue ▸ .tail _ hnode
  refine ⟨_, herase, ⟨⟨?_, ?_, ?_, ?_⟩, hids.2, fun node hnode => h.made node (hmem node hnode),
    h.roomy⟩, rfl, rfl, rfl⟩
  · rw [keys_eq]
    exact hkeys.2
  · intro key
    rw [keys_eq]
    change (Function.update q.pending oldest.key none key).isSome ↔ key ∈ rest.map Node.key
    rcases eq_or_ne key oldest.key with rfl | hne
    · simp [hkeys.1]
    · rw [Function.update_of_ne hne, h.listed, keys_eq, hqueue, List.map_cons, List.mem_cons]
      exact or_iff_right hne
  · intro key id hpending
    change Function.update q.pending oldest.key none key = some id at hpending
    rcases eq_or_ne key oldest.key with rfl | hne
    · simp at hpending
    · rw [Function.update_of_ne hne] at hpending
      obtain ⟨node, hnode, hid, hkey⟩ := h.designates key id hpending
      rw [hqueue] at hnode
      rcases List.mem_cons.mp hnode with rfl | hrest
      · exact absurd hkey.symm hne
      · exact ⟨node, hrest, hid, hkey⟩
  · have hbounded := h.bounded
    rw [State.size, hqueue, List.length_cons] at hbounded
    change rest.length ≤ q.capacity
    omega

/-- An entry with a new key is appended to the list and to the map. -/
theorem append (h : Inv q) (hnew : q.pending key = none) (hroom : q.size < q.capacity)
    (value : Value) : ∃ q', (q.emplaceBack key value).emplacePending = some q' ∧ Inv q' ∧
      q'.capacity = q.capacity ∧ q'.entries = q.entries ++ [(key, value)] := by
  have hemplace : (q.emplaceBack key value).emplacePending = some { q.emplaceBack key value with
      pending := Function.update q.pending key (some q.made) } := by
    simp [State.emplacePending, State.emplaceBack, hnew]
  have hentries : (q.emplaceBack key value).entries = q.entries ++ [(key, value)] := by
    simp [State.entries, State.emplaceBack]
  have habsent : key ∉ q.entries.map Prod.fst := by
    rw [← h.listed, hnew]
    exact nofun
  refine ⟨_, hemplace, ⟨⟨?_, ?_, ?_, ?_⟩, ?_, ?_, h.roomy⟩, rfl, hentries⟩
  · change ((q.emplaceBack key value).entries.map Prod.fst).Nodup
    rw [hentries, List.map_append, List.map_singleton]
    refine List.nodup_append.mpr ⟨h.onceEach, List.nodup_singleton key, fun x hx y hy hxy => ?_⟩
    rw [hxy, List.mem_singleton.mp hy] at hx
    exact habsent hx
  · intro key'
    change (Function.update q.pending key (some q.made) key').isSome ↔
      key' ∈ (q.emplaceBack key value).entries.map Prod.fst
    rw [hentries, List.map_append, List.map_singleton, List.mem_append, List.mem_singleton]
    rcases eq_or_ne key' key with rfl | hne
    · simp
    · rw [Function.update_of_ne hne, h.listed]
      exact (or_iff_left hne).symm
  · intro key' id hpending
    change Function.update q.pending key (some q.made) key' = some id at hpending
    rcases eq_or_ne key' key with rfl | hne
    · rw [Function.update_self] at hpending
      exact ⟨⟨q.made, key', value⟩, List.mem_append_right _ (.head _),
        Option.some.inj hpending, rfl⟩
    · rw [Function.update_of_ne hne] at hpending
      obtain ⟨node, hnode, hid, hkey⟩ := h.designates key' id hpending
      exact ⟨node, List.mem_append_left _ hnode, hid, hkey⟩
  · change (q.queue ++ [_]).length ≤ q.capacity
    rw [List.length_append, List.length_singleton]
    exact hroom
  · change ((q.queue ++ [_]).map Node.id).Nodup
    rw [List.map_append, List.map_singleton]
    refine List.nodup_append.mpr ⟨h.ids, List.nodup_singleton _, fun x hx y hy hxy => ?_⟩
    obtain ⟨node, hnode, rfl⟩ := List.mem_map.mp hx
    have hlt := h.made node hnode
    rw [hxy, List.mem_singleton.mp hy] at hlt
    exact Nat.lt_irrefl _ hlt
  · intro node hnode
    change node.id < q.made + 1
    rcases List.mem_append.mp hnode with hold | hlast
    · exact Nat.lt_succ_of_lt (h.made node hold)
    · rw [List.mem_singleton.mp hlast]
      exact Nat.lt_succ_self _

end Inv

end MoreCpp.ConflatingQueue
