import MoreCpp.Containers.DoublyLinkedList.Links

/-!
`DoublyLinkedList` refines a sequence of elements, each with its handle.
-/

namespace MoreCpp.DoublyLinkedList

open Library

/-- The elements in order, each under the address of its node. -/
abbrev Sequence := List (Nat × Int)

/-- The handle of the first element, null when there is none. -/
def first (q : Sequence) : Option Nat := q.head?.map Prod.fst

def last (q : Sequence) : Option Nat := q.getLast?.map Prod.fst

def handles (q : Sequence) : List (Option Nat) := q.map fun item => some item.1

namespace Sequence

def insertAfter (pos : Nat) (item : Nat × Int) : Sequence → Sequence
  | [] => []
  | x :: rest => if x.1 = pos then x :: item :: rest else x :: insertAfter pos item rest

def insertBefore (pos : Nat) (item : Nat × Int) : Sequence → Sequence
  | [] => []
  | x :: rest => if x.1 = pos then item :: x :: rest else x :: insertBefore pos item rest

def erase (pos : Nat) (q : Sequence) : Sequence := q.eraseP fun x => x.1 = pos

end Sequence

/-- What a call means for the sequence. -/
def apply (q : Sequence) : Op → Sequence
  | .pushFront value node => (node, value) :: q
  | .pushBack value node => q ++ [(node, value)]
  | .popFront => q.tail
  | .popBack => q.dropLast
  | .insertAfter none value node => (node, value) :: q
  | .insertAfter (some pos) value node => Sequence.insertAfter pos (node, value) q
  | .insertBefore none value node => q ++ [(node, value)]
  | .insertBefore (some pos) value node => Sequence.insertBefore pos (node, value) q
  | .erase none => q
  | .erase (some pos) => Sequence.erase pos q
  | .clear => []

section Sequence

variable {q pre post : Sequence} {pos : Nat} {item : Nat × Int} {v : Int}

@[simp] theorem handles_append : handles (pre ++ post) = handles pre ++ handles post :=
  List.map_append

@[simp] theorem handles_cons : handles (item :: q) = some item.1 :: handles q := rfl

@[simp] theorem handles_nil : handles [] = [] := rfl

theorem mem_handles {p : Nat} : some p ∈ handles q ↔ ∃ v, (p, v) ∈ q := by
  simp [handles]

theorem first_eq (q : Sequence) : (handles q).head?.getD none = first q := by
  cases q <;> rfl

theorem last_eq (q : Sequence) : (handles q).getLast?.getD none = last q := by
  induction q using List.reverseRecOn with
  | nil => rfl
  | append_singleton q item => simp [last]

@[simp] theorem first_nil : first [] = none := rfl

@[simp] theorem first_cons : first (item :: q) = some item.1 := rfl

@[simp] theorem last_nil : last [] = none := rfl

@[simp] theorem last_concat : last (q ++ [item]) = some item.1 := by
  simp [last]

theorem insertAfter_of_mem (hpos : ∀ w, (pos, w) ∉ pre) :
    Sequence.insertAfter pos item (pre ++ (pos, v) :: post) =
      pre ++ (pos, v) :: item :: post := by
  induction pre with
  | nil => simp [Sequence.insertAfter]
  | cons x rest ih =>
      obtain ⟨p, w⟩ := x
      have hne : p ≠ pos := by
        rintro rfl
        exact hpos w (.head _)
      have hrest := ih fun w hw => hpos w (.tail _ hw)
      simp [Sequence.insertAfter, hne, hrest]

theorem insertBefore_of_mem (hpos : ∀ w, (pos, w) ∉ pre) :
    Sequence.insertBefore pos item (pre ++ (pos, v) :: post) =
      pre ++ item :: (pos, v) :: post := by
  induction pre with
  | nil => simp [Sequence.insertBefore]
  | cons x rest ih =>
      obtain ⟨p, w⟩ := x
      have hne : p ≠ pos := by
        rintro rfl
        exact hpos w (.head _)
      have hrest := ih fun w hw => hpos w (.tail _ hw)
      simp [Sequence.insertBefore, hne, hrest]

theorem erase_of_mem (hpos : ∀ w, (pos, w) ∉ pre) :
    Sequence.erase pos (pre ++ (pos, v) :: post) = pre ++ post := by
  unfold Sequence.erase
  rw [List.eraseP_append_right _ ?_]
  · simp
  · rintro ⟨p, w⟩ hmem
    simp only [decide_eq_true_eq]
    rintro rfl
    exact hpos w hmem

theorem mem_insertAfter {x : Nat × Int} (hx : x ∈ q) : x ∈ Sequence.insertAfter pos item q := by
  induction q with
  | nil => exact hx
  | cons y rest ih =>
      rw [Sequence.insertAfter]
      rcases List.mem_cons.mp hx with rfl | hrest
      · split <;> exact .head _
      · split
        · exact .tail _ (.tail _ hrest)
        · exact .tail _ (ih hrest)

theorem mem_insertBefore {x : Nat × Int} (hx : x ∈ q) : x ∈ Sequence.insertBefore pos item q := by
  induction q with
  | nil => exact hx
  | cons y rest ih =>
      rw [Sequence.insertBefore]
      split
      · exact .tail _ hx
      · rcases List.mem_cons.mp hx with rfl | hrest
        · exact .head _
        · exact .tail _ (ih hrest)

end Sequence

/-- The memory holds the sequence. -/
structure Represents (m : Memory) (q : Sequence) : Prop where
  ring : Ring m.next m.prev none (handles q)
  val : ∀ p v, m.val p = some v ↔ (p, v) ∈ q
  sz : m.sz = q.length

namespace Represents

variable {m m' : Memory} {q pre post : Sequence} {node p : Nat} {value v : Int}

theorem initial : Represents .initial [] where
  ring := .nil rfl rfl
  val p v := by simp [Memory.val, Memory.initial]
  sz := rfl

theorem nothing_before (h : Represents m q) : Represents m ([] ++ q) := h

theorem head_eq (h : Represents m q) : m.head = first q := by
  have hhead : some m.head = some ((handles q).head?.getD none) := h.ring.next_sentinel
  rw [Option.some.inj hhead, first_eq]

theorem tail_eq (h : Represents m q) : m.tail = last q := by
  have htail : some m.tail = some ((handles q).getLast?.getD none) := h.ring.prev_sentinel
  rw [Option.some.inj htail, last_eq]

theorem sz_eq_zero_iff (h : Represents m q) : m.sz = 0 ↔ q = [] := by
  rw [h.sz, Int.natCast_eq_zero, List.length_eq_zero_iff]

theorem live (h : Represents m q) (hmem : (p, v) ∈ q) : (m.val p).isSome := by
  rw [(h.val p v).mpr hmem]
  rfl

theorem notMem_of_new (h : Represents m q) (hnew : m.val node = none) : some node ∉ handles q := by
  intro hmem
  obtain ⟨v, hv⟩ := mem_handles.mp hmem
  have hlive := (h.val node v).mpr hv
  rw [hnew] at hlive
  exact Option.some_ne_none v hlive.symm

/-- The handles before and after an element are other ones. -/
theorem apart (h : Represents m (pre ++ (p, v) :: post)) :
    (∀ w, (p, w) ∉ pre) ∧ ∀ w, (p, w) ∉ post := by
  have hnodup := (List.nodup_cons.mp h.ring.nodup).2
  rw [handles_append, handles_cons, List.nodup_middle, List.nodup_cons, ← handles_append] at hnodup
  refine ⟨fun w hw => hnodup.1 ?_, fun w hw => hnodup.1 ?_⟩
  · exact mem_handles.mpr ⟨w, List.mem_append_left _ hw⟩
  · exact mem_handles.mpr ⟨w, List.mem_append_right _ hw⟩

theorem prev_of_mem (h : Represents m (pre ++ (p, v) :: post)) :
    m.prev (some p) = some (last pre) := by
  have hring := h.ring
  rw [handles_append, handles_cons] at hring
  rw [hring.links_of_mem.1, last_eq]

theorem next_of_mem (h : Represents m (pre ++ (p, v) :: post)) :
    m.next (some p) = some (first post) := by
  have hring := h.ring
  rw [handles_append, handles_cons] at hring
  rw [hring.links_of_mem.2, first_eq]

theorem prev_head (h : Represents m q) (hp : m.head = some p) : m.prev (some p) = some none := by
  rw [h.head_eq] at hp
  cases q with
  | nil => exact absurd hp nofun
  | cons item rest =>
      obtain rfl := Option.some.inj hp
      exact h.nothing_before.prev_of_mem

theorem next_tail (h : Represents m q) (hp : m.tail = some p) : m.next (some p) = some none := by
  rw [h.tail_eq] at hp
  induction q using List.reverseRecOn with
  | nil => exact absurd hp nofun
  | append_singleton rest item =>
      obtain rfl := Option.some.inj (last_concat.symm.trans hp)
      exact h.next_of_mem

/-- The neighbours of a node are other nodes, where it is none of the handles. -/
theorem neighbours_ne (hnode : some node ∉ none :: (handles pre ++ handles post)) :
    last pre ≠ some node ∧ first post ≠ some node := by
  constructor
  · rw [← last_eq]
    exact fun heq => hnode (heq ▸ last_mem none (handles pre) (handles post))
  · rw [← first_eq]
    exact fun heq => hnode (heq ▸ first_mem none (handles pre) (handles post))

/-- A node put between two neighbours. -/
theorem inserted (h : Represents m (pre ++ post)) (hnew : m.val node = none)
    (hins : Inserted m m' (last pre) node value (first post)) :
    Represents m' (pre ++ (node, value) :: post) := by
  have hring := h.ring
  rw [handles_append] at hring
  have hnode : some node ∉ none :: (handles pre ++ handles post) := by
    rw [← handles_append, List.mem_cons, not_or]
    exact ⟨Option.some_ne_none node, h.notMem_of_new hnew⟩
  obtain ⟨hbefore, hafter⟩ := neighbours_ne hnode
  refine ⟨?_, ?_, ?_⟩
  · rw [hins.next, hins.prev, handles_append, handles_cons]
    apply hring.insert hnode
    · rw [last_eq]
      refine ⟨Function.update_self .., ?_⟩
      rw [Function.update_of_ne hafter.symm, Function.update_self]
    · rw [first_eq]
      refine ⟨?_, Function.update_self ..⟩
      rw [Function.update_of_ne hbefore.symm, Function.update_self]
    · intro a ha hne
      rw [last_eq] at hne
      rw [Function.update_of_ne hne, Function.update_of_ne (ne_of_mem_of_not_mem ha hnode)]
    · intro b hb hne
      rw [first_eq] at hne
      rw [Function.update_of_ne hne, Function.update_of_ne (ne_of_mem_of_not_mem hb hnode)]
  · intro p v
    have hold := h.val p v
    rw [hins.val]
    rcases eq_or_ne p node with rfl | hne
    · have hnot : (p, v) ∉ pre ++ post := fun hmem => by
        rw [← hold, hnew] at hmem
        exact Option.some_ne_none v hmem.symm
      rw [List.mem_append, not_or] at hnot
      rw [Function.update_self]
      simp [hnot.1, hnot.2, eq_comm]
    · rw [Function.update_of_ne hne, hold]
      simp [hne]
  · rw [hins.sz, h.sz]
    simp only [List.length_append, List.length_cons]
    omega

/-- A node taken out from between its neighbours. -/
theorem removed (h : Represents m (pre ++ (node, v) :: post))
    (hrem : Removed m m' (last pre) node (first post)) : Represents m' (pre ++ post) := by
  have hring := h.ring
  rw [handles_append, handles_cons, ← List.singleton_append, ← List.append_assoc] at hring
  have hnode : some node ∉ none :: (handles pre ++ handles post) := by
    have hnodup := hring.nodup
    rw [List.append_assoc, List.singleton_append, ← List.cons_append, List.nodup_middle,
      List.nodup_cons] at hnodup
    exact hnodup.1
  obtain ⟨hbefore, hafter⟩ := neighbours_ne hnode
  refine ⟨?_, ?_, ?_⟩
  · rw [hrem.next, hrem.prev, handles_append]
    apply hring.remove
    · rw [last_eq, first_eq]
      constructor
      · rw [Function.update_of_ne hbefore, Function.update_self]
      · rw [Function.update_of_ne hafter, Function.update_self]
    · intro a ha hne
      rw [last_eq] at hne
      rw [Function.update_of_ne (ne_of_mem_of_not_mem ha hnode), Function.update_of_ne hne]
    · intro b hb hne
      rw [first_eq] at hne
      rw [Function.update_of_ne (ne_of_mem_of_not_mem hb hnode), Function.update_of_ne hne]
  · intro p w
    rw [hrem.val]
    rcases eq_or_ne p node with rfl | hne
    · simp [h.apart.1 w, h.apart.2 w]
    · rw [Function.update_of_ne hne, h.val p w]
      simp [hne]
  · rw [hrem.sz, h.sz]
    simp only [List.length_append, List.length_cons]
    omega

theorem exists_of_live (h : Represents m q) (hp : (m.val p).isSome) : ∃ v, (p, v) ∈ q := by
  obtain ⟨v, hv⟩ := Option.isSome_iff_exists.mp hp
  exact ⟨v, (h.val p v).mp hv⟩

/-- Only the first element has the handle `head`. -/
theorem head_ne (h : Represents m (pre ++ (p, v) :: post)) (hpre : pre ≠ []) :
    m.head ≠ some p := by
  obtain ⟨item, rest, rfl⟩ := List.exists_cons_of_ne_nil hpre
  rw [h.head_eq, List.cons_append, first_cons]
  intro heq
  apply h.apart.1 item.2
  rw [← Option.some.inj heq]
  exact .head _

theorem tail_ne (h : Represents m (pre ++ (p, v) :: post)) (hpost : post ≠ []) :
    m.tail ≠ some p := by
  obtain ⟨rest, item, rfl⟩ := (List.eq_nil_or_concat' post).resolve_left hpost
  rw [h.tail_eq, ← List.cons_append, ← List.append_assoc, last_concat]
  intro heq
  apply h.apart.2 item.2
  rw [← Option.some.inj heq]
  exact List.mem_append_right _ (.head _)

theorem pushFront (h : Represents m q) (value : Int) (hnew : m.val node = none) :
    ∃ m', m.pushFront value node = some m' ∧ Represents m' ((node, value) :: q) := by
  cases q with
  | nil =>
      obtain ⟨m', hrun, hins⟩ := Memory.pushFront_of_empty (h.sz_eq_zero_iff.mpr rfl)
      exact ⟨m', hrun, h.nothing_before.inserted hnew hins⟩
  | cons item rest =>
      have hempty : m.sz ≠ 0 := fun hzero => List.cons_ne_nil _ _ (h.sz_eq_zero_iff.mp hzero)
      obtain ⟨m', hrun, hins⟩ := Memory.pushFront_of_head hempty h.head_eq (h.live (.head _))
      exact ⟨m', hrun, h.nothing_before.inserted hnew hins⟩

theorem pushBack (h : Represents m q) (value : Int) (hnew : m.val node = none) :
    ∃ m', m.pushBack value node = some m' ∧ Represents m' (q ++ [(node, value)]) := by
  rw [← List.append_nil q] at h
  induction q using List.reverseRecOn with
  | nil =>
      obtain ⟨m', hrun, hins⟩ := Memory.pushBack_of_empty (h.sz_eq_zero_iff.mpr rfl)
      exact ⟨m', hrun, h.inserted hnew hins⟩
  | append_singleton rest item =>
      have htail : m.tail = some item.1 := by rw [h.tail_eq, List.append_nil, last_concat]
      have hempty : m.sz ≠ 0 := fun hzero => by simpa using h.sz_eq_zero_iff.mp hzero
      have hlive : (m.val item.1).isSome := h.live (v := item.2) (by simp)
      obtain ⟨m', hrun, hins⟩ := Memory.pushBack_of_tail hempty htail hlive
      exact ⟨m', hrun, h.inserted hnew (by rwa [last_concat])⟩

theorem popFront (h : Represents m q) :
    ∃ m', m.popFront = some m' ∧ Represents m' q.tail := by
  cases q with
  | nil =>
      refine ⟨m, ?_, h⟩
      simp [Memory.popFront, Memory.empty, h.sz_eq_zero_iff]
  | cons item rest =>
      obtain ⟨node, v⟩ := item
      have hempty : m.sz ≠ 0 := fun hzero => List.cons_ne_nil _ _ (h.sz_eq_zero_iff.mp hzero)
      have hnode : (m.val node).isSome := h.live (.head _)
      cases rest with
      | nil =>
          obtain ⟨m', hrun, hrem⟩ := Memory.popFront_of_single hempty h.head_eq h.tail_eq hnode
          exact ⟨m', hrun, h.nothing_before.removed hrem⟩
      | cons item rest =>
          have hne : m.head ≠ m.tail := by
            rw [h.head_eq]
            exact (h.nothing_before.tail_ne (List.cons_ne_nil _ _)).symm
          have hnext : m.next (some node) = some (some item.1) :=
            h.nothing_before.next_of_mem
          obtain ⟨m', hrun, hrem⟩ := Memory.popFront_of_next hempty h.head_eq hne hnode hnext
            (h.live (v := item.2) (by simp))
          exact ⟨m', hrun, h.nothing_before.removed hrem⟩

theorem popBack (h : Represents m q) :
    ∃ m', m.popBack = some m' ∧ Represents m' q.dropLast := by
  induction q using List.reverseRecOn with
  | nil =>
      refine ⟨m, ?_, h⟩
      simp [Memory.popBack, Memory.empty, h.sz_eq_zero_iff]
  | append_singleton rest item =>
      obtain ⟨node, v⟩ := item
      have hempty : m.sz ≠ 0 := fun hzero => by simpa using h.sz_eq_zero_iff.mp hzero
      have hnode : (m.val node).isSome := h.live (v := v) (by simp)
      have htail : m.tail = some node := by rw [h.tail_eq, last_concat]
      rw [List.dropLast_concat]
      cases rest using List.reverseRecOn with
      | nil =>
          obtain ⟨m', hrun, hrem⟩ := Memory.popBack_of_single hempty h.head_eq htail hnode
          exact ⟨m', hrun, h.removed hrem⟩
      | append_singleton rest item =>
          have hne : m.head ≠ m.tail := by
            rw [htail]
            exact h.head_ne (by simp)
          have hprev : m.prev (some node) = some (some item.1) := by
            rw [h.prev_of_mem, last_concat]
          obtain ⟨m', hrun, hrem⟩ := Memory.popBack_of_prev hempty htail hne hnode hprev
            (h.live (v := item.2) (by simp))
          have hreps := h.removed (by rwa [last_concat])
          exact ⟨m', hrun, by rwa [List.append_nil] at hreps⟩

theorem insertAfter (h : Represents m q) (hp : (m.val p).isSome) (hnew : m.val node = none) :
    ∃ m', m.insertAfter (some p) value node = some m' ∧
      Represents m' (Sequence.insertAfter p (node, value) q) := by
  obtain ⟨v, hmem⟩ := h.exists_of_live hp
  obtain ⟨pre, post, rfl⟩ := List.append_of_mem hmem
  rw [insertAfter_of_mem h.apart.1]
  cases post with
  | nil =>
      have htail : some p = m.tail := by rw [h.tail_eq, last_concat]
      obtain ⟨m', hrun, hreps⟩ := h.pushBack value hnew
      refine ⟨m', ?_, by simpa using hreps⟩
      rw [Memory.insertAfter, if_neg (Option.some_ne_none p), if_pos htail, hrun]
  | cons item rest =>
      have hnot : some p ≠ m.tail := (h.tail_ne (List.cons_ne_nil _ _)).symm
      have hne : p ≠ node := by
        rintro rfl
        rw [hnew] at hp
        exact Bool.false_ne_true hp
      obtain ⟨m', hrun, hins⟩ := Memory.insertAfter_of_next value hnot hp h.next_of_mem
        (h.live (v := item.2) (by simp)) hne
      have hcut : Represents m ((pre ++ [(p, v)]) ++ item :: rest) := by simpa using h
      have hreps := hcut.inserted hnew (by rwa [last_concat])
      exact ⟨m', hrun, by simpa using hreps⟩

theorem insertBefore (h : Represents m q) (hp : (m.val p).isSome) (hnew : m.val node = none) :
    ∃ m', m.insertBefore (some p) value node = some m' ∧
      Represents m' (Sequence.insertBefore p (node, value) q) := by
  obtain ⟨v, hmem⟩ := h.exists_of_live hp
  obtain ⟨pre, post, rfl⟩ := List.append_of_mem hmem
  rw [insertBefore_of_mem h.apart.1]
  induction pre using List.reverseRecOn with
  | nil =>
      obtain ⟨m', hrun, hreps⟩ := h.pushFront value hnew
      refine ⟨m', ?_, hreps⟩
      have hhead : some p = m.head := h.head_eq.symm
      rw [Memory.insertBefore, if_neg (Option.some_ne_none p), if_pos hhead, hrun]
  | append_singleton rest item =>
      have hnot : some p ≠ m.head := (h.head_ne (by simp)).symm
      have hne : p ≠ node := by
        rintro rfl
        rw [hnew] at hp
        exact Bool.false_ne_true hp
      have hprev : m.prev (some p) = some (some item.1) := by rw [h.prev_of_mem, last_concat]
      obtain ⟨m', hrun, hins⟩ := Memory.insertBefore_of_prev value hnot hp hprev
        (h.live (v := item.2) (by simp)) hne
      exact ⟨m', hrun, h.inserted hnew (by rwa [last_concat])⟩

theorem erase (h : Represents m q) (hp : (m.val p).isSome) :
    ∃ m', m.erase (some p) = some m' ∧ Represents m' (Sequence.erase p q) := by
  obtain ⟨v, hmem⟩ := h.exists_of_live hp
  obtain ⟨pre, post, rfl⟩ := List.append_of_mem hmem
  rw [erase_of_mem h.apart.1]
  cases pre with
  | nil =>
      obtain ⟨m', hrun, hreps⟩ := h.popFront
      refine ⟨m', ?_, hreps⟩
      have hhead : some p = m.head := h.head_eq.symm
      rw [Memory.erase, if_neg (Option.some_ne_none p), if_pos hhead, hrun]
  | cons first rest =>
      have hhead : some p ≠ m.head := (h.head_ne (List.cons_ne_nil _ _)).symm
      cases post with
      | nil =>
          have htail : some p = m.tail := by rw [h.tail_eq, last_concat]
          obtain ⟨m', hrun, hreps⟩ := h.popBack
          rw [List.dropLast_concat] at hreps
          refine ⟨m', ?_, by rwa [List.append_nil]⟩
          rw [Memory.erase, if_neg (Option.some_ne_none p), if_neg hhead, if_pos htail, hrun]
      | cons after post =>
          have htail : some p ≠ m.tail := (h.tail_ne (List.cons_ne_nil _ _)).symm
          obtain ⟨init, before, hinit⟩ :=
            (List.eq_nil_or_concat' (first :: rest)).resolve_left (List.cons_ne_nil _ _)
          rw [hinit] at h ⊢
          have hprev : m.prev (some p) = some (some before.1) := by
            rw [h.prev_of_mem, last_concat]
          obtain ⟨m', hrun, hrem⟩ := Memory.erase_of_links hhead htail hp hprev h.next_of_mem
            (h.live (v := before.2) (by simp)) (h.live (v := after.2) (by simp))
          exact ⟨m', hrun, h.removed (by rwa [last_concat])⟩

end Represents

/-- The loop deletes the nodes that `next` leads through, and no others. -/
theorem clearLoop_eq {q : Sequence} {m : Memory} {fuel : Nat} (hfuel : q.length < fuel)
    (hchain : (handles q ++ [none]).IsChain fun a b => m.next a = some b)
    (hnodup : (handles q).Nodup) (hlive : ∀ p v, (p, v) ∈ q → (m.val p).isSome) :
    ∃ m', m.clearLoop fuel (first q) = some m' ∧
      ∀ p, m'.val p = if some p ∈ handles q then none else m.val p := by
  induction q generalizing m fuel with
  | nil =>
      obtain ⟨fuel, rfl⟩ := Nat.exists_eq_add_of_lt hfuel
      exact ⟨m, by simp [Memory.clearLoop], fun p => by simp⟩
  | cons item rest ih =>
      obtain ⟨p, v⟩ := item
      obtain ⟨fuel, rfl⟩ := Nat.exists_eq_add_of_lt hfuel
      rw [handles_cons] at hchain hnodup
      obtain ⟨hp, hnodup⟩ := List.nodup_cons.mp hnodup
      obtain ⟨hfirst, hchain⟩ := List.isChain_cons.mp hchain
      have hlive_p : (m.val p).isSome := hlive p v (.head _)
      have hnext : m.getNext (some p) = some (first rest) := by
        rw [(View.self m).getNext hlive_p]
        apply hfirst
        cases rest <;> rfl
      obtain ⟨m₁, hdelete, h₁⟩ := (View.self m).delete hlive_p
      have hchain₁ : (handles rest ++ [none]).IsChain fun a b => m₁.next a = some b := by
        refine List.IsChain.imp_of_mem_imp ?_ hchain
        intro a b ha _ hab
        have hne : a ≠ some p := by
          rintro rfl
          simp [hp] at ha
        rw [h₁.next, Function.update_of_ne hne, hab]
      have hlive₁ : ∀ a w, (a, w) ∈ rest → (m₁.val a).isSome := by
        intro a w hmem
        have hne : a ≠ p := by
          rintro rfl
          exact hp (mem_handles.mpr ⟨w, hmem⟩)
        rw [h₁.val, Function.update_of_ne hne]
        exact hlive a w (.tail _ hmem)
      have henough : rest.length < rest.length + 1 + fuel := by omega
      obtain ⟨m', hrun, hval⟩ := ih henough hchain₁ hnodup hlive₁
      refine ⟨m', ?_, fun a => ?_⟩
      · rw [List.length_cons, Memory.clearLoop]
        simp [hnext, hdelete, hrun]
      · rw [hval a, h₁.val]
        rcases eq_or_ne a p with rfl | hne
        · simp
        · rw [Function.update_of_ne hne]
          simp [hne]

namespace Represents

variable {m : Memory} {q : Sequence} {node : Nat}

theorem clear (h : Represents m q) :
    ∃ m', m.clear = some m' ∧ Represents m' [] := by
  have hnodup := (List.nodup_cons.mp h.ring.nodup).2
  have hchain := (List.isChain_cons.mp h.ring.chain).2.imp fun _ _ hab => hab.1
  have hfuel : q.length < m.sz.toNat + 1 := by
    rw [h.sz]
    omega
  obtain ⟨m₁, hrun, hval⟩ := clearLoop_eq hfuel hchain hnodup fun p v hmem => h.live hmem
  refine ⟨{ m₁ with head := none, tail := none, sz := 0 }, ?_, .nil rfl rfl, ?_, rfl⟩
  · simp [Memory.clear, h.head_eq, hrun]
  · intro p v
    have hvalue : m₁.val p = none := by
      rw [hval]
      split
      · rfl
      · rename_i hnot
        cases hp : m.val p with
        | none => rfl
        | some w => exact absurd (mem_handles.mpr ⟨w, (h.val p w).mp hp⟩) hnot
    refine iff_of_false ?_ List.not_mem_nil
    exact fun hsome => Option.some_ne_none v (hsome.symm.trans hvalue)

theorem val_eq_none (hnew : m.nodes node = none) : m.val node = none := by
  rw [Memory.val, hnew]
  rfl

theorem live_of_handle {p : Nat} (hpos : m.Handle (some p)) : (m.val p).isSome := by
  rw [Memory.val, Option.isSome_map]
  exact Option.isSome_iff_ne_none.mpr (hpos p rfl)

/-- Every permitted call is defined and does to the sequence what it means. -/
theorem perform (h : Represents m q) {op : Op} (hop : m.Permitted op) :
    ∃ m', m.perform op = some m' ∧ Represents m' (apply q op) := by
  cases op with
  | pushFront value node => exact h.pushFront value (val_eq_none hop)
  | pushBack value node => exact h.pushBack value (val_eq_none hop)
  | popFront => exact h.popFront
  | popBack => exact h.popBack
  | insertAfter pos value node =>
      cases pos with
      | none => exact h.pushFront value (val_eq_none hop.2)
      | some p => exact h.insertAfter (live_of_handle hop.1) (val_eq_none hop.2)
  | insertBefore pos value node =>
      cases pos with
      | none => exact h.pushBack value (val_eq_none hop.2)
      | some p => exact h.insertBefore (live_of_handle hop.1) (val_eq_none hop.2)
  | erase pos =>
      cases pos with
      | none => exact ⟨m, rfl, h⟩
      | some p => exact h.erase (live_of_handle hop)
  | clear => exact h.clear

/-- The elements that a call does not erase stay in the sequence. -/
theorem mem_apply (h : Represents m q) {op : Op} {p : Nat} {v : Int} (hmem : (p, v) ∈ q)
    (hkeep : ¬ m.Erases p op) : (p, v) ∈ apply q op := by
  cases op with
  | pushFront value node => exact .tail _ hmem
  | pushBack value node => exact List.mem_append_left _ hmem
  | popFront =>
      cases q with
      | nil => exact hmem
      | cons item rest =>
          rcases List.mem_cons.mp hmem with rfl | hrest
          · exact absurd h.head_eq hkeep
          · exact hrest
  | popBack =>
      induction q using List.reverseRecOn with
      | nil => exact hmem
      | append_singleton rest item =>
          show (p, v) ∈ (rest ++ [item]).dropLast
          rw [List.dropLast_concat]
          rcases List.mem_append.mp hmem with hrest | hlast
          · exact hrest
          · obtain rfl := List.mem_singleton.mp hlast
            exact absurd (h.tail_eq.trans last_concat) hkeep
  | insertAfter pos value node =>
      cases pos with
      | none => exact .tail _ hmem
      | some pos => exact mem_insertAfter hmem
  | insertBefore pos value node =>
      cases pos with
      | none => exact List.mem_append_left _ hmem
      | some pos => exact mem_insertBefore hmem
  | erase pos =>
      cases pos with
      | none => exact hmem
      | some pos =>
          have hne : p ≠ pos := fun heq => hkeep (congrArg some heq.symm)
          exact (List.mem_eraseP_of_neg (by simpa using hne)).mpr hmem
  | clear => exact absurd trivial hkeep

end Represents

/-- The elements met by following links from `start` until the null pointer. -/
def traverse (m : Memory) (links : Links) (fuel : Nat) (start : Option Nat) : Option Sequence := do
  let met ← walk links none fuel start
  met.mapM fun p => do
    let p ← p
    let v ← m.val p
    return (p, v)

section Runs

variable {m m' : Memory} {q : Sequence} {ops : List Op}

theorem mapM_handles (hval : ∀ p v, (p, v) ∈ q → m.val p = some v) :
    ((handles q).mapM fun p => do
      let p ← p
      let v ← m.val p
      return (p, v)) = some q := by
  induction q with
  | nil => rfl
  | cons item rest ih =>
      obtain ⟨p, v⟩ := item
      have hrest := ih fun p v hmem => hval p v (.tail _ hmem)
      rw [handles_cons, List.mapM_cons, hrest]
      simp [hval p v (.head _)]

theorem traverse_next (h : Represents m q) {fuel : Nat} (hfuel : q.length < fuel) :
    traverse m m.next fuel m.head = some q := by
  have hwalk := h.ring.walk_eq (show (handles q).length < fuel by
    rwa [handles, List.length_map])
  rw [first_eq, ← h.head_eq] at hwalk
  rw [traverse, hwalk]
  exact mapM_handles fun p v hmem => (h.val p v).mpr hmem

theorem traverse_prev (h : Represents m q) {fuel : Nat} (hfuel : q.length < fuel) :
    traverse m m.prev fuel m.tail = some q.reverse := by
  have hreverse : (handles q).reverse = handles q.reverse := List.map_reverse.symm
  have hwalk := h.ring.reverse.walk_eq (show (handles q).reverse.length < fuel by
    rwa [List.length_reverse, handles, List.length_map])
  rw [List.head?_reverse, last_eq, ← h.tail_eq, hreverse] at hwalk
  rw [traverse, hwalk]
  exact mapM_handles fun p v hmem => (h.val p v).mpr (List.mem_reverse.mp hmem)

/-- A run does to the sequence what its calls mean. -/
theorem run_represents (hrun : system.Run m ops m') (h : Represents m q) :
    Represents m' (ops.foldl apply q) := by
  induction hrun with
  | refl => exact h
  | snoc _ hstep ih =>
      obtain ⟨hpermitted, hperform⟩ := hstep
      obtain ⟨m'', hsome, hreps⟩ := ih.perform hpermitted
      obtain rfl := Option.some.inj (hsome.symm.trans hperform)
      rw [List.foldl_append]
      exact hreps

/-- Handles of elements that a run does not erase are good after it. -/
theorem run_val {p : Nat} {v : Int}
    (hrun : (system.restrict fun m op => ¬ m.Erases p op).Run m ops m') (h : Represents m q)
    (hp : m.val p = some v) : m'.val p = some v ∧ Represents m' (ops.foldl apply q) := by
  induction hrun with
  | refl => exact ⟨hp, h⟩
  | snoc _ hstep ih =>
      obtain ⟨⟨hpermitted, hperform⟩, hkeep⟩ := hstep
      obtain ⟨hval, hreps⟩ := ih
      obtain ⟨m'', hsome, hreps'⟩ := hreps.perform hpermitted
      obtain rfl := Option.some.inj (hsome.symm.trans hperform)
      rw [List.foldl_append]
      exact ⟨(hreps'.val p v).mpr (hreps.mem_apply ((hreps.val p v).mp hval) hkeep), hreps'⟩

end Runs

end MoreCpp.DoublyLinkedList
