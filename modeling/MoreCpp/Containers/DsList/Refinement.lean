import MoreCpp.Containers.DsList.Objects
import MoreCpp.Library.TransitionSystem

/-!
`ds::List` refines finite sequences. The sequences are read off the heap by
going through each list from its begin to its end; every operation a caller may
perform does to them what the specification says, and nodes that survive it
keep their elements.
-/

namespace MoreCpp.DsList

open Library

variable {V Alloc : Type}

/-- A node of a list with its element. -/
def Spec.Holds (σ : Spec V Alloc) (list : ListId) (n : Nat) (v : V) : Prop :=
  ∃ q, σ list = some q ∧ (n, v) ∈ q.cells

theorem Spec.set_object_temp (σ : Spec V Alloc) (l : Nat) (a : Alloc) (cells : List (Nat × V)) :
    σ.set (.object l) a cells .temp = σ .temp :=
  set_of_ne σ a cells (show ListId.temp ≠ .object l from nofun)

/-- The sequences of a heap. -/
def Heap.sequences (h : Heap V Alloc) : Spec V Alloc := fun list => do
  let header ← h.list list
  let cells ← h.forward list
  return ⟨header.alloc, cells⟩

/-- The histories of permitted operations, from no list object at all. -/
def system [DecidableEq Alloc] (E : Setting V Alloc) :
    System (Heap V Alloc) (Op V Alloc × Except Exn (Option Ptr)) where
  Init h := h = Heap.initial V Alloc
  Step h label h' :=
    Permitted E h.sequences label.1 ∧ h.perform E label.1 = some (label.2, h')

/-- What the links and sizes of a heap say of its sequences. -/
structure Faithful (h : Heap V Alloc) (σ : Spec V Alloc) : Prop where
  present : ∀ l, (h.list l).isSome ↔ (σ l).isSome
  ring : ∀ l q, σ l = some q → Ring h.next h.prev (.sentinel l) (ptrsOf q.cells)
  inverse : ∀ l q, σ l = some q → ∀ p ∈ .sentinel l :: ptrsOf q.cells,
    ∀ p' ∈ .sentinel l :: ptrsOf q.cells, h.next p = some p' ↔ h.prev p' = some p
  size : ∀ l q, σ l = some q → h.list l = some ⟨q.cells.length, q.alloc⟩
  oneOwner : ∀ l l' n, σ.Owns l n → σ.Owns l' n → l = l'
  forward : ∀ l q, σ l = some q → h.forward l = some q.cells
  backward : ∀ l q, σ l = some q → h.backward l = some q.cells.reverse

/-- Visiting nodes reads their elements. -/
theorem Heap.mapM_cells {h : Heap V Alloc} {cells : List (Nat × V)}
    (hvalue : ∀ cell ∈ cells, h.value cell.1 = some cell.2) :
    ((ptrsOf cells).mapM fun p => do
      let node ← p.node?
      return (node, ← h.value node)) = some cells := by
  induction cells with
  | nil => rfl
  | cons cell rest ih =>
      have hrest := ih fun cell hcell => hvalue cell (.tail _ hcell)
      have hcell := hvalue cell (.head _)
      change List.mapM _ (Ptr.node cell.1 :: ptrsOf rest) = _
      rw [List.mapM_cons, hrest]
      simp [Ptr.node?, hcell]

namespace Represents

variable {h h' : Heap V Alloc} {σ σ' : Spec V Alloc} {list : ListId} {a : Alloc}
  {cells : List (Nat × V)}

theorem forward (hrep : Represents h σ) {q : Sequence V Alloc} (hlist : σ list = some q) :
    h.forward list = some q.cells := by
  have hat := hrep.present list q hlist
  have hfirst := hat.ring.next_sentinel
  have hwalk := hat.ring.walk_eq (show (ptrsOf q.cells).length < q.cells.length + 1 by
    rw [ptrsOf, List.length_map]
    exact Nat.lt_succ_self _)
  rw [Heap.forward, hat.header]
  simp only [Option.bind_eq_bind, Option.bind_some, hfirst, hwalk]
  exact Heap.mapM_cells hat.value

theorem backward (hrep : Represents h σ) {q : Sequence V Alloc} (hlist : σ list = some q) :
    h.backward list = some q.cells.reverse := by
  have hat := hrep.present list q hlist
  have hring : Ring h.prev h.next (.sentinel list) (ptrsOf q.cells.reverse) := by
    rw [ptrsOf, List.map_reverse]
    exact hat.ring.reverse
  have hlast := hring.next_sentinel
  have hwalk := hring.walk_eq (show (ptrsOf q.cells.reverse).length < q.cells.length + 1 by
    rw [ptrsOf, List.length_map, List.length_reverse]
    exact Nat.lt_succ_self _)
  rw [Heap.backward, hat.header]
  simp only [Option.bind_eq_bind, Option.bind_some, hlast, hwalk]
  exact Heap.mapM_cells fun cell hcell => hat.value cell (List.mem_reverse.mp hcell)

theorem sequences_eq (hrep : Represents h σ) : h.sequences = σ := by
  funext l
  cases hl : σ l with
  | none => simp [Heap.sequences, hrep.absent l hl]
  | some q => simp [Heap.sequences, (hrep.present l q hl).header, hrep.forward hl]

theorem faithful (hrep : Represents h σ) : Faithful h σ where
  present l := by
    cases hl : σ l with
    | none => simp [hrep.absent l hl]
    | some q => simp [(hrep.present l q hl).header]
  ring l q hq := (hrep.present l q hq).ring
  inverse l q hq p hp p' hp' := (hrep.present l q hq).ring.next_iff_prev hp hp'
  size l q hq := (hrep.present l q hq).header
  oneOwner := hrep.disjoint
  forward _ _ hq := hrep.forward hq
  backward _ _ hq := hrep.backward hq

/-- The next node is in no list. -/
theorem fresh_next (hrep : Represents h σ) {v : V} : σ.Fresh [(h.made, v)] :=
  hrep.fresh_of_madeSince ⟨List.nodup_singleton _, fun _ hn => (List.mem_singleton.mp hn).ge⟩

/-- A node has one element. -/
theorem holds_unique (hrep : Represents h σ) {l l' : ListId} {n : Nat} {v w : V}
    (hv : σ.Holds l n v) (hw : σ.Holds l' n w) : v = w := by
  obtain ⟨q, hq, hmem⟩ := hv
  obtain ⟨q', hq', hmem'⟩ := hw
  have hvalue := (hrep.present l q hq).value _ hmem
  have hvalue' := (hrep.present l' q' hq').value _ hmem'
  exact Option.some.inj (hvalue.symm.trans hvalue')

variable [DecidableEq Alloc] (E : Setting V Alloc)

/-- An operation at an iterator into a list is one at its end or at a node. -/
theorem erase_step (hrep : Represents h σ) (l : Nat) {pre post : List (Nat × V)}
    (hlist : σ (.object l) = some ⟨a, pre ++ post⟩) :
    ∃ result h' σ', h.erase (.object l) (iteratorAt (.object l) post) = some (result, h') ∧
      Step E σ (.erase l (iteratorAt (.object l) post)) result σ' ∧ Represents h' σ' ∧
      σ' .temp = σ .temp := by
  cases post with
  | nil => exact ⟨_, h, σ, if_pos rfl, .erase_end l, hrep, rfl⟩
  | cons cell post =>
      obtain ⟨n, v⟩ := cell
      obtain ⟨h', herase, hrep'⟩ := hrep.erase hlist
      exact ⟨_, h', _, herase, .erase l hlist, hrep', Spec.set_object_temp ..⟩

theorem moveAssign_step (hrep : Represents h σ) (l o : Nat) {p q : Sequence V Alloc}
    (hlist : σ (.object l) = some p) (hother : σ (.object o) = some q) :
    ∃ result h' σ', h.moveAssign E (.object l) (.object o) = some (result, h') ∧
      Step E σ (.moveAssign l o) (result.map fun _ => none) σ' ∧ Represents h' σ' ∧
      σ' .temp = σ .temp := by
  obtain ⟨a, cells⟩ := p
  obtain ⟨b, cells'⟩ := q
  have htemp : ∀ (x y : Alloc) (xs ys : List (Nat × V)),
      (σ.set (.object l) x xs).set (.object o) y ys .temp = σ .temp := fun _ _ _ _ =>
    (Spec.set_object_temp ..).trans (Spec.set_object_temp ..)
  rcases eq_or_ne l o with rfl | hlo
  · exact ⟨.ok (), h, σ, if_pos rfl, .moveAssign_self l, hrep, rfl⟩
  have hne : ListId.object l ≠ .object o := fun heq => hlo (ListId.object.inj heq)
  by_cases hsame : E.propagateOnMoveAssignment = true ∨ a = b
  · obtain ⟨h', hmove, hrep'⟩ := hrep.moveAssign_steal E hne hlist hother hsame
    exact ⟨_, h', _, hmove, .moveAssign_steal l o hlo hlist hother hsame, hrep', htemp ..⟩
  · obtain ⟨hkept, hdiffer⟩ := not_or.mp hsame
    have hkept' := Bool.eq_false_iff.mpr hkept
    rcases hrep.moveAssign_each E hne hlist hother hkept' hdiffer with
      ⟨e, new, left, h', hmove, hfresh, hprefix, hleft, hrep'⟩ |
      ⟨new, h', hmove, hfresh, hvalues, hrep'⟩
    · exact ⟨_, h', _, hmove, .moveAssign_threw l o hlo hlist hother hkept' hdiffer hfresh hprefix
        hleft, hrep', htemp ..⟩
    · exact ⟨_, h', _, hmove, .moveAssign_each l o hlo hlist hother hkept' hdiffer hfresh hvalues,
        hrep', htemp ..⟩

/-- Every permitted operation is defined, and does what the specification says. -/
theorem perform (hrep : Represents h σ) (htemp : σ .temp = none) (op : Op V Alloc)
    (hpermitted : Permitted E σ op) :
    ∃ result h' σ', h.perform E op = some (result, h') ∧ Step E σ op result σ' ∧
      Represents h' σ' ∧ σ' .temp = none := by
  have hset : ∀ (l : Nat) (x : Alloc) (xs : List (Nat × V)),
      σ.set (.object l) x xs .temp = none := fun _ _ _ => (Spec.set_object_temp ..).trans htemp
  have hpair : ∀ (l o : Nat) (x y : Alloc) (xs ys : List (Nat × V)),
      (σ.set (.object l) x xs).set (.object o) y ys .temp = none := fun _ _ _ _ _ _ =>
    (Spec.set_object_temp ..).trans (hset _ _ _)
  cases op with
  | construct l a =>
      obtain ⟨h', hnew, -, hrep'⟩ := hrep.newList hpermitted a
      exact ⟨_, h', _, by simp [Heap.perform, hnew], .construct l a, hrep', hset ..⟩
  | constructFrom l values a =>
      rcases hrep.constructFrom E hpermitted values a with ⟨e, h', hrun, hrep'⟩ |
        ⟨new, h', hrun, hfresh, rfl, hrep'⟩
      · exact ⟨_, h', σ, by rw [Heap.perform, hrun]; rfl, .threw trivial, hrep', htemp⟩
      · exact ⟨_, h', _, by rw [Heap.perform, hrun]; rfl, .constructFrom l a hfresh, hrep', hset ..⟩
  | copyConstruct l o =>
      obtain ⟨hlist, ⟨b, cells'⟩, hother⟩ := hpermitted
      rcases hrep.copyConstruct E hlist hother with ⟨e, h', hrun, hrep'⟩ |
        ⟨new, h', hrun, hfresh, hvalues, hrep'⟩
      · exact ⟨_, h', σ, by rw [Heap.perform, hrun]; rfl, .threw trivial, hrep', htemp⟩
      · exact ⟨_, h', _, by rw [Heap.perform, hrun]; rfl, .copyConstruct l o hother hfresh hvalues,
          hrep', hset ..⟩
  | moveConstruct l o =>
      obtain ⟨hlist, ⟨b, cells'⟩, hother⟩ := hpermitted
      obtain ⟨h', hrun, hrep'⟩ := hrep.moveConstruct hlist hother
      exact ⟨_, h', _, by simp [Heap.perform, hrun], .moveConstruct l o hother, hrep', hpair ..⟩
  | destruct l =>
      obtain ⟨⟨a, cells⟩, hlist⟩ := hpermitted
      obtain ⟨h', hrun, hrep'⟩ := hrep.destruct hlist
      exact ⟨_, h', _, by simp [Heap.perform, hrun], .destruct l, hrep',
        (Function.update_of_ne (show ListId.temp ≠ .object l from nofun) _ _).trans htemp⟩
  | copyAssign l o =>
      obtain ⟨⟨⟨a, cells⟩, hlist⟩, ⟨b, cells'⟩, hother⟩ := hpermitted
      rcases eq_or_ne l o with rfl | hlo
      · exact ⟨.ok none, h, σ, by simp [Heap.perform, Heap.copyAssign, Except.map],
          .copyAssign_self l, hrep, htemp⟩
      · have hne : ListId.object l ≠ .object o := fun heq => hlo (ListId.object.inj heq)
        rcases hrep.copyAssign E htemp hne hlist hother with ⟨e, h', hrun, hrep'⟩ |
          ⟨new, h', hrun, hfresh, hvalues, hrep'⟩
        · exact ⟨_, h', σ, by rw [Heap.perform, hrun]; rfl, .threw trivial, hrep', htemp⟩
        · exact ⟨_, h', _, by rw [Heap.perform, hrun]; rfl,
            .copyAssign l o hlo hlist hother hfresh hvalues, hrep', hset ..⟩
  | moveAssign l o =>
      obtain ⟨⟨p, hlist⟩, q, hother⟩ := hpermitted
      obtain ⟨result, h', σ', hrun, hstep, hrep', htemp'⟩ := hrep.moveAssign_step E l o hlist hother
      exact ⟨_, h', σ', by simp [Heap.perform, hrun], hstep, hrep', htemp'.trans htemp⟩
  | emplace l position v =>
      obtain ⟨a, pre, post, hlist, rfl⟩ := hpermitted
      rcases hrep.emplace E hlist v with ⟨e, h', hrun, hrep'⟩ | ⟨h', hrun, -, hrep'⟩
      · exact ⟨_, h', σ, hrun, .threw trivial, hrep', htemp⟩
      · exact ⟨_, h', _, hrun, .emplace l hlist hrep.fresh_next, hrep', hset ..⟩
  | pushFront l v =>
      obtain ⟨⟨a, cells⟩, hlist⟩ := hpermitted
      have hfirst : h.next (.sentinel (.object l)) = some (iteratorAt (.object l) cells) :=
        (hrep.present _ _ hlist).ring.next_sentinel
      rcases hrep.emplace E (show σ (.object l) = some ⟨a, [] ++ cells⟩ from hlist) v with
        ⟨e, h', hrun, hrep'⟩ | ⟨h', hrun, -, hrep'⟩
      · exact ⟨.error e, h', σ, by simp [Heap.perform, Heap.pushFront, hfirst, hrun],
          .threw trivial, hrep', htemp⟩
      · exact ⟨_, h', _, by simp [Heap.perform, Heap.pushFront, hfirst, hrun],
          .pushFront l hlist hrep.fresh_next, hrep', hset ..⟩
  | pushBack l v =>
      obtain ⟨⟨a, cells⟩, hlist⟩ := hpermitted
      rcases hrep.pushBack E hlist v with ⟨e, h', hrun, hrep'⟩ | ⟨h', hrun, -, hrep'⟩
      · exact ⟨_, h', σ, hrun, .threw trivial, hrep', htemp⟩
      · exact ⟨_, h', _, hrun, .pushBack l hlist hrep.fresh_next, hrep', hset ..⟩
  | erase l position =>
      obtain ⟨a, pre, post, hlist, rfl⟩ := hpermitted
      obtain ⟨result, h', σ', hrun, hstep, hrep', htemp'⟩ := hrep.erase_step E l hlist
      exact ⟨result, h', σ', hrun, hstep, hrep', htemp'.trans htemp⟩
  | eraseRange l first last =>
      obtain ⟨a, pre, mid, post, hlist, rfl, rfl⟩ := hpermitted
      obtain ⟨h', hrun, hrep'⟩ := hrep.eraseRange hlist
      exact ⟨_, h', _, hrun, .eraseRange l hlist, hrep', hset ..⟩
  | popFront l =>
      obtain ⟨⟨a, cells⟩, hlist⟩ := hpermitted
      cases cells with
      | nil =>
          have hempty := hrep.throwIfEmpty hlist "pop_front"
          exact ⟨_, h, σ, by simp [Heap.perform, Heap.popFront, hempty], .popFront_empty l hlist,
            hrep, htemp⟩
      | cons cell rest =>
          obtain ⟨h', hrun, hrep'⟩ := hrep.popFront hlist
          exact ⟨_, h', _, hrun, .popFront l hlist, hrep', hset ..⟩
  | popBack l =>
      obtain ⟨⟨a, cells⟩, hlist⟩ := hpermitted
      rcases List.eq_nil_or_concat cells with rfl | ⟨rest, cell, rfl⟩
      · have hempty := hrep.throwIfEmpty hlist "pop_back"
        exact ⟨_, h, σ, by simp [Heap.perform, Heap.popBack, hempty], .popBack_empty l hlist,
          hrep, htemp⟩
      · rw [List.concat_eq_append] at hlist
        obtain ⟨h', hrun, hrep'⟩ := hrep.popBack hlist
        exact ⟨_, h', _, hrun, .popBack l hlist, hrep', hset ..⟩
  | clear l =>
      obtain ⟨⟨a, cells⟩, hlist⟩ := hpermitted
      obtain ⟨h', hrun, -, hrep'⟩ := hrep.clear hlist
      exact ⟨_, h', _, by simp [Heap.perform, hrun], .clear l hlist, hrep', hset ..⟩
  | swap l o =>
      obtain ⟨⟨a, cells⟩, ⟨b, cells'⟩, hlist, hother, hequal⟩ := hpermitted
      rcases eq_or_ne l o with rfl | hlo
      · exact ⟨.ok none, h, σ, by simp [Heap.perform, Heap.swap], .swap_self l, hrep, htemp⟩
      · have hne : ListId.object l ≠ .object o := fun heq => hlo (ListId.object.inj heq)
        obtain ⟨h', hrun, hrep'⟩ := hrep.swap E hne hlist hother hequal
        exact ⟨_, h', _, by simp [Heap.perform, hrun], .swap l o hlo hlist hother, hrep',
          hpair ..⟩

end Represents

namespace Spec

/-- The cells of a specification are those of another one, or have nodes new to it. -/
def KnownCell (σ : Spec V Alloc) (cell : Nat × V) : Prop :=
  (∃ l, σ.Holds l cell.1 cell.2) ∨ ∀ l, ¬ σ.Owns l cell.1

def ComesFrom (σ σ' : Spec V Alloc) : Prop :=
  ∀ l q, σ' l = some q → ∀ cell ∈ q.cells, σ.KnownCell cell

variable {σ σ' : Spec V Alloc} {l : ListId} {a : Alloc} {cells : List (Nat × V)}

theorem known_of_list (hlist : σ l = some ⟨a, cells⟩) : ∀ cell ∈ cells, σ.KnownCell cell :=
  fun _ hcell => .inl ⟨l, _, hlist, hcell⟩

theorem known_of_fresh (hfresh : σ.Fresh cells) : ∀ cell ∈ cells, σ.KnownCell cell :=
  fun cell hcell => .inr (hfresh.2 cell.1 (mem_nodesOf hcell))

theorem ComesFrom.refl (σ : Spec V Alloc) : σ.ComesFrom σ :=
  fun _ _ hq => known_of_list hq

theorem ComesFrom.set (h : σ.ComesFrom σ') (hcells : ∀ cell ∈ cells, σ.KnownCell cell) :
    σ.ComesFrom (σ'.set l a cells) := by
  intro l' q hq
  rcases eq_or_ne l' l with rfl | hne
  · rw [set_self] at hq
    exact Option.some.inj hq ▸ hcells
  · rw [set_of_ne _ _ _ hne] at hq
    exact h l' q hq

theorem ComesFrom.drop (h : σ.ComesFrom σ') : σ.ComesFrom (σ'.drop l) := by
  intro l' q hq
  rcases eq_or_ne l' l with rfl | hne
  · rw [Spec.drop, Function.update_self] at hq
    cases hq
  · rw [Spec.drop, Function.update_of_ne hne] at hq
    exact h l' q hq

end Spec

/-- The list whose elements may be moved out of their nodes. -/
def MovedOut (list : ListId) : Op V Alloc → Except Exn (Option Ptr) → Prop
  | .moveAssign _ o, .error _ => list = .object o
  | _, _ => False

theorem MovedOut.of_move {list : ListId} {op : Op V Alloc} {result : Except Exn (Option Ptr)}
    (h : MovedOut list op result) :
    ∃ t o e, op = .moveAssign t o ∧ result = .error e ∧ list = .object o := by
  cases op with
  | moveAssign t o =>
      cases result with
      | error e => exact ⟨t, o, e, rfl, rfl, h⟩
      | ok => exact h.elim
  | _ => exact h.elim

/-- What a step leaves in the lists was there before it, or is new. -/
theorem Step.comesFrom {E : Setting V Alloc} {σ σ' : Spec V Alloc} {op : Op V Alloc}
    {result : Except Exn (Option Ptr)} (hstep : Step E σ op result σ')
    (hnone : ∀ list, ¬ MovedOut list op result) : σ.ComesFrom σ' := by
  have hrefl := Spec.ComesFrom.refl σ
  have hpart : ∀ {l a} {cells cells' : List (Nat × V)}, σ l = some ⟨a, cells⟩ →
      cells' ⊆ cells → ∀ cell ∈ cells', σ.KnownCell cell :=
    fun hlist hsub cell hcell => Spec.known_of_list hlist cell (hsub hcell)
  cases hstep with
  | construct | clear => exact hrefl.set nofun
  | constructFrom _ _ hfresh => exact hrefl.set (Spec.known_of_fresh hfresh)
  | copyConstruct _ _ _ hfresh => exact hrefl.set (Spec.known_of_fresh hfresh)
  | moveConstruct _ _ hother => exact (hrefl.set (Spec.known_of_list hother)).set nofun
  | destruct => exact hrefl.drop
  | copyAssign _ _ _ _ _ hfresh => exact hrefl.set (Spec.known_of_fresh hfresh)
  | moveAssign_steal _ _ _ _ hother => exact (hrefl.set (Spec.known_of_list hother)).set nofun
  | moveAssign_each _ _ _ _ _ _ _ hfresh =>
      exact (hrefl.set (Spec.known_of_fresh hfresh)).set nofun
  | moveAssign_threw _ o => exact absurd rfl (hnone (.object o))
  | emplace _ hlist hfresh =>
      apply hrefl.set
      intro cell hcell
      rw [List.mem_append, List.mem_cons, or_left_comm, ← List.mem_append] at hcell
      rcases hcell with rfl | hold
      · exact Spec.known_of_fresh hfresh _ (.head _)
      · exact Spec.known_of_list hlist cell hold
  | pushFront _ hlist hfresh =>
      apply hrefl.set
      intro cell hcell
      rcases List.mem_cons.mp hcell with rfl | hold
      · exact Spec.known_of_fresh hfresh _ (.head _)
      · exact Spec.known_of_list hlist cell hold
  | pushBack _ hlist hfresh =>
      apply hrefl.set
      intro cell hcell
      rcases List.mem_append.mp hcell with hold | hnew
      · exact Spec.known_of_list hlist cell hold
      · exact Spec.known_of_fresh hfresh cell hnew
  | erase _ hlist =>
      exact hrefl.set (hpart hlist ((List.sublist_cons_self _ _).append_left _).subset)
  | eraseRange _ hlist =>
      exact hrefl.set (hpart hlist ((List.sublist_append_left _ _).append_right _).subset)
  | popFront _ hlist => exact hrefl.set (hpart hlist (List.subset_cons_self _ _))
  | popBack _ hlist => exact hrefl.set (hpart hlist (List.subset_append_left _ _))
  | swap _ _ _ hlist hother =>
      exact (hrefl.set (Spec.known_of_list hother)).set (Spec.known_of_list hlist)
  | copyAssign_self | moveAssign_self | erase_end | popFront_empty | popBack_empty | swap_self
  | threw => exact hrefl

theorem Represents.value_eq {h h' : Heap V Alloc} {σ σ' : Spec V Alloc} (hrep : Represents h σ)
    (hrep' : Represents h' σ') {l l' : ListId} {n : Nat} {v : V} (hold : σ.Holds l n v)
    (hnew : σ'.Holds l' n v) : h'.value n = h.value n := by
  obtain ⟨q, hq, hmem⟩ := hold
  obtain ⟨q', hq', hmem'⟩ := hnew
  exact ((hrep'.present l' q' hq').value _ hmem').trans
    ((hrep.present l q hq).value _ hmem).symm

theorem Spec.Owns.holds {σ : Spec V Alloc} {l : ListId} {n : Nat} (hn : σ.Owns l n) :
    ∃ v, σ.Holds l n v := by
  obtain ⟨q, hq, hmem⟩ := hn
  obtain ⟨⟨m, v⟩, hcell, rfl⟩ := List.mem_map.mp hmem
  exact ⟨v, q, hq, hcell⟩

/-- A node that is in a list before and after a step keeps its element. -/
theorem Step.survivors {E : Setting V Alloc} {h h' : Heap V Alloc} {σ σ' : Spec V Alloc}
    {op : Op V Alloc} {result : Except Exn (Option Ptr)} (hstep : Step E σ op result σ')
    (hrep : Represents h σ) (hrep' : Represents h' σ') {l l' : ListId} {n : Nat}
    (hn : σ.Owns l n) (hn' : σ'.Owns l' n) (hmoved : ¬ MovedOut l op result) :
    h'.value n = h.value n := by
  obtain ⟨v, hv⟩ := hn.holds
  obtain ⟨w, hw⟩ := hn'.holds
  by_cases hnone : ∀ list, ¬ MovedOut list op result
  · obtain ⟨q, hq, hcell⟩ := hw
    rcases hstep.comesFrom hnone l' q hq _ hcell with ⟨l'', hold⟩ | hnew
    · obtain rfl := hrep.holds_unique hv hold
      exact hrep.value_eq hrep' hv ⟨q, hq, hcell⟩
    · exact absurd hn (hnew l)
  · obtain ⟨list, hlist⟩ := not_forall_not.mp hnone
    obtain ⟨t, o, e, rfl, rfl, rfl⟩ := hlist.of_move
    have hlo : l ≠ .object o := hmoved
    cases hstep with
    | threw hmakes => exact hmakes.elim
    | moveAssign_threw _ _ hne _ hother _ _ hfresh _ hleft =>
        -- its nodes are new, or stayed in the list moved from, or are in neither
        rcases eq_or_ne l' (.object o) with rfl | ho
        · rw [Spec.owns_self (Spec.set_self ..), hleft] at hn'
          exact absurd (hrep.disjoint _ _ n hn ((Spec.owns_self hother).mpr hn')) hlo
        · obtain ⟨q, hq, hcell⟩ := hw
          have hq' := hq
          rw [Spec.set_of_ne _ _ _ ho] at hq'
          rcases eq_or_ne l' (.object t) with rfl | ht
          · rw [Spec.set_self] at hq'
            obtain rfl := Option.some.inj hq'
            exact absurd hn (hfresh.2 n (mem_nodesOf hcell) l)
          · rw [Spec.set_of_ne _ _ _ ht] at hq'
            obtain rfl := hrep.holds_unique hv ⟨q, hq', hcell⟩
            exact hrep.value_eq hrep' hv ⟨q, hq, hcell⟩

section Histories

variable [DecidableEq Alloc] (E : Setting V Alloc)

theorem reachable_represents (h : Heap V Alloc) (hreach : (system E).Reachable h) :
    Represents h h.sequences ∧ h.sequences .temp = none := by
  refine (system E).reachable_invariant (fun h => Represents h h.sequences ∧
    h.sequences .temp = none) ?_ ?_ h hreach
  · rintro h rfl
    rw [Represents.initial.sequences_eq]
    exact ⟨.initial, rfl⟩
  · rintro h ⟨op, result⟩ h' - ⟨hrep, htemp⟩ ⟨hpermitted, hperform⟩
    obtain ⟨result', h'', σ', hrun, -, hrep', htemp'⟩ := hrep.perform E htemp op hpermitted
    obtain ⟨rfl, rfl⟩ := Prod.mk.inj (Option.some.inj (hrun.symm.trans hperform))
    rw [hrep'.sequences_eq]
    exact ⟨hrep', htemp'⟩

/-- `std::allocator`, and elements that can be copied and moved freely. -/
def Setting.std (V : Type) : Setting V Unit where
  propagateOnCopyAssignment := false
  propagateOnMoveAssignment := true
  propagateOnSwap := false
  isAlwaysEqual := true
  eq_of_isAlwaysEqual _ _ _ := rfl
  selectOnCopyConstruction := id
  movedFrom _ v := v
  fails _ := false

end Histories

end MoreCpp.DsList
