import MoreCpp.Library.LinkedCells
import MoreCpp.Library.SequentialObject
import Mathlib.Data.List.Nodup
import Mathlib.Logic.Function.Basic

/-!
`con::queue` of `concurrency/single_thread_queue.cpp`, the linked queue
without locks. `head` owns the first node and each node the next one, while
`tail` is a raw alias of the last node. A node is known by the number of its
allocation, so that a stale alias never meets a later node. Touching a node
that has been freed is a fault.
-/

namespace MoreCpp.Queue

open Library

structure Node (V : Type*) where
  data : V
  next : Option Nat

inductive Fault where
  | freed (node : Nat)

structure State (V : Type*) where
  heap : Nat → Option (Node V)
  /-- Nodes made so far. -/
  nodes : Nat
  head : Option Nat
  tail : Option Nat

variable {V : Type*}

namespace State

/-- The constructor, with `tail` null. -/
def initial (V : Type*) : State V := ⟨fun _ => none, 0, none, none⟩

def deref (s : State V) (addr : Nat) : Except Fault (Node V) :=
  match s.heap addr with
  | some node => .ok node
  | none => .error (.freed addr)

def store (s : State V) (addr : Nat) (cell : Option (Node V)) : State V :=
  { s with heap := Function.update s.heap addr cell }

/-- `head = std::move(old_head->next)`; the return destroys `old_head`. -/
def tryPop (s : State V) : Except Fault (State V × Option V) :=
  match s.head with
  | none => .ok (s, none)
  | some oldHead => do
      let node ← s.deref oldHead
      return ({ s.store oldHead none with head := node.next }, some node.data)

def push (s : State V) (newValue : V) : Except Fault (State V) :=
  let p := s.nodes
  let made := { s.store p (some ⟨newValue, none⟩) with nodes := p + 1 }
  match s.tail with
  | some tail => do
      let node ← made.deref tail
      return { made.store tail (some { node with next := some p }) with tail := some p }
  | none => .ok { made with head := some p, tail := some p }

def perform (s : State V) : QueueOp V → Except Fault (State V × QueueRes V)
  | .push value => do return (← s.push value, .pushed)
  | .pop => do
      let (s', value) ← s.tryPop
      return (s', .popped value)

end State

/-- Perform the operations on a new queue, and collect what they return. -/
def run (ops : List (QueueOp V)) : Except Fault (State V × List (QueueRes V)) :=
  ops.foldlM (fun (s, answers) op => do
    let (s', answer) ← s.perform op
    return (s', answers ++ [answer])) (State.initial V, [])

@[simp] theorem run_nil : run ([] : List (QueueOp V)) = .ok (State.initial V, []) := rfl

theorem run_concat (ops : List (QueueOp V)) (op : QueueOp V) :
    run (ops ++ [op]) = (do
      let (s, answers) ← run ops
      let (s', answer) ← s.perform op
      return (s', answers ++ [answer])) := by
  simp [run]

/-- No node is touched after it was freed, and every answer is the one of a FIFO. -/
def RefinesFifo (ops : List (QueueOp V)) : Prop :=
  ∃ s, run ops = .ok (s, (fifo V).answers ops)

/-- Some push comes when values have been pushed before and all of them popped. -/
def PushesAfterDraining (ops : List (QueueOp V)) : Prop :=
  ∃ before value rest, ops = before ++ .push value :: rest ∧
    before.any QueueOp.isPush = true ∧ (fifo V).after before = []

theorem pushesAfterDraining_concat (ops : List (QueueOp V)) (op : QueueOp V) :
    PushesAfterDraining (ops ++ [op]) ↔ PushesAfterDraining ops ∨
      op.isPush = true ∧ ops.any QueueOp.isPush = true ∧ (fifo V).after ops = [] := by
  constructor
  · rintro ⟨before, value, rest, heq, hpushed, hempty⟩
    rcases List.eq_nil_or_concat rest with rfl | ⟨front, last, rfl⟩
    · obtain ⟨rfl, hop⟩ := List.append_inj' heq rfl
      obtain rfl : op = .push value := by simpa using hop
      exact .inr ⟨rfl, hpushed, hempty⟩
    · left
      rw [List.concat_eq_append, ← List.cons_append, ← List.append_assoc] at heq
      obtain ⟨rfl, -⟩ := List.append_inj' heq rfl
      exact ⟨before, value, front, rfl, hpushed, hempty⟩
  · rintro (⟨before, value, rest, rfl, hpushed, hempty⟩ | ⟨hop, hpushed, hempty⟩)
    · exact ⟨before, value, rest ++ [op], by simp, hpushed, hempty⟩
    · cases op with
      | push value => exact ⟨ops, value, [], rfl, hpushed, hempty⟩
      | pop => cases hop

/-- A node with a successor, as a cell of a segment. -/
def link (heap : Nat → Option (Node V)) (a : Nat) : Option (V × Nat) :=
  match heap a with
  | some ⟨value, some next⟩ => some (value, next)
  | _ => none

theorem link_congr {heap heap' : Nat → Option (Node V)} {a : Nat} (h : heap' a = heap a) :
    link heap' a = link heap a := by
  unfold link
  rw [h]

theorem link_eq_some_iff {heap : Nat → Option (Node V)} {a next : Nat} {value : V} :
    link heap a = some (value, next) ↔ heap a = some ⟨value, some next⟩ := by
  cases hnode : heap a with
  | none => simp [link, hnode]
  | some node =>
      obtain ⟨data, successor⟩ := node
      cases successor <;> simp [link, hnode]

/-- How the queue stands for a list of values, `used` telling whether anything
was ever pushed. Emptying the queue leaves `tail` at the freed last node. -/
inductive Shape (s : State V) : List V → Bool → Prop where
  | fresh (hhead : s.head = none) (htail : s.tail = none) : Shape s [] false
  | filled {first last : Nat} {cells : List (Nat × V)} {value : V}
      (hhead : s.head = some first) (htail : s.tail = some last)
      (hsegment : Segment (link s.heap) first cells last)
      (hlast : s.heap last = some ⟨value, none⟩)
      (hnodup : (cells.map Prod.fst ++ [last]).Nodup) :
      Shape s (cells.map Prod.snd ++ [value]) true
  | drained {last : Nat} (hhead : s.head = none) (htail : s.tail = some last)
      (hfreed : s.heap last = none) (hmade : last < s.nodes) : Shape s [] true

structure Represents (s : State V) (values : List V) (used : Bool) : Prop where
  unmade : ∀ a, s.nodes ≤ a → s.heap a = none
  shape : Shape s values used

theorem Represents.initial : Represents (State.initial V) [] false :=
  ⟨fun _ _ => rfl, .fresh rfl rfl⟩

variable {s : State V} {values : List V} {used : Bool}

/-- Allocated addresses were made before. -/
theorem Represents.made (h : Represents s values used) {a : Nat} (ha : s.heap a ≠ none) :
    a < s.nodes := by
  by_contra hle
  exact ha (h.unmade a (Nat.le_of_not_lt hle))

/-- The last node of a queue is not among the nodes before it. -/
theorem last_notMem {cells : List (Nat × V)} {last : Nat}
    (hnodup : (cells.map Prod.fst ++ [last]).Nodup) : last ∉ cells.map Prod.fst := by
  intro hmem
  exact (List.nodup_append.mp hnodup).2.2 _ hmem _ (List.mem_singleton_self _) rfl

theorem Represents.push (h : Represents s values used) (hok : values ≠ [] ∨ used = false)
    (value : V) : ∃ s', s.push value = .ok s' ∧ Represents s' (values ++ [value]) true := by
  have hmade := fun a => h.made (a := a)
  obtain ⟨hunmade, hshape⟩ := h
  cases hshape with
  | drained => simp at hok
  | fresh hhead htail =>
      refine ⟨_, by rw [State.push, htail], ?unmade, ?shape⟩
      case unmade =>
        intro a ha
        have hlt : s.nodes < a := ha
        change Function.update s.heap s.nodes _ a = none
        rw [Function.update_of_ne (by omega)]
        exact hunmade a (Nat.le_of_lt hlt)
      case shape =>
        have hone := Function.update_self s.nodes (some (⟨value, none⟩ : Node V)) s.heap
        exact .filled rfl rfl (Segment.nil _ s.nodes) hone (List.nodup_singleton _)
  | @filled first last cells lastValue hhead htail hsegment hlast hnodup =>
      have hlt : last < s.nodes := hmade last (by simp [hlast])
      have hcells : ∀ cell ∈ cells, cell.1 < s.nodes := by
        intro cell hcell
        obtain ⟨next, hlink⟩ := hsegment.link_of_mem hcell
        exact hmade cell.1 (by simp [link_eq_some_iff.mp hlink])
      have hlastMade : Function.update s.heap s.nodes (some ⟨value, none⟩) last =
          some ⟨lastValue, none⟩ := by
        rw [Function.update_of_ne (by omega), hlast]
      refine ⟨_, by
        rw [State.push, htail]
        simp only [State.deref, State.store, hlastMade]
        rfl, ?unmade, ?shape⟩
      case unmade =>
        intro a ha
        have hlt' : s.nodes < a := ha
        change Function.update (Function.update s.heap s.nodes _) last _ a = none
        rw [Function.update_of_ne (by omega), Function.update_of_ne (by omega)]
        exact hunmade a (Nat.le_of_lt hlt')
      case shape =>
        have hframe : ∀ cell ∈ cells,
            link (Function.update (Function.update s.heap s.nodes (some ⟨value, none⟩)) last
              (some ⟨lastValue, some s.nodes⟩)) cell.1 = link s.heap cell.1 := by
          intro cell hcell
          have hne : cell.1 ≠ last := by
            rintro heq
            exact last_notMem hnodup (heq ▸ List.mem_map_of_mem hcell)
          apply link_congr
          rw [Function.update_of_ne hne, Function.update_of_ne (Nat.ne_of_lt (hcells cell hcell))]
        have hlinked := Function.update_self last (some (⟨lastValue, some s.nodes⟩ : Node V))
          (Function.update s.heap s.nodes (some ⟨value, none⟩))
        have hgrown := (hsegment.frame hframe).snoc (link_eq_some_iff.mpr hlinked)
        have hnew : Function.update (Function.update s.heap s.nodes (some ⟨value, none⟩)) last
            (some ⟨lastValue, some s.nodes⟩) s.nodes = some ⟨value, none⟩ := by
          rw [Function.update_of_ne (by omega), Function.update_self]
        have hnodup' : ((cells ++ [(last, lastValue)]).map Prod.fst ++ [s.nodes]).Nodup := by
          rw [List.map_append]
          apply hnodup.append (List.nodup_singleton _)
          intro a ha hnodes
          obtain rfl := List.mem_singleton.mp hnodes
          rcases List.mem_append.mp ha with hcell | hlast
          · obtain ⟨cell, hmem, heq⟩ := List.mem_map.mp hcell
            exact Nat.lt_irrefl _ (heq ▸ hcells cell hmem)
          · have heq := List.mem_singleton.mp hlast
            omega
        have hvalues : cells.map Prod.snd ++ [lastValue] ++ [value] =
            (cells ++ [(last, lastValue)]).map Prod.snd ++ [value] := by
          simp
        rw [hvalues]
        exact .filled hhead rfl hgrown hnew hnodup'

theorem Represents.push_drained (h : Represents s [] true) (value : V) :
    ∃ fault, s.push value = .error fault := by
  obtain ⟨hunmade, hshape⟩ := h
  generalize hvalues : ([] : List V) = values at hshape
  cases hshape with
  | filled => simp at hvalues
  | @drained last hhead htail hfreed hmade =>
      have hstill : Function.update s.heap s.nodes (some ⟨value, none⟩) last = none := by
        rw [Function.update_of_ne (by omega), hfreed]
      refine ⟨.freed last, ?_⟩
      rw [State.push, htail]
      simp only [State.deref, State.store, hstill]
      rfl

theorem Represents.tryPop (h : Represents s values used) :
    ∃ s', s.tryPop = .ok (s', values.head?) ∧ Represents s' values.tail used := by
  obtain ⟨hunmade, hshape⟩ := h
  have hkept : ∀ addr a, s.nodes ≤ a → Function.update s.heap addr none a = none := by
    intro addr a ha
    rcases eq_or_ne a addr with rfl | hne
    · exact Function.update_self _ _ _
    · rw [Function.update_of_ne hne, hunmade a ha]
  cases hshape with
  | fresh hhead htail => exact ⟨s, by rw [State.tryPop, hhead]; rfl, hunmade, .fresh hhead htail⟩
  | drained hhead htail hfreed hmade =>
      exact ⟨s, by rw [State.tryPop, hhead]; rfl, hunmade, .drained hhead htail hfreed hmade⟩
  | @filled first last cells value hhead htail hsegment hlast hnodup =>
      cases cells with
      | nil =>
          obtain rfl : first = last := hsegment
          have hmade : first < s.nodes := by
            by_contra hle
            rw [hunmade first (Nat.le_of_not_lt hle)] at hlast
            cases hlast
          have hrun : s.tryPop = .ok ({ s.store first none with head := none }, some value) := by
            rw [State.tryPop, hhead]
            simp only [State.deref, hlast]
            rfl
          exact ⟨_, hrun, hkept first,
            .drained rfl htail (Function.update_self _ _ _) hmade⟩
      | cons cell rest =>
          obtain ⟨rfl, next, hlink, hrest⟩ := hsegment
          rw [List.map_cons, List.cons_append, List.nodup_cons] at hnodup
          have hother : ∀ a, a ∈ rest.map Prod.fst ++ [last] →
              Function.update s.heap cell.1 none a = s.heap a := by
            intro a ha
            refine Function.update_of_ne ?_ _ _
            rintro rfl
            exact hnodup.1 ha
          have hrun : s.tryPop =
              .ok ({ s.store cell.1 none with head := some next }, some cell.2) := by
            rw [State.tryPop, hhead]
            simp only [State.deref, link_eq_some_iff.mp hlink]
            rfl
          refine ⟨_, hrun, hkept cell.1, .filled rfl htail ?segment ?last hnodup.2⟩
          case segment =>
            exact hrest.frame fun c hc =>
              link_congr (hother c.1 (List.mem_append_left _ (List.mem_map_of_mem hc)))
          case last => exact (hother last (by simp)).trans hlast

/-- The queue does what a FIFO does up to the first push onto a drained queue,
and that push faults. -/
theorem run_cases (ops : List (QueueOp V)) :
    (PushesAfterDraining ops ∧ ∃ fault, run ops = .error fault) ∨
      ¬ PushesAfterDraining ops ∧ ∃ s, run ops = .ok (s, (fifo V).answers ops) ∧
        Represents s ((fifo V).after ops) (ops.any QueueOp.isPush) := by
  induction ops using List.reverseRecOn with
  | nil =>
      refine .inr ⟨?_, State.initial V, rfl, Represents.initial⟩
      rintro ⟨before, value, rest, heq, -⟩
      simp at heq
  | append_singleton ops op ih =>
      rw [pushesAfterDraining_concat, run_concat]
      rcases ih with ⟨hdrained, fault, hrun⟩ | ⟨hfine, s, hrun, hrep⟩
      · exact .inl ⟨.inl hdrained, fault, by rw [hrun]; rfl⟩
      · rw [hrun]
        cases op with
        | pop =>
            obtain ⟨s', hpop, hrep'⟩ := hrep.tryPop
            refine .inr ⟨?_, s', ?_, ?_⟩
            · rintro (hdrained | ⟨hpush, -⟩)
              · exact hfine hdrained
              · cases hpush
            · rw [SequentialObject.answers_concat, fifo_pop]
              change (do
                let (s'', answer) ← s.perform .pop
                return (s'', (fifo V).answers ops ++ [answer])) = _
              rw [State.perform, hpop]
              rfl
            · simpa [QueueOp.isPush] using hrep'
        | push value =>
            by_cases hok : (fifo V).after ops ≠ [] ∨ ops.any QueueOp.isPush = false
            · obtain ⟨s', hpush, hrep'⟩ := hrep.push hok value
              refine .inr ⟨?_, s', ?_, ?_⟩
              · rintro (hdrained | ⟨-, hused, hempty⟩)
                · exact hfine hdrained
                · rcases hok with hne | hunused
                  · exact hne hempty
                  · rw [hused] at hunused
                    cases hunused
              · rw [SequentialObject.answers_concat, fifo_push]
                change (do
                  let (s'', answer) ← s.perform (.push value)
                  return (s'', (fifo V).answers ops ++ [answer])) = _
                rw [State.perform, hpush]
                rfl
              · simpa [QueueOp.isPush] using hrep'
            · rw [not_or, not_not, Bool.not_eq_false] at hok
              rw [hok.1, hok.2] at hrep
              obtain ⟨fault, hpush⟩ := hrep.push_drained value
              refine .inl ⟨.inr ⟨rfl, hok.2, hok.1⟩, fault, ?_⟩
              change (do
                let (s'', answer) ← s.perform (.push value)
                return (s'', (fifo V).answers ops ++ [answer])) = _
              rw [State.perform, hpush]
              rfl

/-- `con::queue` refines a FIFO on exactly the sequences that never push after
having emptied the queue: emptying it leaves `tail` dangling. -/
theorem refinesFifo_iff (ops : List (QueueOp V)) :
    RefinesFifo ops ↔ ¬ PushesAfterDraining ops := by
  rcases run_cases ops with ⟨hdrained, fault, hrun⟩ | ⟨hfine, s, hrun, -⟩
  · constructor
    · rintro ⟨s, hok⟩
      rw [hrun] at hok
      cases hok
    · exact fun hnot => absurd hdrained hnot
  · exact ⟨fun _ => hfine, fun _ => ⟨s, hrun⟩⟩

/-- Push, pop, push: the second push writes to the freed first node. -/
theorem push_after_draining_faults : ¬ ∀ ops : List (QueueOp Nat), RefinesFifo ops := by
  intro h
  obtain ⟨s, hrun⟩ := h [.push 1, .pop, .push 2]
  have hfault : run [.push 1, .pop, .push 2] = .error (.freed 0) := rfl
  rw [hfault] at hrun
  cases hrun

end MoreCpp.Queue
