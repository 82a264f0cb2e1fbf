import MoreCpp.Containers.CircularBuffer.Model
import MoreCpp.Library.Windows
import MoreCpp.Library.SequentialObject

/-!
The circular buffer is a bounded queue. The slot at each offset from the head
has the value at that place of the queue, and beyond the queue's end none.
-/

namespace MoreCpp.CircularBuffer

open Library

variable {V : Type*}

/-- The oldest value, if there is one. -/
def oldest : List V → Except Exn V
  | [] => .error (.outOfRange "CB is empty.")
  | value :: _ => .ok value

/-- The bounded queue, oldest value first. -/
def boundedFifo (V : Type*) (capacity : Nat) : SequentialObject (List V) (Op V) (Res V) where
  initial := []
  apply
    | queue, .push value =>
        if queue.length < capacity then (queue ++ [value], .pushed true) else (queue, .pushed false)
    | queue, .pushOverwrite value =>
        ((if queue.length < capacity then queue else queue.tail) ++ [value], .overwritten)
    | queue, .pop => (queue.tail, .popped queue.head?)
    | queue, .front => (queue, .fronted (oldest queue))

/-- The buffer stands for a queue. -/
structure Represents (b : State V) (queue : List V) : Prop where
  size : b.size = queue.length
  bounded : queue.length ≤ b.capacity
  head : b.head < b.capacity
  tail : b.tail = windowSlot b.capacity b.head b.size
  slot : ∀ i < b.capacity, b.buffer[windowSlot b.capacity b.head i]? = some queue[i]?

/-- The state the class documents. -/
structure Documented (b : State V) : Prop where
  head : b.head < b.capacity
  tail : b.tail < b.capacity
  window : b.tail = (b.head + b.size) % b.capacity
  bounded : b.size ≤ b.capacity
  engaged : ∀ j < b.capacity, (∃ value, b.buffer[j]? = some (some value)) ↔
    ∃ i < b.size, j = (b.head + i) % b.capacity

namespace Represents

variable {b : State V} {queue : List V}

theorem make {capacity : Nat} (h : State.make capacity = .ok b) :
    Represents b [] ∧ b.capacity = capacity := by
  unfold State.make at h
  split at h
  case isTrue => cases h
  case isFalse hcapacity =>
    obtain rfl := Except.ok.inj h
    have hlength : (List.replicate capacity (none : Option V)).length = capacity :=
      List.length_replicate
    refine ⟨⟨rfl, Nat.zero_le _, ?_, ?_, fun i hi => ?_⟩, hlength⟩
    · change 0 < (List.replicate capacity none).length
      omega
    · rw [windowSlot_zero]
      change 0 < (List.replicate capacity none).length
      omega
    · rw [State.capacity, hlength] at hi ⊢
      simp [windowSlot_lt (Nat.pos_of_ne_zero hcapacity)]

theorem roomy (h : Represents b queue) : 0 < b.capacity := Nat.zero_lt_of_lt h.head

theorem tail_lt (h : Represents b queue) : b.tail < b.capacity := by
  rw [h.tail]
  exact windowSlot_lt h.roomy

theorem documented (h : Represents b queue) : Documented b where
  head := h.head
  tail := h.tail_lt
  window := h.tail
  bounded := h.size ▸ h.bounded
  engaged j hj := by
    obtain ⟨i, hi, rfl⟩ := exists_windowSlot_eq h.head hj
    rw [h.slot i hi]
    constructor
    · rintro ⟨value, hvalue⟩
      have hlt := (List.getElem?_eq_some_iff.mp (Option.some.inj hvalue)).1
      exact ⟨i, h.size ▸ hlt, rfl⟩
    · rintro ⟨i', hi', heq⟩
      have hbounded := h.bounded
      rw [h.size] at hi'
      obtain rfl := windowSlot_inj hi (by omega) heq
      exact ⟨queue[i], by rw [List.getElem?_eq_getElem hi']⟩

/-- `push` where there is room, and `push_overwrite` too. -/
theorem append (h : Represents b queue) (hroom : queue.length < b.capacity) (value : V) :
    Represents { b with
      buffer := b.buffer.set b.tail (some value)
      tail := (b.tail + 1) % b.capacity
      size := b.size + 1 } (queue ++ [value]) := by
  have hcapacity : ∀ head tail size, State.capacity ⟨b.buffer.set b.tail (some value), head, tail,
      size⟩ = b.capacity := fun _ _ _ => List.length_set ..
  have htail := h.tail
  rw [h.size] at htail
  refine ⟨?_, ?_, ?_, ?_, fun i hi => ?_⟩
  · rw [List.length_append, List.length_singleton, h.size]
  · rw [List.length_append, List.length_singleton, hcapacity]
    exact hroom
  · rw [hcapacity]
    exact h.head
  · rw [hcapacity]
    change (b.tail + 1) % b.capacity = windowSlot b.capacity b.head (b.size + 1)
    rw [h.tail, windowSlot_succ]
  · rw [hcapacity] at hi ⊢
    change (b.buffer.set b.tail (some value))[windowSlot b.capacity b.head i]? = _
    rcases eq_or_ne i queue.length with rfl | hne
    · rw [← htail, List.getElem?_set_self h.tail_lt, List.getElem?_concat_length]
    · have hapart : b.tail ≠ windowSlot b.capacity b.head i := fun heq =>
        hne (windowSlot_inj hi hroom (heq.symm.trans htail))
      rw [List.getElem?_set_ne hapart, h.slot i hi]
      rcases Nat.lt_or_gt_of_ne hne with hlt | hgt
      · rw [List.getElem?_append_left hlt]
      · rw [List.getElem?_eq_none (Nat.le_of_lt hgt), List.getElem?_eq_none]
        rw [List.length_append, List.length_singleton]
        exact hgt

/-- `push_overwrite` where there is no room. -/
theorem overwrite (h : Represents b queue) (hfull : queue.length = b.capacity) (value : V) :
    Represents { b with
      buffer := b.buffer.set b.tail (some value)
      head := (b.head + 1) % b.capacity
      tail := (b.tail + 1) % b.capacity } (queue.tail ++ [value]) := by
  have hcapacity : ∀ head tail size, State.capacity ⟨b.buffer.set b.tail (some value), head, tail,
      size⟩ = b.capacity := fun _ _ _ => List.length_set ..
  have hroomy := h.roomy
  have hlength : queue.tail.length + 1 = b.capacity := by
    rw [List.length_tail]
    omega
  have htail : b.tail = b.head := by
    rw [h.tail, h.size, hfull, windowSlot_cap h.head]
  refine ⟨?_, ?_, ?_, ?_, fun i hi => ?_⟩
  · rw [List.length_append, List.length_singleton, hlength]
    exact h.size.trans hfull
  · rw [List.length_append, List.length_singleton, hlength, hcapacity]
  · rw [hcapacity]
    exact Nat.mod_lt _ hroomy
  · rw [hcapacity]
    change (b.tail + 1) % b.capacity = windowSlot b.capacity ((b.head + 1) % b.capacity) b.size
    rw [windowSlot_next, ← windowSlot_succ, ← h.tail]
  · rw [hcapacity] at hi ⊢
    change
      (b.buffer.set b.tail (some value))[windowSlot b.capacity ((b.head + 1) % b.capacity) i]? = _
    rw [windowSlot_next]
    rcases eq_or_ne i queue.tail.length with rfl | hne
    · rw [hlength, windowSlot_cap h.head, ← htail, List.getElem?_set_self h.tail_lt,
        List.getElem?_concat_length]
    · have hless : i + 1 < b.capacity := by omega
      have hapart : b.tail ≠ windowSlot b.capacity b.head (i + 1) := by
        intro heq
        rw [htail, ← windowSlot_zero h.head] at heq
        have hzero := windowSlot_inj hroomy hless (by rwa [windowSlot_zero h.head] at heq ⊢)
        omega
      rw [List.getElem?_set_ne hapart, h.slot _ hless, List.getElem?_append_left (by omega),
        List.getElem?_tail]

/-- `pop` where there is a value. -/
theorem drop (h : Represents b queue) (hpos : 0 < queue.length) :
    Represents { b with
      buffer := b.buffer.set b.head none
      head := (b.head + 1) % b.capacity
      size := b.size - 1 } queue.tail := by
  have hcapacity : ∀ head tail size, State.capacity ⟨b.buffer.set b.head none, head, tail,
      size⟩ = b.capacity := fun _ _ _ => List.length_set ..
  have hroomy := h.roomy
  have hbounded := h.bounded
  have hsize := h.size
  have hlength : queue.tail.length + 1 = queue.length := by
    rw [List.length_tail]
    omega
  refine ⟨?_, ?_, ?_, ?_, fun i hi => ?_⟩
  · change b.size - 1 = queue.tail.length
    omega
  · rw [hcapacity]
    omega
  · rw [hcapacity]
    exact Nat.mod_lt _ hroomy
  · rw [hcapacity]
    change b.tail = windowSlot b.capacity ((b.head + 1) % b.capacity) (b.size - 1)
    rw [windowSlot_next, Nat.sub_add_cancel (by omega)]
    exact h.tail
  · rw [hcapacity] at hi ⊢
    change (b.buffer.set b.head none)[windowSlot b.capacity ((b.head + 1) % b.capacity) i]? = _
    rw [windowSlot_next, List.getElem?_tail]
    rcases Nat.lt_or_ge (i + 1) b.capacity with hless | hlast
    · have hapart : b.head ≠ windowSlot b.capacity b.head (i + 1) := by
        intro heq
        have hzero := windowSlot_inj hroomy hless ((windowSlot_zero h.head).trans heq)
        omega
      rw [List.getElem?_set_ne hapart, h.slot _ hless]
    · have haround : i + 1 = b.capacity := by omega
      rw [haround, windowSlot_cap h.head, List.getElem?_set_self h.head,
        List.getElem?_eq_none (by omega)]

theorem full_eq (h : Represents b queue) : b.full = decide (queue.length = b.capacity) := by
  rw [State.full, h.size]

theorem empty_eq (h : Represents b queue) : b.empty = queue.isEmpty := by
  rw [State.empty, h.size]
  cases queue <;> simp

theorem assign (b : State V) {index : Nat} (hindex : index < b.capacity) (slot : Option V) :
    b.assign index slot = some { b with buffer := b.buffer.set index slot } :=
  if_pos hindex

theorem push (h : Represents b queue) (value : V) :
    ∃ b', b.push value = some (decide (queue.length < b.capacity), b') ∧
      b'.capacity = b.capacity ∧
      Represents b' (if queue.length < b.capacity then queue ++ [value] else queue) := by
  have hbounded := h.bounded
  by_cases hroom : queue.length < b.capacity
  · have hfull : b.full = false := by
      rw [h.full_eq]
      exact decide_eq_false (by omega)
    rw [if_pos hroom, decide_eq_true hroom]
    refine ⟨_, ?_, ?_, h.append hroom value⟩
    · simp [State.push, hfull, assign b h.tail_lt, State.getNextIdx, State.capacity]
    · exact List.length_set ..
  · have hfull : b.full = true := by
      rw [h.full_eq]
      exact decide_eq_true (by omega)
    rw [if_neg hroom, decide_eq_false hroom]
    exact ⟨b, by simp [State.push, hfull], rfl, h⟩

theorem pushOverwrite (h : Represents b queue) (value : V) :
    ∃ b', b.pushOverwrite value = some b' ∧ b'.capacity = b.capacity ∧
      Represents b' ((if queue.length < b.capacity then queue else queue.tail) ++ [value]) := by
  have hbounded := h.bounded
  have hsize := h.size
  by_cases hroom : queue.length < b.capacity
  · have hfull : b.size ≠ b.buffer.length := by
      change b.size ≠ b.capacity
      omega
    rw [if_pos hroom]
    refine ⟨_, ?_, ?_, h.append hroom value⟩
    · simp [State.pushOverwrite, State.full, assign b h.tail_lt, State.getNextIdx, State.capacity,
        hfull]
    · exact List.length_set ..
  · have hlength : queue.length = b.capacity := by omega
    have hfull : b.size = b.buffer.length := hsize.trans hlength
    rw [if_neg hroom]
    refine ⟨_, ?_, ?_, h.overwrite hlength value⟩
    · simp [State.pushOverwrite, State.full, assign b h.tail_lt, State.getNextIdx, State.capacity,
        hfull]
    · exact List.length_set ..

theorem head_slot (h : Represents b queue) : b.buffer[b.head]? = some queue.head? := by
  have hslot := h.slot 0 h.roomy
  rwa [windowSlot_zero h.head, ← List.head?_eq_getElem?] at hslot

theorem pop (h : Represents b queue) : ∃ b', b.pop = some (queue.head?, b') ∧
    b'.capacity = b.capacity ∧ Represents b' queue.tail := by
  have hempty := h.empty_eq
  have hslot := h.head_slot
  cases queue with
  | nil => exact ⟨b, by simp [State.pop, hempty], rfl, h⟩
  | cons value rest =>
      refine ⟨_, ?_, ?_, h.drop (Nat.succ_pos _)⟩
      · simp [State.pop, hempty, hslot, assign b h.head, State.getNextIdx, State.capacity]
      · exact List.length_set ..

theorem front (h : Represents b queue) : b.front = some (oldest queue) := by
  have hempty := h.empty_eq
  have hslot := h.head_slot
  cases queue <;> simp [State.front, hempty, hslot, oldest]

/-- Going through the buffer from an offset on meets the values from there on. -/
theorem logical_from (h : Represents b queue) (count offset : Nat)
    (hcount : offset + count = queue.length) :
    b.logical count (windowSlot b.capacity b.head offset) = some (queue.drop offset) := by
  induction count generalizing offset with
  | zero => rw [State.logical, List.drop_eq_nil_of_le (by omega)]
  | succ count ih =>
      have hless : offset < queue.length := by omega
      have hbounded := h.bounded
      have hslot := h.slot offset (by omega)
      rw [List.getElem?_eq_getElem hless] at hslot
      have hnext : b.getNextIdx (windowSlot b.capacity b.head offset) =
          windowSlot b.capacity b.head (offset + 1) := windowSlot_succ
      have hrest := ih (offset + 1) (by omega)
      rw [List.drop_eq_getElem_cons hless]
      simp [State.logical, hslot, hnext, hrest]

theorem logical (h : Represents b queue) : b.logical b.size b.head = some queue := by
  have hall := h.logical_from b.size 0 (by rw [Nat.zero_add, h.size])
  rwa [windowSlot_zero h.head] at hall

theorem perform (h : Represents b queue) (op : Op V) :
    ∃ b', b.perform op = some (b', ((boundedFifo V b.capacity).apply queue op).2) ∧
      b'.capacity = b.capacity ∧
      Represents b' ((boundedFifo V b.capacity).apply queue op).1 := by
  cases op with
  | push value =>
      obtain ⟨b', hpush, hcapacity, h'⟩ := h.push value
      refine ⟨b', ?_, hcapacity, ?_⟩
      · rw [State.perform, hpush, boundedFifo]
        by_cases hroom : queue.length < b.capacity <;> simp [hroom]
      · rw [boundedFifo]
        by_cases hroom : queue.length < b.capacity <;> simpa [hroom] using h'
  | pushOverwrite value =>
      obtain ⟨b', hpush, hcapacity, h'⟩ := h.pushOverwrite value
      exact ⟨b', by rw [State.perform, hpush]; rfl, hcapacity, h'⟩
  | pop =>
      obtain ⟨b', hpop, hcapacity, h'⟩ := h.pop
      exact ⟨b', by rw [State.perform, hpop]; rfl, hcapacity, h'⟩
  | front => exact ⟨b, by rw [State.perform, h.front]; rfl, rfl, h⟩

end Represents

/-- After any sequence of calls the documented state holds, and the answers and
the values in logical order are those of the bounded queue. -/
theorem refines_boundedFifo {capacity : Nat} {b₀ : State V}
    (hmake : State.make capacity = .ok b₀) (ops : List (Op V)) :
    ∃ b, SequentialObject.runCalls State.perform b₀ ops =
        some (b, (boundedFifo V capacity).answers ops) ∧
      b.capacity = capacity ∧ Documented b ∧
      b.logical b.size b.head = some ((boundedFifo V capacity).after ops) := by
  obtain ⟨h₀, hcapacity₀⟩ := Represents.make hmake
  obtain ⟨b, hrun, hcapacity, h⟩ := (boundedFifo V capacity).runCalls_refines State.perform
    (fun b queue => b.capacity = capacity ∧ Represents b queue)
    (by
      rintro b queue op ⟨rfl, h⟩
      exact h.perform op) ⟨hcapacity₀, h₀⟩ ops
  exact ⟨b, hrun, hcapacity, h.documented, h.logical⟩

theorem refines_boundedFifo_wraps : ∃ b : State Nat,
    SequentialObject.runCalls State.perform ⟨[none, none], 0, 0, 0⟩
      [.push 1, .push 2, .push 3, .pushOverwrite 4, .pop, .front] =
        some (b, [.pushed true, .pushed true, .pushed false, .overwritten, .popped (some 2),
          .fronted (.ok 4)]) ∧ Documented b ∧ b.logical b.size b.head = some [4] := by
  obtain ⟨b, hrun, -, hdocumented, hlogical⟩ := refines_boundedFifo
    (show State.make 2 = .ok (⟨[none, none], 0, 0, 0⟩ : State Nat) from rfl)
    [.push 1, .push 2, .push 3, .pushOverwrite 4, .pop, .front]
  exact ⟨b, hrun, hdocumented, hlogical⟩

end MoreCpp.CircularBuffer
