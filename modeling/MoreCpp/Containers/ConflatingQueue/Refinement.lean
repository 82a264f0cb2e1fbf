import MoreCpp.Containers.ConflatingQueue.Invariant
import MoreCpp.Library.SequentialObject

/-!
Without exceptions the conflating queue is a bounded map in order of insertion,
and an entry handed out has the value last pushed for its key.
-/

namespace MoreCpp.ConflatingQueue

open Library

variable {Key Value : Type*} [DecidableEq Key]

inductive Op (Key Value : Type*) where
  | pushOverwrite (key : Key) (value : Value)
  | pop

inductive Res (Key Value : Type*) where
  | pushed
  | popped (entry : Option (Key × Value))

/-- A pending key gets the value where it is. A new one goes to the end, and the
oldest entry makes room for it if none is left. -/
def conflate (capacity : Nat) (entries : List (Key × Value)) (key : Key) (value : Value) :
    List (Key × Value) :=
  if key ∈ entries.map Prod.fst then
    entries.map fun entry => if entry.1 = key then (key, value) else entry
  else (if entries.length < capacity then entries else entries.tail) ++ [(key, value)]

def boundedMap (Key Value : Type*) [DecidableEq Key] (capacity : Nat) :
    SequentialObject (List (Key × Value)) (Op Key Value) (Res Key Value) where
  initial := []
  apply
    | entries, .pushOverwrite key value => (conflate capacity entries key value, .pushed)
    | entries, .pop => (entries.tail, .popped entries.head?)

/-- The value last pushed for a key. -/
def lastPushed (key : Key) (ops : List (Op Key Value)) : Option Value :=
  ops.foldl (fun last op => match op with
    | .pushOverwrite k value => if k = key then some value else last
    | .pop => last) none

/-- A call in which nothing throws. -/
def State.perform (q : State Key Value) : Op Key Value → Option (State Key Value × Res Key Value)
  | .pushOverwrite key value =>
      match q.pushOverwrite .nowhere key value with
      | some (.ok (), q') => some (q', .pushed)
      | _ => none
  | .pop => q.pop.map fun (entry, q') => (q', .popped entry)

def run : State Key Value → List (Op Key Value) →
    Option (State Key Value × List (Res Key Value)) :=
  SequentialObject.runCalls State.perform

section Bounded

variable (capacity : Nat) {entries : List (Key × Value)} {key : Key} {value : Value}

theorem mem_conflate {entry : Key × Value}
    (hentry : entry ∈ conflate capacity entries key value) :
    entry = (key, value) ∨ entry ∈ entries ∧ entry.1 ≠ key := by
  unfold conflate at hentry
  split at hentry
  case isTrue =>
    obtain ⟨old, hold, rfl⟩ := List.mem_map.mp hentry
    split
    case isTrue => exact .inl rfl
    case isFalse hne => exact .inr ⟨hold, hne⟩
  case isFalse hnew =>
    have hkept : entry ∈ entries → entry.1 ≠ key := fun hold heq =>
      hnew (heq ▸ List.mem_map_of_mem hold)
    rcases List.mem_append.mp hentry with hold | hlast
    · split at hold
      · exact .inr ⟨hold, hkept hold⟩
      · exact .inr ⟨List.mem_of_mem_tail hold, hkept (List.mem_of_mem_tail hold)⟩
    · exact .inl (List.mem_singleton.mp hlast)

/-- The entries of the bounded map have the values last pushed for their keys. -/
theorem boundedMap_lastPushed (ops : List (Op Key Value)) :
    ∀ entry ∈ (boundedMap Key Value capacity).after ops, lastPushed entry.1 ops = some entry.2 := by
  induction ops using List.reverseRecOn with
  | nil => exact nofun
  | append_singleton ops op ih =>
      intro entry hentry
      rw [SequentialObject.after_concat] at hentry
      rw [lastPushed, List.foldl_concat]
      cases op with
      | pushOverwrite key value =>
          rcases mem_conflate capacity hentry with rfl | ⟨hold, hne⟩
          · exact if_pos rfl
          · exact (if_neg hne.symm).trans (ih entry hold)
      | pop => exact ih entry (List.mem_of_mem_tail hentry)

end Bounded

namespace Inv

variable {q : State Key Value}

theorem pop (h : Inv q) : ∃ q', q.pop = some (q.entries.head?, q') ∧ Inv q' ∧
    q'.capacity = q.capacity ∧ q'.entries = q.entries.tail := by
  cases hqueue : q.queue with
  | nil => exact ⟨q, by simp [State.pop, State.entries, hqueue], h, rfl,
      by simp [State.entries, hqueue]⟩
  | cons oldest rest =>
      obtain ⟨q', herase, h', hcapacity, hrest, -⟩ := h.eraseOldest hqueue
      exact ⟨q', by simp [State.pop, State.entries, hqueue, herase], h', hcapacity,
        by simp [State.entries, hqueue, hrest]⟩

/-- For a key that is not pending. -/
theorem makeRoom (h : Inv q) {key : Key} (hnew : q.pending key = none) :
    ∃ q', q.makeRoom = some q' ∧ Inv q' ∧
      q'.pending key = none ∧ q'.size < q'.capacity ∧ q'.capacity = q.capacity ∧
      q'.entries = if q.entries.length < q.capacity then q.entries else q.entries.tail := by
  have hlength : q.entries.length = q.size := List.length_map _
  have hbounded := h.bounded
  rw [hlength]
  by_cases hfull : q.size = q.capacity
  · cases hqueue : q.queue with
    | nil =>
        have hroomy := h.roomy
        rw [State.size, hqueue, List.length_nil] at hfull
        omega
    | cons oldest rest =>
        obtain ⟨q', herase, h', hcapacity, hrest, hpending⟩ := h.eraseOldest hqueue
        have hsize : q.size = q'.size + 1 := by
          rw [State.size, State.size, hqueue, hrest, List.length_cons]
        refine ⟨q', by simp [State.makeRoom, State.full, hfull, herase], h', ?_, by omega,
          hcapacity, ?_⟩
        · rw [hpending]
          rcases eq_or_ne key oldest.key with rfl | hne
          · exact Function.update_self ..
          · exact (Function.update_of_ne hne _ _).trans hnew
        · rw [if_neg (by omega)]
          simp [State.entries, hqueue, hrest]
  · exact ⟨q, by simp [State.makeRoom, State.full, hfull], h, hnew, by omega, rfl,
      by rw [if_pos (by omega)]⟩

theorem pushOverwrite (h : Inv q) (key : Key) (value : Value) :
    ∃ q', q.pushOverwrite .nowhere key value = some (.ok (), q') ∧ Inv q' ∧
      q'.capacity = q.capacity ∧ q'.entries = conflate q.capacity q.entries key value := by
  cases hpending : q.pending key with
  | some found =>
      obtain ⟨q', hassign, h', hcapacity, hentries⟩ := h.assign hpending value
      have hmem : key ∈ q.entries.map Prod.fst := by
        rw [← h.listed, hpending]
        rfl
      exact ⟨q', by simp [State.pushOverwrite, hpending, hassign], h', hcapacity,
        by rw [hentries, conflate, if_pos hmem]⟩
  | none =>
      obtain ⟨q₁, hroom, h₁, hnew, hless, hcapacity₁, hentries₁⟩ := h.makeRoom hpending
      obtain ⟨q', happend, h', hcapacity, hentries⟩ := h₁.append hnew hless value
      have hmem : key ∉ q.entries.map Prod.fst := by
        rw [← h.listed, hpending]
        exact nofun
      refine ⟨q', ?_, h', hcapacity.trans hcapacity₁, ?_⟩
      · simp [State.pushOverwrite, hpending, hroom, happend]
      · rw [hentries, hentries₁, conflate, if_neg hmem]

theorem perform (h : Inv q) (op : Op Key Value) :
    ∃ q', q.perform op =
        some (q', ((boundedMap Key Value q.capacity).apply q.entries op).2) ∧ Inv q' ∧
      q'.capacity = q.capacity ∧
      q'.entries = ((boundedMap Key Value q.capacity).apply q.entries op).1 := by
  cases op with
  | pushOverwrite key value =>
      obtain ⟨q', hpush, h', hcapacity, hentries⟩ := h.pushOverwrite key value
      exact ⟨q', by rw [State.perform, hpush]; rfl, h', hcapacity, hentries⟩
  | pop =>
      obtain ⟨q', hpop, h', hcapacity, hentries⟩ := h.pop
      exact ⟨q', by rw [State.perform, hpop]; rfl, h', hcapacity, hentries⟩

end Inv

/-- Any sequence of calls in which nothing throws: the documented invariants
hold, the answers and the entries are those of the bounded map, and a pop hands
out the value last pushed for its key. -/
theorem refines_boundedMap {capacity : Nat} {q₀ : State Key Value}
    (hmake : State.make capacity = .ok q₀) (ops : List (Op Key Value)) :
    ∃ q, run q₀ ops = some (q, (boundedMap Key Value capacity).answers ops) ∧ Documented q ∧
      q.capacity = capacity ∧ q.entries = (boundedMap Key Value capacity).after ops ∧
      ∀ entry q', q.pop = some (some entry, q') → lastPushed entry.1 ops = some entry.2 := by
  obtain ⟨h₀, hcapacity₀, hempty⟩ := Inv.make hmake
  obtain ⟨q, hrun, h, hcapacity, hentries⟩ := (boundedMap Key Value capacity).runCalls_refines
    State.perform (fun q entries => Inv q ∧ q.capacity = capacity ∧ q.entries = entries)
    (by
      rintro q _ op ⟨h, rfl, rfl⟩
      exact h.perform op) ⟨h₀, hcapacity₀, hempty⟩ ops
  refine ⟨q, hrun, h.toDocumented, hcapacity, hentries, fun entry q' hpop => ?_⟩
  obtain ⟨q'', hhead, -⟩ := h.pop
  obtain ⟨hentry, -⟩ := Prod.mk.inj (Option.some.inj (hhead.symm.trans hpop))
  apply boundedMap_lastPushed
  rw [← hentries]
  exact List.mem_of_mem_head? hentry

theorem refines_boundedMap_evicts : ∃ q : State String Nat,
    run ⟨2, [], fun _ => none, 0⟩ [.pushOverwrite "a" 1, .pushOverwrite "b" 2,
      .pushOverwrite "a" 3, .pushOverwrite "c" 4, .pop] =
        some (q, [.pushed, .pushed, .pushed, .pushed, .popped (some ("b", 2))]) ∧
      Documented q ∧ q.entries = [("c", 4)] := by
  obtain ⟨q, hrun, hdocumented, -, hentries, -⟩ := refines_boundedMap
    (show State.make 2 = .ok (⟨2, [], fun _ => none, 0⟩ : State String Nat) from rfl)
    [.pushOverwrite "a" 1, .pushOverwrite "b" 2, .pushOverwrite "a" 3, .pushOverwrite "c" 4, .pop]
  exact ⟨q, hrun, hdocumented, hentries⟩

end MoreCpp.ConflatingQueue
