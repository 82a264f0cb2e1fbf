import MoreCpp.Containers.ConflatingQueue.Refinement
import MoreCpp.Library.TransitionSystem

/-!
What an exception does to the conflating queue. The oldest entry is evicted
before the new one is allocated, and the new one is in the list before it is in
the map, so a call that throws can lose an entry, or leave one that the map does
not know.
-/

namespace MoreCpp.ConflatingQueue

open Library

variable {Key Value : Type*} [DecidableEq Key]

/-- A call on the queue, and where it is thrown out of. -/
inductive Call (Key Value : Type*) where
  | pushOverwrite (fault : Fault) (key : Key) (value : Value)
  | pop

def State.attempt (q : State Key Value) : Call Key Value → Option (State Key Value)
  | .pushOverwrite fault key value => (q.pushOverwrite fault key value).map Prod.snd
  | .pop => q.pop.map Prod.snd

def system (Key Value : Type*) [DecidableEq Key] (capacity : Nat) :
    System (State Key Value) (Call Key Value) where
  Init q := State.make capacity = .ok q
  Step q call q' := q.attempt call = some q'

/-- A call that throws leaves the documented invariants and the entries as they were. -/
def FailsAtomically (q : State Key Value) (fault : Fault) (key : Key) (value : Value) : Prop :=
  ∃ result q', q.pushOverwrite fault key value = some (result, q') ∧
    ∀ e, result = .error e → Documented q' ∧ q'.entries = q.entries

/-- The key is pending, or the list node cannot be allocated and nothing was
evicted for it, or nothing throws. -/
def Harmless (q : State Key Value) (fault : Fault) (key : Key) : Prop :=
  (q.pending key).isSome ∨ fault = .nowhere ∨ fault = .listNode ∧ q.full = false

def Call.Harmless (q : State Key Value) : Call Key Value → Prop
  | .pushOverwrite fault key _ => ConflatingQueue.Harmless q fault key
  | .pop => True

namespace Inv

variable {q : State Key Value} {fault : Fault} {key : Key}

/-- A push that cannot do harm keeps the invariants, and throws without effect. -/
theorem pushOverwrite_harmless (h : Inv q) (hharmless : Harmless q fault key) (value : Value) :
    ∃ result q', q.pushOverwrite fault key value = some (result, q') ∧ Inv q' ∧
      ∀ e, result = .error e → q' = q := by
  rcases hharmless with hpending | rfl | ⟨rfl, hroom⟩
  · obtain ⟨found, hfound⟩ := Option.isSome_iff_exists.mp hpending
    obtain ⟨q', hassign, h', -⟩ := h.assign hfound value
    exact ⟨.ok (), q', by simp [State.pushOverwrite, hfound, hassign], h', nofun⟩
  · obtain ⟨q', hpush, h', -⟩ := h.pushOverwrite key value
    exact ⟨.ok (), q', hpush, h', nofun⟩
  · cases hpending : q.pending key with
    | some found =>
        obtain ⟨q', hassign, h', -⟩ := h.assign hpending value
        exact ⟨.ok (), q', by simp [State.pushOverwrite, hpending, hassign], h', nofun⟩
    | none =>
        exact ⟨.error .badAlloc, q, by simp [State.pushOverwrite, hpending, State.makeRoom, hroom],
          h, fun _ _ => rfl⟩

/-- A call that fails atomically is one that cannot do harm. -/
theorem harmless_of_failsAtomically (h : Inv q) {value : Value}
    (hatomic : FailsAtomically q fault key value) : Harmless q fault key := by
  obtain ⟨result, q', hpush, hkept⟩ := hatomic
  cases hpending : q.pending key with
  | some found => exact .inl (by rw [hpending]; rfl)
  | none =>
      obtain ⟨q₁, hroom, h₁, hnew, -, -, hentries₁⟩ := h.makeRoom hpending
      cases fault with
      | nowhere => exact .inr (.inl rfl)
      | listNode =>
          have hthrew : q.pushOverwrite .listNode key value = some (.error .badAlloc, q₁) := by
            simp [State.pushOverwrite, hpending, hroom]
          obtain ⟨rfl, rfl⟩ := Prod.mk.inj (Option.some.inj (hpush.symm.trans hthrew))
          have hsame := (hkept _ rfl).2
          refine .inr (.inr ⟨rfl, Bool.eq_false_iff.mpr fun hfull => ?_⟩)
          -- the entry evicted is missing
          have hsize : q.entries.length = q.capacity :=
            (List.length_map _).trans (of_decide_eq_true hfull)
          rw [hsame, if_neg (by omega)] at hentries₁
          have hlength := congrArg List.length hentries₁
          rw [List.length_tail] at hlength
          have hroomy := h.roomy
          omega
      | mapNode =>
          have hthrew : q.pushOverwrite .mapNode key value =
              some (.error .badAlloc, q₁.emplaceBack key value) := by
            simp [State.pushOverwrite, hpending, hroom]
          obtain ⟨rfl, rfl⟩ := Prod.mk.inj (Option.some.inj (hpush.symm.trans hthrew))
          -- the new entry is in the list, and the map does not know it
          have hlisted : (q₁.pending key).isSome := by
            apply ((hkept _ rfl).1.listed key).mpr
            simp [State.entries, State.emplaceBack]
          rw [hnew] at hlisted
          cases hlisted

theorem attempt_harmless (h : Inv q) {call : Call Key Value} (hharmless : call.Harmless q)
    {q' : State Key Value} (hstep : q.attempt call = some q') : Inv q' := by
  cases call with
  | pushOverwrite fault key value =>
      obtain ⟨result, q'', hpush, h', -⟩ := h.pushOverwrite_harmless hharmless value
      rw [State.attempt, hpush] at hstep
      exact Option.some.inj hstep ▸ h'
  | pop =>
      obtain ⟨q'', hpop, h', -⟩ := h.pop
      rw [State.attempt, hpop] at hstep
      exact Option.some.inj hstep ▸ h'

end Inv

/-- In every run whose calls cannot do harm the documented invariants hold, and
a call after it fails atomically exactly if it cannot do harm. -/
theorem failsAtomically_iff (capacity : Nat) (q : State Key Value)
    (hreach : ((system Key Value capacity).restrict fun q call => call.Harmless q).Reachable q) :
    Documented q ∧ ∀ fault key value, FailsAtomically q fault key value ↔ Harmless q fault key := by
  have h : Inv q := by
    refine System.reachable_invariant _ Inv ?_ ?_ q hreach
    · exact fun q hmake => (Inv.make hmake).1
    · exact fun q call q' _ hinv hstep => hinv.attempt_harmless hstep.2 hstep.1
  refine ⟨h.toDocumented, fun fault key value =>
    ⟨h.harmless_of_failsAtomically, fun hharmless => ?_⟩⟩
  obtain ⟨result, q', hpush, h', hkept⟩ := h.pushOverwrite_harmless hharmless value
  exact ⟨result, q', hpush, fun e he => ⟨h'.toDocumented, by rw [hkept e he]⟩⟩

theorem failsAtomically_iff_full : ∃ q : State String Nat, q.entries = [("a", 1)] ∧
    ∀ fault value, FailsAtomically q fault "a" value := by
  have start : ((system String Nat 1).restrict fun q call => call.Harmless q).Reachable
      ⟨1, [], fun _ => none, 0⟩ := .start rfl
  have pushed := start.next (show System.Step (System.restrict _ _) _
    (.pushOverwrite .nowhere "a" 1) _ from ⟨rfl, .inr (.inl rfl)⟩)
  exact ⟨_, rfl, fun fault value =>
    ((failsAtomically_iff 1 _ pushed).2 fault "a" value).mpr (.inl rfl)⟩

/-- A full queue of one entry loses it when the list node of another key cannot
be allocated. -/
theorem push_overwrite_not_atomic : ¬ ∀ (capacity : Nat) (q : State String Nat),
    (system String Nat capacity).Reachable q →
      ∀ fault key value, FailsAtomically q fault key value := by
  intro hall
  have start : (system String Nat 1).Reachable ⟨1, [], fun _ => none, 0⟩ := .start rfl
  have pushed := start.next (show (system String Nat 1).Step _
    (.pushOverwrite .nowhere "a" 1) _ from rfl)
  obtain ⟨result, q', hpush, hkept⟩ := hall 1 _ pushed .listNode "b" 2
  obtain ⟨rfl, rfl⟩ := Prod.mk.inj (Option.some.inj hpush)
  have hsame := (hkept .badAlloc rfl).2
  cases hsame

end MoreCpp.ConflatingQueue
