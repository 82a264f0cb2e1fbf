import MoreCpp.Strings.SssString.Value

/-!
Which memory represents which values of strings.
-/

namespace MoreCpp.SssString

open Library

/-- The `String` at `s`, or none, and its value, given the arrays. -/
inductive Stored (s : Nat) (blocks : Nat → Option (List Cell)) :
    Option Object → Option Value → Prop
  | absent : Stored s blocks none none
  | small (v : Value) (hsmall : v.size ≤ shortMax) :
      Stored s blocks (some ⟨v.size, .ch s, .ch v.cells⟩) (some v)
  | large (v : Value) (b : Nat) (space : Int) (hlarge : shortMax < v.size)
      (hblock : blocks b = some v.cells) (hspace : v.cells.length = v.size + 1 + space) :
      Stored s blocks (some ⟨v.size, .block b, .space space⟩) (some v)

/-- The array that an object points to. -/
def block : Option Object → Option Nat
  | some ⟨_, .block b, _⟩ => some b
  | _ => none

section Stored

variable {s b : Nat} {blocks blocks' : Nat → Option (List Cell)} {object : Option Object}
  {value : Option Value}

theorem Stored.congr (h : Stored s blocks object value)
    (hblocks : ∀ b, block object = some b → blocks' b = blocks b) :
    Stored s blocks' object value := by
  cases h with
  | absent => exact .absent
  | small v hsmall => exact .small v hsmall
  | large v b space hlarge hblock hspace =>
      exact .large v b space hlarge ((hblocks b rfl).trans hblock) hspace

theorem Stored.isSome_of_block (h : Stored s blocks object value) (hb : block object = some b) :
    (blocks b).isSome := by
  cases h with
  | absent => cases hb
  | small v hsmall => cases hb
  | large v b' space hlarge hblock hspace =>
      cases hb
      rw [hblock]
      rfl

end Stored

/-- The strings have the values, and each array belongs to one of them. -/
structure Represents (m : Memory) (values : Values) : Prop where
  stored : ∀ s, Stored s m.heap.blocks (m.strings s) (values s)
  alone : ∀ s s' b, block (m.strings s) = some b → block (m.strings s') = some b → s = s'
  owned : ∀ b, (m.heap.blocks b).isSome → ∃ s, block (m.strings s) = some b

namespace Represents

variable {m m' : Memory} {values : Values} {s : Nat} {v : Value} {object : Option Object}
  {value : Option Value}

theorem initial : Represents .initial fun _ => none where
  stored _ := .absent
  alone _ _ _ hb := nomatch hb
  owned _ hb := nomatch hb

theorem congr (h : Represents m values) (hstrings : m'.strings = m.strings)
    (hheap : m'.heap = m.heap) : Represents m' values := by
  refine ⟨?_, ?_, ?_⟩
  · rw [hstrings, hheap]
    exact h.stored
  · rw [hstrings]
    exact h.alone
  · rw [hstrings, hheap]
    exact h.owned

theorem at_some (h : Represents m values) (hs : values s = some v) :
    Stored s m.heap.blocks (m.strings s) (some v) := hs ▸ h.stored s

theorem absent (h : Represents m values) (hs : m.strings s = none) : values s = none := by
  have hstored := h.stored s
  rw [hs] at hstored
  cases hvalue : values s with
  | none => rfl
  | some v =>
      rw [hvalue] at hstored
      nomatch hstored

theorem present (h : Represents m values) (hs : (m.strings s).isSome) : ∃ v, values s = some v := by
  have hstored := h.stored s
  cases hvalue : values s with
  | some v => exact ⟨v, rfl⟩
  | none =>
      rw [hvalue] at hstored
      generalize m.strings s = object at hs hstored
      cases hstored
      cases hs

/-- One string changes, and the array it owns with it. -/
theorem change (h : Represents m values)
    (hstrings : m'.strings = Function.update m.strings s object)
    (hheap : m.heap.Exchanged m'.heap (block (m.strings s)) (block object))
    (hstored : Stored s m'.heap.blocks object value) :
    Represents m' (Function.update values s value) := by
  have hself : m'.strings s = object := by rw [hstrings, Function.update_self]
  have hother : ∀ t, t ≠ s → m'.strings t = m.strings t := by
    intro t hne
    rw [hstrings, Function.update_of_ne hne]
  have hapart : ∀ t b, t ≠ s → block (m.strings t) = some b →
      block (m.strings s) ≠ some b ∧ block object ≠ some b := by
    intro t b hne hb
    have hold : block (m.strings s) ≠ some b := fun hs => hne (h.alone t s b hb hs)
    refine ⟨hold, fun hnew => ?_⟩
    have hnone := (hheap.fresh b hnew).resolve_left hold
    have hsome := (h.stored t).isSome_of_block hb
    rw [hnone] at hsome
    cases hsome
  refine ⟨fun t => ?_, fun t t' b hb hb' => ?_, fun b hb => ?_⟩
  · rcases eq_or_ne t s with rfl | hne
    · rw [hself, Function.update_self]
      exact hstored
    · rw [hother t hne, Function.update_of_ne hne]
      apply (h.stored t).congr
      intro b hb
      exact hheap.kept b (hapart t b hne hb).1 (hapart t b hne hb).2
  · by_cases hts : t = s <;> by_cases hts' : t' = s
    · rw [hts, hts']
    · rw [hts, hself] at hb
      rw [hother t' hts'] at hb'
      exact absurd hb (hapart t' b hts' hb').2
    · rw [hts', hself] at hb'
      rw [hother t hts] at hb
      exact absurd hb' (hapart t b hts hb).2
    · rw [hother t hts] at hb
      rw [hother t' hts'] at hb'
      exact h.alone t t' b hb hb'
  · by_cases hnew : block object = some b
    · exact ⟨s, hself ▸ hnew⟩
    · by_cases hold : block (m.strings s) = some b
      · rw [hheap.gone b hold hnew] at hb
        cases hb
      · rw [hheap.kept b hold hnew] at hb
        obtain ⟨t, ht⟩ := h.owned b hb
        have hne : t ≠ s := by
          rintro rfl
          exact hold ht
        exact ⟨t, hother t hne ▸ ht⟩

end Represents

end MoreCpp.SssString
