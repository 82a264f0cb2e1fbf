import MoreCpp.Strings.CompactString.Model

/-!
Which memory represents which strings. A string under construction has cells not
written yet, and an object whose members are being replaced is no string.
-/

namespace MoreCpp.CompactString

open Library

/-- What an object holds. -/
inductive Content where
  /-- A length, and no array for it. -/
  | raw (length : Nat)
  | cells (cells : List Cell)

abbrev Contents := StringId → Option Content

/-- An object, or none, and its content, given the arrays. -/
inductive Stored (blocks : Nat → Option (List Cell)) : Option Compact → Option Content → Prop
  | absent : Stored blocks none none
  | raw (c : Compact) (hbuffer : c.buffer.length = bufferSize) (hptr : c.heapPtr = none) :
      Stored blocks (some c) (some (.raw c.length))
  | small (c : Compact) (hbuffer : c.buffer.length = bufferSize) (hptr : c.heapPtr = none)
      (hsmall : c.length ≤ bufferSize) :
      Stored blocks (some c) (some (.cells (c.buffer.take c.length)))
  | large (c : Compact) (b : Nat) (cells : List Cell) (hbuffer : c.buffer.length = bufferSize)
      (hptr : c.heapPtr = some b) (hblock : blocks b = some cells)
      (hlength : cells.length = c.length) (hlarge : bufferSize < c.length)
      (hmax : c.length < 2 ^ 63) : Stored blocks (some c) (some (.cells cells))

namespace Stored

variable {blocks blocks' : Nat → Option (List Cell)} {object : Option Compact} {c : Compact}
  {content : Option Content} {xs : List Cell}

/-- Only the array of the object matters. -/
theorem congr (h : Stored blocks object content)
    (hblocks : ∀ c b, object = some c → c.heapPtr = some b → blocks' b = blocks b) :
    Stored blocks' object content := by
  cases h with
  | absent => exact .absent
  | raw c hbuffer hptr => exact .raw c hbuffer hptr
  | small c hbuffer hptr hsmall => exact .small c hbuffer hptr hsmall
  | large c b cells hbuffer hptr hblock hlength hlarge hmax =>
      exact .large c b cells hbuffer hptr ((hblocks c b rfl hptr).trans hblock) hlength hlarge hmax

theorem ofBuffer (hbuffer : c.buffer.length = bufferSize) (hptr : c.heapPtr = none)
    (hsmall : c.length ≤ bufferSize) (hcells : c.buffer.take c.length = xs) :
    Stored blocks (some c) (some (.cells xs)) := by
  rw [← hcells]
  exact .small c hbuffer hptr hsmall

theorem isSome_iff (h : Stored blocks object content) : object.isSome ↔ content.isSome := by
  cases h <;> simp only [Option.isSome_none, Option.isSome_some]

theorem buffer_length (h : Stored blocks (some c) content) : c.buffer.length = bufferSize := by
  cases h with
  | raw _ hbuffer => exact hbuffer
  | small _ hbuffer => exact hbuffer
  | large _ _ _ hbuffer => exact hbuffer

theorem length_eq (h : Stored blocks (some c) (some (.cells xs))) : xs.length = c.length := by
  cases h with
  | small _ hbuffer _ hsmall => exact List.length_take_of_le (hbuffer ▸ hsmall)
  | large _ _ _ _ _ _ hlength => exact hlength

theorem length_lt (h : Stored blocks (some c) (some (.cells xs))) : c.length < 2 ^ 63 := by
  cases h with
  | small _ _ _ hsmall =>
      rw [bufferSize] at hsmall
      omega
  | large _ _ _ _ _ _ _ _ hmax => exact hmax

theorem heapPtr_isSome_iff (h : Stored blocks (some c) (some (.cells xs))) :
    c.heapPtr.isSome ↔ bufferSize < c.length := by
  cases h with
  | small _ _ hptr hsmall => simp [hptr, hsmall]
  | large _ _ _ _ hptr _ _ hlarge => simp [hptr, hlarge]

/-- An array that an object points to is there. -/
theorem block (h : Stored blocks (some c) content) {b : Nat} (hb : c.heapPtr = some b) :
    ∃ cells, blocks b = some cells ∧ cells.length = c.length := by
  cases h with
  | raw _ _ hptr => cases hptr.symm.trans hb
  | small _ _ hptr => cases hptr.symm.trans hb
  | large _ b' cells _ hptr hblock hlength =>
      cases hptr.symm.trans hb
      exact ⟨cells, hblock, hlength⟩

end Stored

/-- The strings are stored, and each array belongs to one of them. -/
structure Represents (m : Memory) (σ : Contents) : Prop where
  stored : ∀ s, Stored m.heap.blocks (m.strings s) (σ s)
  owned : ∀ b, (m.heap.blocks b).isSome → ∃ s c, m.strings s = some c ∧ c.heapPtr = some b
  unique : ∀ s s' c c' b, m.strings s = some c → m.strings s' = some c' →
    c.heapPtr = some b → c'.heapPtr = some b → s = s'
  balanced : m.heap.Balanced

namespace Represents

variable {m m' : Memory} {σ : Contents} {s o : StringId} {c : Compact} {xs ys : List Cell}

theorem initial : Represents .initial fun _ => none where
  stored _ := .absent
  owned b hsome := by cases hsome
  unique := nofun
  balanced := .empty

theorem absent (h : Represents m σ) (hs : σ s = none) : m.strings s = none := by
  have hiff := (h.stored s).isSome_iff
  rw [hs] at hiff
  exact Option.not_isSome_iff_eq_none.mp fun hsome => nomatch hiff.mp hsome

theorem object (h : Represents m σ) {content : Content} (hs : σ s = some content) :
    ∃ c, m.strings s = some c ∧ Stored m.heap.blocks (some c) (some content) := by
  have hstored := h.stored s
  rw [hs] at hstored
  obtain ⟨c, hc⟩ := Option.isSome_iff_exists.mp (hstored.isSome_iff.mpr rfl)
  rw [hc] at hstored
  exact ⟨c, hc, hstored⟩

theorem objectRaw (h : Represents m σ) {n : Nat} (hs : σ s = some (.raw n)) :
    ∃ c, m.strings s = some c ∧ c.buffer.length = bufferSize ∧ c.length = n ∧
      c.heapPtr = none := by
  obtain ⟨c, hc, hstored⟩ := h.object hs
  cases hstored with
  | raw _ hbuffer hptr => exact ⟨c, hc, hbuffer, rfl, hptr⟩

/-- An object of a string that has as many bytes as the string has cells. -/
theorem objectCells (h : Represents m σ) (hs : σ s = some (.cells xs)) :
    ∃ c, m.strings s = some c ∧ c.length = xs.length := by
  obtain ⟨c, hc, hstored⟩ := h.object hs
  exact ⟨c, hc, hstored.length_eq.symm⟩

theorem length_lt (h : Represents m σ) (hs : σ s = some (.cells xs)) : xs.length < 2 ^ 63 := by
  obtain ⟨c, -, hstored⟩ := h.object hs
  rw [hstored.length_eq]
  exact hstored.length_lt

/-- Failed allocations leave all as it was. -/
theorem setTime (h : Represents m σ) (time : Nat) : Represents { m with time := time } σ :=
  ⟨h.stored, h.owned, h.unique, h.balanced⟩

/-- One object changes, and its arrays with it. -/
theorem setObject (h : Represents m σ) {heap : BlockHeap UInt8} {object : Option Compact}
    {content : Option Content} (hbalanced : heap.Balanced)
    (hothers : ∀ t d b, t ≠ s → m.strings t = some d → d.heapPtr = some b →
      heap.blocks b = m.heap.blocks b ∧ ∀ c, object = some c → c.heapPtr ≠ some b)
    (howned : ∀ b, (heap.blocks b).isSome → (∃ c, object = some c ∧ c.heapPtr = some b) ∨
      ∃ t d, t ≠ s ∧ m.strings t = some d ∧ d.heapPtr = some b)
    (hstored : Stored heap.blocks object content) :
    Represents { m with strings := Function.update m.strings s object, heap := heap }
      (Function.update σ s content) := by
  have hat : ∀ t d, Function.update m.strings s object t = some d →
      t = s ∧ object = some d ∨ t ≠ s ∧ m.strings t = some d := by
    intro t d hd
    rcases eq_or_ne t s with rfl | hne
    · exact .inl ⟨rfl, by rwa [Function.update_self] at hd⟩
    · exact .inr ⟨hne, by rwa [Function.update_of_ne hne] at hd⟩
  refine ⟨fun t => ?_, fun b hb => ?_, fun t t' d d' b hd hd' hb hb' => ?_, hbalanced⟩
  · rcases eq_or_ne t s with rfl | hne
    · simp only [Function.update_self]
      exact hstored
    · simp only [Function.update_of_ne hne]
      exact (h.stored t).congr fun d b hd hb => (hothers t d b hne hd hb).1
  · rcases howned b hb with ⟨c, hc, hown⟩ | ⟨t, d, hne, hd, hown⟩
    · exact ⟨s, c, (Function.update_self s _ _).trans hc, hown⟩
    · exact ⟨t, d, (Function.update_of_ne hne ..).trans hd, hown⟩
  · rcases hat t d hd with ⟨rfl, hnew⟩ | ⟨hne, hold⟩ <;>
      rcases hat t' d' hd' with ⟨rfl, hnew'⟩ | ⟨hne', hold'⟩
    · rfl
    · exact absurd hb ((hothers t' d' b hne' hold' hb').2 d hnew)
    · exact absurd hb' ((hothers t d b hne hold hb).2 d' hnew')
    · exact h.unique t t' d d' b hold hold' hb hb'

/-- An array that is not the object's belongs to another one. -/
theorem ownedElsewhere (h : Represents m σ) {b : Nat} (hb : (m.heap.blocks b).isSome)
    (hs : ∀ c, m.strings s = some c → c.heapPtr ≠ some b) :
    ∃ t d, t ≠ s ∧ m.strings t = some d ∧ d.heapPtr = some b := by
  obtain ⟨t, d, hd, hown⟩ := h.owned b hb
  refine ⟨t, d, ?_, hd, hown⟩
  rintro rfl
  exact hs d hd hown

/-- An object changes that has no array, before and after. -/
theorem setPlain (h : Represents m σ) (hold : ∀ c, m.strings s = some c → c.heapPtr = none)
    {object : Option Compact} {content : Option Content}
    (hnew : ∀ c, object = some c → c.heapPtr = none)
    (hstored : Stored m.heap.blocks object content) :
    Represents { m with strings := Function.update m.strings s object }
      (Function.update σ s content) := by
  apply h.setObject h.balanced _ _ hstored
  · intro t d b _ _ _
    refine ⟨rfl, fun c hc hb => ?_⟩
    cases (hnew c hc).symm.trans hb
  · intro b hb
    refine .inr (h.ownedElsewhere hb fun c hc hown => ?_)
    cases (hold c hc).symm.trans hown

/-- An object is replaced after its array, if it has one, was freed. -/
theorem replace (h : Represents m σ) (hs : m.strings s = some c) :
    ∃ heap, m.heap.delete c.heapPtr = some heap ∧
      ∀ (object : Option Compact) (content : Option Content),
        (∀ c, object = some c → c.heapPtr = none) → (∀ blocks, Stored blocks object content) →
        Represents { m with strings := Function.update m.strings s object, heap := heap }
          (Function.update σ s content) := by
  cases hptr : c.heapPtr with
  | none =>
      refine ⟨m.heap, rfl, fun object content hnew hstored => h.setPlain ?_ hnew (hstored _)⟩
      intro d hd
      cases hs.symm.trans hd
      exact hptr
  | some freed =>
      have hstoredOld := h.stored s
      rw [hs] at hstoredOld
      obtain ⟨cells, hblock, -⟩ := hstoredOld.block hptr
      have hfree : m.heap.free freed = some { m.heap with
          blocks := Function.update m.heap.blocks freed none, freed := m.heap.freed ++ [freed] } := by
        rw [BlockHeap.free, hblock]
        rfl
      refine ⟨_, hfree, fun object content hnew hstored =>
        h.setObject (h.balanced.free hfree) ?_ ?_ (hstored _)⟩
      · intro t d b hne hd hb
        have hother : b ≠ freed := by
          rintro rfl
          exact hne (h.unique t s d c b hd hs hb hptr)
        refine ⟨Function.update_of_ne hother .., fun e he hown => ?_⟩
        cases (hnew e he).symm.trans hown
      · intro b hb
        have hother : b ≠ freed := by
          rintro rfl
          simp only [Function.update_self, Option.isSome_none, Bool.false_eq_true] at hb
        simp only [Function.update_of_ne hother] at hb
        refine .inr (h.ownedElsewhere hb fun d hd hown => ?_)
        cases hs.symm.trans hd
        exact hother (Option.some.inj (hown.symm.trans hptr))

/-- An object is made with an array of its own. -/
theorem allocate (h : Represents m σ) (hs : σ s = none) {n : Nat} (hlarge : bufferSize < n)
    (hmax : n < 2 ^ 63) (time : Nat) :
    Represents (Memory.construct s n (some m.heap.made)
        { m with heap := m.heap.allocate n, time := time })
      (Function.update σ s (some (.cells (.replicate n none)))) := by
  have hfresh : ∀ t d b, m.strings t = some d → d.heapPtr = some b → b ≠ m.heap.made := by
    intro t d b hd hb hmade
    have hstored := h.stored t
    rw [hd] at hstored
    obtain ⟨cells, hblock, -⟩ := hstored.block hb
    rw [hmade, h.balanced.fresh] at hblock
    cases hblock
  refine (h.setTime time).setObject (h.balanced.allocate n) ?_ ?_ (.large _ m.heap.made _ ?_ rfl
    (Function.update_self _ _ _) List.length_replicate hlarge hmax)
  · intro t d b _ hd hb
    have hne := hfresh t d b hd hb
    refine ⟨Function.update_of_ne hne .., fun c hc hown => ?_⟩
    cases hc
    exact hne (Option.some.inj hown).symm
  · intro b hb
    rcases eq_or_ne b m.heap.made with rfl | hne
    · exact .inl ⟨_, rfl, rfl⟩
    · simp only [BlockHeap.allocate, Function.update_of_ne hne] at hb
      refine .inr (h.ownedElsewhere hb fun c hc => ?_)
      cases (h.absent hs).symm.trans hc
  · exact List.length_replicate

/-- The cells of the array of a string are overwritten. -/
theorem store (h : Represents m σ) (hs : m.strings s = some c) {b : Nat}
    (hptr : c.heapPtr = some b) (hlength : xs.length = c.length) (hlarge : bufferSize < c.length)
    (hmax : c.length < 2 ^ 63) :
    Represents { m with heap := m.heap.store b xs } (Function.update σ s (some (.cells xs))) := by
  have hstored := h.stored s
  rw [hs] at hstored
  obtain ⟨cells, hblock, -⟩ := hstored.block hptr
  have hstrings : Function.update m.strings s (some c) = m.strings := by
    rw [← hs, Function.update_eq_self]
  suffices hset : Represents
      { m with strings := Function.update m.strings s (some c), heap := m.heap.store b xs }
      (Function.update σ s (some (.cells xs))) by rwa [hstrings] at hset
  apply h.setObject (h.balanced.store (by rw [hblock]; rfl)) _ _
    (.large c b xs hstored.buffer_length hptr (Function.update_self _ _ _) hlength hlarge hmax)
  · intro t d b' hne hd hb'
    have hother : b' ≠ b := by
      rintro rfl
      exact hne (h.unique t s d c b' hd hs hb' hptr)
    refine ⟨Function.update_of_ne hother .., fun e he hown => ?_⟩
    cases he
    exact hother (Option.some.inj (hown.symm.trans hptr))
  · intro b' hb'
    rcases eq_or_ne b' b with rfl | hne
    · exact .inl ⟨c, rfl, hptr⟩
    · simp only [BlockHeap.store, Function.update_of_ne hne] at hb'
      refine .inr (h.ownedElsewhere hb' fun d hd hown => ?_)
      cases hs.symm.trans hd
      exact hne (Option.some.inj (hown.symm.trans hptr))

end Represents

end MoreCpp.CompactString
