import MoreCpp.Strings.SssString.Operations

/-!
Copies, moves and destruction of strings, which may own an array already.
-/

namespace MoreCpp.SssString

open Library

namespace Represents

variable {E : Setting} {m : Memory} {values : Values} {s x : Nat} {v w : Value}
  {heap : BlockHeap UInt8} {new : Option Nat}

/-- What a string owned is freed, after it may have got another array. -/
theorem deleteOld (h : Represents m values) (hs : values s = some w) (m' : Memory)
    (hheap : m.heap.Exchanged m'.heap none new) (hb : m'.heap.Balanced) :
    ∃ object, m.strings s = some object ∧ ∃ heap,
      m'.deleteArray (if shortMax < object.sz then some object.ptr else none) =
        some { m' with heap := heap } ∧
      m.heap.Exchanged heap (block (m.strings s)) new ∧ heap.Balanced ∧
      ∀ b, new = some b → heap.blocks b = m'.heap.blocks b := by
  rcases Nat.lt_or_ge shortMax w.size with hlarge | hsmall
  · obtain ⟨b, space, hobject, hblock, -⟩ := h.large hs hlarge
    have hnew : new ≠ some b := by
      intro heq
      have hnone := (hheap.fresh b heq).resolve_left nofun
      cases hnone.symm.trans hblock
    have hkept : m'.heap.blocks b = some w.cells := (hheap.kept b nofun hnew).trans hblock
    obtain ⟨heap, hfree⟩ := BlockHeap.exists_free hkept
    refine ⟨_, hobject, heap, ?_, ?_, hb.free hfree, fun b' hb' => ?_⟩
    · rw [if_pos (Int.ofNat_lt.mpr hlarge), Memory.deleteArray, hfree]
      rfl
    · rw [hobject]
      exact hheap.free hfree
    · apply BlockHeap.free_blocks hfree
      rintro rfl
      exact hnew hb'
  · obtain ⟨hobject, -⟩ := h.small hs hsmall
    refine ⟨_, hobject, m'.heap, ?_, ?_, hb, fun _ _ => rfl⟩
    · rw [if_neg (Int.not_lt.mpr (Int.ofNat_le.mpr hsmall))]
      rfl
    · rw [hobject]
      exact hheap

/-- Before the string gives up what it had, it has got a copy, or all is as it was. -/
theorem copyFrom (h : Represents m values) (hb : m.heap.Balanced) (s : Nat)
    (hx : values x = some v) :
    m.copyFrom E s x = some (.error .badAlloc, m.tick) ∨
      ∃ (m' : Memory) (object : Object), m.copyFrom E s x = some (.ok (), m'.put s object) ∧
        m'.strings = m.strings ∧ m.heap.Exchanged m'.heap none (block (some object)) ∧
        m'.heap.Balanced ∧ Stored s m'.heap.blocks (some object) (some v.copy) := by
  obtain ⟨chars, hchars, hle⟩ := v.terminated
  have hsize : v.copy.size = v.size := rfl
  have hcopy : v.copy.cells = v.copied := rfl
  rw [Memory.copyFrom]
  rcases Nat.lt_or_ge shortMax v.size with hlarge | hsmall
  · obtain ⟨b, space, hobject, hblock, -⟩ := h.large hx hlarge
    rw [hobject]
    simp only [Option.bind_eq_bind, Option.bind_some]
    rw [if_neg (by omega)]
    have hcells : m.cells (.block b) = some v.cells := hblock
    rcases expand_cases (n := v.size + 1) E hcells hchars (by omega) hb with hexpand | hexpand
    · exact .inl ((congrArg (Option.bind · _) hexpand).trans rfl)
    · refine .inr ⟨m.expanded (v.size + 1) v.cells, ⟨v.size, .block m.heap.made, .space 0⟩,
        (congrArg (Option.bind · _) hexpand).trans rfl, rfl, expanded_exchanged hb _ _,
        expanded_balanced hb _ _, .large v.copy m.heap.made 0 hlarge ?_ ?_⟩
      · rw [hcopy, Value.copied, if_neg (by omega)]
        exact expanded_block
      · rw [hcopy, v.copied_length, if_neg (by omega), hsize]
        omega
  · obtain ⟨hobject, -⟩ := h.small hx hsmall
    rw [hobject]
    simp only [Option.bind_eq_bind, Option.bind_some]
    rw [if_pos (by omega), update_eq put_self, put_put]
    refine .inr ⟨m, ⟨v.size, .ch s, .ch v.cells⟩, rfl, rfl, .refl _ _, hb, ?_⟩
    have hcopied : v.copy.cells = v.cells := by
      rw [hcopy, Value.copied, if_pos hsmall]
    rw [← hcopied]
    exact .small v.copy hsmall

theorem copy (h : Represents m values) (hb : m.heap.Balanced) (hs : m.strings s = none)
    (hx : values x = some v) : ∃ result, m.copyFrom E s x = some result ∧
      Outcome values (values.copy s x) result := by
  rw [Values.copy, hx]
  rcases h.copyFrom (E := E) hb s hx with hfail | ⟨m', object, hrun, hstrings, hheap, hb', hstored⟩
  · exact ⟨_, hfail, .failed h.tick hb⟩
  · refine ⟨_, hrun, .done (h.change ?_ ?_ hstored) hb'⟩
    · rw [put_strings, hstrings]
    · rw [hs]
      exact hheap

theorem copyAssign (h : Represents m values) (hb : m.heap.Balanced) (hs : values s = some w)
    (hx : values x = some v) (hne : s ≠ x) : ∃ result, m.copyAssign E s x = some result ∧
      Outcome values (values.copy s x) result := by
  rw [Values.copy, hx, Memory.copyAssign, if_neg hne]
  rcases h.copyFrom (E := E) hb s hx with hfail | ⟨m', object, hrun, hstrings, hheap, hb', hstored⟩
  · obtain ⟨old, hold, -⟩ := h.deleteOld hs m (.refl m.heap none) hb
    refine ⟨(.error .badAlloc, m.tick), ?_, .failed h.tick hb⟩
    rw [hold, hfail]
    rfl
  · obtain ⟨old, hold, heap, hdelete, hexchanged, hbalanced, hkept⟩ :=
      h.deleteOld hs (m'.put s object) hheap hb'
    refine ⟨(.ok (), { m'.put s object with heap := heap }), ?_,
      .done (h.change ?_ hexchanged (hstored.congr hkept)) hbalanced⟩
    · rw [hold, hrun]
      simp only [Option.bind_eq_bind, Option.bind_some, Memory.onward, hdelete, Option.map_some]
    · rw [put_strings, hstrings]

/-- The string gets what `x` had, after it gave up what it had. -/
theorem moveFrom (h : Represents m values) (hx : values x = some v) (hne : s ≠ x)
    (hheap : m.heap.Exchanged heap (block (m.strings s)) none) :
    ∃ m', Memory.moveFrom s x { m with heap := heap } = some m' ∧ m'.heap = heap ∧
      Represents m' (values.move s x) := by
  rw [Values.move, hx, Memory.moveFrom]
  rcases Nat.lt_or_ge shortMax v.size with hlarge | hsmall
  · obtain ⟨b, space, hobject, hblock, hspace⟩ := h.large hx hlarge
    have hmoved : v.moved = .empty := if_neg (Nat.not_le.mpr hlarge)
    have hother : block (m.strings s) ≠ some b := by
      intro heq
      exact hne (h.alone s x b heq (by rw [hobject]; rfl))
    have hother_x : Memory.strings (Memory.put s ⟨v.size, .block b, .space space⟩
        { m with heap := heap }) x = some ⟨v.size, .block b, .space space⟩ :=
      (Function.update_of_ne hne.symm ..).trans hobject
    have hwrite := write_ch (c := 0) (n := 0) (put_self (s := x) (x := ⟨0, .ch x, .space space⟩)
      (m := Memory.put s ⟨v.size, .block b, .space space⟩ { m with heap := heap }))
      (show 0 < noChars.length by decide)
    rw [put_put] at hwrite
    rw [hobject]
    simp only [Option.bind_eq_bind, Option.bind_some, Union.getSpace, update_eq hother_x]
    rw [if_neg (Int.not_le.mpr (Int.ofNat_lt.mpr hlarge))]
    refine ⟨_, hwrite, rfl, ?_⟩
    -- on the way the array belongs to neither of the two
    have hmid : Represents { m.put x ⟨0, .ch x, .ch (noChars.set 0 (some 0))⟩ with
        heap := { m.heap with blocks := Function.update m.heap.blocks b none } }
        (Function.update values x (some .empty)) := by
      refine h.change rfl ?_ (.small .empty (Nat.zero_le _))
      rw [hobject]
      refine ⟨fun b' hold _ => ?_, fun b' hold _ => ?_, fun b' hnew => ?_⟩
      · exact Function.update_of_ne (fun heq => hold (congrArg some heq.symm)) ..
      · obtain rfl : b = b' := Option.some.inj hold
        exact Function.update_self ..
      · exact absurd hnew (Option.some_ne_none b').symm
    rw [Option.map_some, hmoved]
    apply hmid.change (Function.update_comm hne ..)
    · have hs : block (Function.update m.strings x
          (some ⟨0, .ch x, .ch (noChars.set 0 (some 0))⟩) s) = block (m.strings s) := by
        rw [Function.update_of_ne hne]
      rw [put_strings, hs]
      refine ⟨fun b' hold hnew => ?_, fun b' hold _ => ?_, fun b' hnew => .inr ?_⟩
      · have hb' : b' ≠ b := fun heq => hnew (congrArg some heq.symm)
        have hkept := hheap.kept b' hold (Option.some_ne_none b').symm
        exact hkept.trans (Function.update_of_ne hb' ..).symm
      · exact hheap.gone b' hold (Option.some_ne_none b').symm
      · obtain rfl : b = b' := Option.some.inj hnew
        exact Function.update_self ..
    · have hkept := hheap.kept b hother (Option.some_ne_none b).symm
      exact .large v b space hlarge (hkept.trans hblock) hspace
  · obtain ⟨hobject, -⟩ := h.small hx hsmall
    have hmoved : v.moved = v := if_pos hsmall
    have hkept : Function.update values x (some v) = values := by
      rw [← hx, Function.update_eq_self]
    rw [hobject]
    simp only [Option.bind_eq_bind, Option.bind_some]
    rw [if_pos (Int.ofNat_le.mpr hsmall), update_eq put_self, put_put, Option.map_some, hmoved,
      hkept]
    exact ⟨_, rfl, rfl, h.change rfl hheap (.small v hsmall)⟩

theorem move (h : Represents m values) (hb : m.heap.Balanced) (hs : m.strings s = none)
    (hx : values x = some v) (hne : s ≠ x) : ∃ m', m.moveFrom s x = some m' ∧
      Represents m' (values.move s x) ∧ m'.heap.Balanced := by
  have hheap : m.heap.Exchanged m.heap (block (m.strings s)) none := by
    rw [hs]
    exact .refl _ _
  obtain ⟨m', hrun, hsame, h'⟩ := h.moveFrom hx hne hheap
  exact ⟨m', hrun, h', hsame ▸ hb⟩

theorem release (h : Represents m values) (hb : m.heap.Balanced) (hs : values s = some w) :
    ∃ heap, m.release s = some { m with heap := heap } ∧
      m.heap.Exchanged heap (block (m.strings s)) none ∧ heap.Balanced := by
  obtain ⟨object, hobject, heap, hdelete, hheap, hbalanced, -⟩ :=
    h.deleteOld hs m (.refl m.heap none) hb
  refine ⟨heap, ?_, hheap, hbalanced⟩
  rw [Memory.release, hobject, ← hdelete]
  simp only [Option.bind_eq_bind, Option.bind_some]
  split <;> rfl

theorem moveAssign (h : Represents m values) (hb : m.heap.Balanced) (hs : values s = some w)
    (hx : values x = some v) (hne : s ≠ x) : ∃ m', m.moveAssign s x = some m' ∧
      Represents m' (values.move s x) ∧ m'.heap.Balanced := by
  obtain ⟨heap, hrelease, hheap, hbalanced⟩ := h.release hb hs
  obtain ⟨m', hrun, hsame, h'⟩ := h.moveFrom hx hne hheap
  refine ⟨m', ?_, h', hsame ▸ hbalanced⟩
  rw [Memory.moveAssign, if_neg hne, hrelease]
  exact hrun

theorem destroy (h : Represents m values) (hb : m.heap.Balanced) (hE : E.Releases)
    (hs : values s = some w) : ∃ m', E.destructor s m = some m' ∧
      Represents m' (Function.update values s none) ∧ m'.heap.Balanced := by
  obtain ⟨heap, hrelease, hheap, hbalanced⟩ := h.release hb hs
  obtain ⟨object, hobject, -⟩ := h.deleteOld hs m (.refl m.heap none) hb
  refine ⟨Memory.erase s { m with heap := heap }, ?_, h.change rfl hheap .absent, hbalanced⟩
  rw [hE s m (by rw [hobject]; rfl), hrelease]
  rfl

/-- Every permitted call is defined. -/
theorem perform (h : Represents m values) (hb : m.heap.Balanced) (hE : E.Releases) {op : Op}
    (hop : m.Permitted op) : ∃ result, m.perform E op = some result ∧
      Outcome values (values.apply op) result := by
  cases op with
  | default s =>
      obtain ⟨m', hrun, h', hb'⟩ := h.default hb hop
      exact ⟨(.ok (), m'), congrArg (Option.map _) hrun, .done h' hb'⟩
  | fromCString s p => exact h.fromCString hb hop p
  | copy s x =>
      obtain ⟨v, hx⟩ := h.present hop.2
      exact h.copy hb hop.1 hx
  | move s x =>
      obtain ⟨v, hx⟩ := h.present hop.2
      have hne : s ≠ x := by
        rintro rfl
        cases (h.absent hop.1).symm.trans hx
      obtain ⟨m', hrun, h', hb'⟩ := h.move hb hop.1 hx hne
      exact ⟨(.ok (), m'), congrArg (Option.map _) hrun, .done h' hb'⟩
  | copyAssign s x =>
      obtain ⟨w, hs⟩ := h.present hop.1
      obtain ⟨v, hx⟩ := h.present hop.2
      rw [Memory.perform, Values.apply]
      split
      · rename_i heq
        exact ⟨_, if_pos heq, .done h hb⟩
      · rename_i hne
        exact h.copyAssign hb hs hx hne
  | moveAssign s x =>
      obtain ⟨w, hs⟩ := h.present hop.1
      obtain ⟨v, hx⟩ := h.present hop.2
      rw [Memory.perform, Values.apply]
      split
      · rename_i heq
        exact ⟨(.ok (), m), congrArg (Option.map _) (if_pos heq), .done h hb⟩
      · rename_i hne
        obtain ⟨m', hrun, h', hb'⟩ := h.moveAssign hb hs hx hne
        exact ⟨(.ok (), m'), congrArg (Option.map _) hrun, .done h' hb'⟩
  | append s c =>
      obtain ⟨v, hs⟩ := h.present hop
      rw [Values.apply, hs]
      exact h.append hb hs c
  | destroy s =>
      obtain ⟨v, hs⟩ := h.present hop
      obtain ⟨m', hrun, h', hb'⟩ := h.destroy hb hE hs
      exact ⟨(.ok (), m'), congrArg (Option.map _) hrun, .done h' hb'⟩

end Represents

end MoreCpp.SssString
