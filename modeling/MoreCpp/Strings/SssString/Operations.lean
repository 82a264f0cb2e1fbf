import MoreCpp.Strings.SssString.Represents

/-!
Every call does to the values what it means for them, or fails and changes none.
-/

namespace MoreCpp.SssString

open Library

section Primitives

variable {E : Setting} {m : Memory} {s b n : Nat} {c : UInt8} {x : Object} {ptr : Place}
  {cells src : List Cell} {chars : List UInt8}

@[simp] theorem put_strings : (m.put s x).strings = Function.update m.strings s (some x) := rfl

@[simp] theorem put_heap : (m.put s x).heap = m.heap := rfl

@[simp] theorem put_put {y : Object} : (m.put s x).put s y = m.put s y := by
  simp [Memory.put]

theorem put_self : (m.put s x).strings s = some x := Function.update_self ..

theorem update_eq (hs : m.strings s = some x) (change : Object → Object) :
    m.update s change = some (m.put s (change x)) := by
  rw [Memory.update, hs]
  rfl

theorem write_ch (hs : m.strings s = some x) (hn : n < x.union.cells.length) :
    m.write (.ch s) n c =
      some (m.put s { x with union := .ch (x.union.cells.set n (some c)) }) := by
  simp [Memory.write, Memory.cells, Memory.setCells, hs, hn, update_eq hs]

theorem write_block (hb : m.heap.blocks b = some cells) (hn : n < cells.length) :
    m.write (.block b) n c = some { m with heap := m.heap.store b (cells.set n (some c)) } := by
  simp [Memory.write, Memory.cells, Memory.setCells, hb, hn]

theorem push_ch (hs : m.strings s = some ⟨n, .ch s, .ch cells⟩) (hn : n + 1 < cells.length) :
    m.push s c = some (m.put s ⟨n + 1, .ch s, .ch (pushed cells n c)⟩) := by
  have hfirst := write_ch (c := c) hs (show n < cells.length by omega)
  have hsecond := write_ch (c := 0) (n := n + 1)
    (put_self (m := m) (s := s) (x := ⟨n + 1, .ch s, .ch (cells.set n (some c))⟩))
    (show n + 1 < (cells.set n (some c)).length by rwa [List.length_set])
  rw [Memory.push, hs]
  simp only [Option.bind_eq_bind, Option.bind_some, hfirst, update_eq put_self, put_put]
  rw [put_put] at hsecond
  exact hsecond

theorem store_store (heap : BlockHeap UInt8) (cells cells' : List Cell) :
    (heap.store b cells).store b cells' = heap.store b cells' := by
  simp [BlockHeap.store]

theorem push_block {union : Union} (hs : m.strings s = some ⟨n, .block b, union⟩)
    (hb : m.heap.blocks b = some cells) (hn : n + 1 < cells.length) :
    m.push s c = some { m.put s ⟨n + 1, .block b, union⟩ with
      heap := m.heap.store b (pushed cells n c) } := by
  have hfirst := write_block (c := c) hb (show n < cells.length by omega)
  have hsz := update_eq (m := { m with heap := m.heap.store b (cells.set n (some c)) }) hs
    fun s => { s with sz := s.sz + 1 }
  have hsecond := write_block (c := 0) (n := n + 1)
    (m := Memory.put s ⟨n + 1, .block b, union⟩
      { m with heap := m.heap.store b (cells.set n (some c)) })
    (Function.update_self ..) (show n + 1 < (cells.set n (some c)).length by rwa [List.length_set])
  rw [put_heap, store_store] at hsecond
  rw [Memory.push, hs]
  simp only [Option.bind_eq_bind, Option.bind_some, hfirst, hsz]
  exact hsecond

theorem strcpy_block (hchars : cString 0 src = some chars) (hn : chars.length < n)
    (hb : m.heap.blocks b = some (.replicate n none)) :
    m.strcpy (.block b) src = some { m with heap := m.heap.store b (strcpyNew 0 n src) } := by
  have hcells : m.cells (.block b) = some (.replicate n none) := hb
  rw [Memory.strcpy, hcells]
  simp only [Option.bind_eq_bind, Option.bind_some, strcpy_new hchars hn, Memory.setCells]

/-- The memory after an allocation failed. -/
def Memory.tick (m : Memory) : Memory := { m with time := m.time + 1 }

/-- The memory with a new array that the string in `src` was copied to. -/
def Memory.expanded (m : Memory) (n : Nat) (src : List Cell) : Memory :=
  { m with
    heap := (m.heap.allocate n).store m.heap.made (strcpyNew 0 n src), time := m.time + 1 }

theorem expanded_block : (m.expanded n src).heap.blocks m.heap.made = some (strcpyNew 0 n src) :=
  Function.update_self ..

theorem expanded_exchanged (hb : m.heap.Balanced) (n : Nat) (src : List Cell) :
    m.heap.Exchanged (m.expanded n src).heap none (some m.heap.made) :=
  (BlockHeap.Exchanged.allocate hb n).store _

theorem expanded_balanced (hb : m.heap.Balanced) (n : Nat) (src : List Cell) :
    (m.expanded n src).heap.Balanced := by
  apply (hb.allocate n).store
  simp [BlockHeap.allocate]

theorem newArray_cases (E : Setting) (m : Memory) (n : Nat) :
    m.newArray E n = (.error .badAlloc, m.tick) ∨
      m.newArray E n =
        (.ok m.heap.made, { m with heap := m.heap.allocate n, time := m.time + 1 }) := by
  have hn : ¬ (n : Int) < 0 := by omega
  rw [Memory.newArray]
  by_cases hfails : E.fails m.time
  · exact .inl (if_pos (.inr hfails))
  · refine .inr ?_
    rw [if_neg (by simp [hn, hfails]), Int.toNat_natCast]

theorem expand_cases (E : Setting) (hcells : m.cells ptr = some src)
    (hchars : cString 0 src = some chars) (hn : chars.length < n) (hb : m.heap.Balanced) :
    m.expand E ptr n = some (.error .badAlloc, m.tick) ∨
      m.expand E ptr n = some (.ok m.heap.made, m.expanded n src) := by
  rw [Memory.expand]
  rcases newArray_cases E m n with hnew | hnew
  · rw [hnew]
    exact .inl rfl
  · rw [hnew]
    refine .inr ?_
    have hsrc : Memory.cells { m with heap := m.heap.allocate n, time := m.time + 1 } ptr =
        some src := by
      cases ptr with
      | ch s => exact hcells
      | block b =>
          have hne : b ≠ m.heap.made := by
            rintro rfl
            exact absurd (hb.fresh.symm.trans hcells) nofun
          exact (Function.update_of_ne hne ..).trans hcells
    have hstrcpy := strcpy_block (m := { m with heap := m.heap.allocate n, time := m.time + 1 })
      (b := m.heap.made) hchars hn (Function.update_self ..)
    simp only [hsrc, Option.bind_eq_bind, Option.bind_some, hstrcpy]
    rfl

end Primitives

/-- The call did what it means, or an allocation failed and nothing changed. -/
inductive Outcome (values new : Values) : Result → Prop
  | done {m : Memory} (h : Represents m new) (hb : m.heap.Balanced) :
      Outcome values new (.ok (), m)
  | failed {m : Memory} (h : Represents m values) (hb : m.heap.Balanced) :
      Outcome values new (.error .badAlloc, m)

namespace Represents

variable {E : Setting} {m : Memory} {values : Values} {s x b : Nat} {v w : Value}

theorem small (h : Represents m values) (hs : values s = some v) (hsmall : v.size ≤ shortMax) :
    m.strings s = some ⟨v.size, .ch s, .ch v.cells⟩ ∧ v.cells.length = shortMax + 1 := by
  have hroom := v.room
  rw [if_pos hsmall] at hroom
  refine ⟨?_, hroom⟩
  have hstored := h.at_some hs
  generalize m.strings s = object at hstored
  cases hstored with
  | small _ _ => rfl
  | large _ b space hlarge => exact absurd hlarge (Nat.not_lt.mpr hsmall)

theorem large (h : Represents m values) (hs : values s = some v) (hlarge : shortMax < v.size) :
    ∃ b space, m.strings s = some ⟨v.size, .block b, .space space⟩ ∧
      m.heap.blocks b = some v.cells ∧ v.cells.length = v.size + 1 + space := by
  have hstored := h.at_some hs
  generalize m.strings s = object at hstored
  cases hstored with
  | small _ hsmall => exact absurd hlarge (Nat.not_lt.mpr hsmall)
  | large _ b space _ hblock hspace => exact ⟨b, space, rfl, hblock, hspace⟩

theorem tick (h : Represents m values) : Represents m.tick values := h.congr rfl rfl

/-- A character is stored in a new array, which the string gets for what it had. -/
theorem grow (h : Represents m values) (m' : Memory) (space : Int) (c : UInt8)
    (hfull : v.cells.length = v.size + 1) (hlarge : shortMax ≤ v.size)
    (hspace : space = v.size + v.size + 2 - v.size - 2)
    (hstrings : m'.strings = m.strings) (hbalanced : m'.heap.Balanced)
    (hheap : m.heap.Exchanged m'.heap (block (m.strings s)) (some b))
    (hblock : m'.heap.blocks b = some (strcpyNew 0 (v.size + v.size + 2) v.cells)) :
    ∃ m'', (m'.put s ⟨v.size, .block b, .space space⟩).push s c = some m'' ∧
      Represents m'' (Function.update values s (some (v.append c))) ∧ m''.heap.Balanced := by
  obtain ⟨chars, hchars, hle⟩ := v.terminated
  have hlength : (strcpyNew 0 (v.size + v.size + 2) v.cells).length = v.size + v.size + 2 :=
    strcpyNew_length hchars (by omega)
  have hpush := push_block (c := c)
    (put_self (m := m') (s := s) (x := ⟨v.size, .block b, .space space⟩))
    hblock (show v.size + 1 < _ by omega)
  rw [put_put] at hpush
  refine ⟨_, hpush, ?_, hbalanced.store (by rw [hblock]; rfl)⟩
  have hput : Function.update m'.strings s (some ⟨v.size + 1, .block b, .space space⟩) =
      Function.update m.strings s (some ⟨v.size + 1, .block b, .space space⟩) := by
    rw [hstrings]
  apply h.change hput (hheap.store _)
  refine .large (v.append c) b _ (Nat.lt_succ_of_le hlarge) ?_ ?_
  · rw [Value.append_cells_of_full hfull]
    exact Function.update_self ..
  · have hsize : (v.append c).size = v.size + 1 := rfl
    rw [Value.append_cells_of_full hfull, pushed_length, hlength, hsize]
    omega

theorem append (h : Represents m values) (hb : m.heap.Balanced) (hs : values s = some v)
    (c : UInt8) : ∃ result, m.append E s c = some result ∧
      Outcome values (Function.update values s (some (v.append c))) result := by
  obtain ⟨chars, hchars, hle⟩ := v.terminated
  have hn : chars.length < v.size + v.size + 2 := by omega
  rw [Memory.append]
  rcases Nat.lt_trichotomy v.size shortMax with hlt | heq | hlarge
  · -- there is room in `ch`
    obtain ⟨hobject, hlength⟩ := h.small hs (Nat.le_of_lt hlt)
    have hpush := push_ch (c := c) hobject (by omega)
    have hne : ¬ (v.size : Int) = shortMax := by omega
    have hnot : ¬ (shortMax : Int) < v.size := by omega
    rw [hobject]
    simp only [Option.bind_eq_bind, Option.bind_some, if_neg hne, if_neg hnot, hpush]
    refine ⟨_, rfl, .done (h.change rfl ?_ ?_) hb⟩
    · rw [hobject]
      exact .refl _ _
    · rw [← Value.append_cells_of_room (v := v) (c := c) (by omega)]
      exact .small (v.append c) hlt
  · -- `ch` is full
    obtain ⟨hobject, hlength⟩ := h.small hs (Nat.le_of_eq heq)
    have hcells : m.cells (.ch s) = some v.cells := by
      rw [Memory.cells, hobject]
      rfl
    have heq' : (v.size : Int) = shortMax := by omega
    rw [hobject]
    simp only [Option.bind_eq_bind, Option.bind_some, if_pos heq']
    rcases expand_cases E hcells hchars hn hb with hexpand | hexpand
    · refine ⟨(.error .badAlloc, m.tick), ?_, .failed h.tick hb⟩
      exact (congrArg (Option.bind · _) hexpand).trans rfl
    · obtain ⟨m', hpush, h', hb'⟩ := h.grow (m.expanded (v.size + v.size + 2) v.cells) _ c
        (by omega) (Nat.le_of_eq heq.symm) rfl rfl (expanded_balanced hb _ _)
        (by rw [hobject]; exact expanded_exchanged hb _ _) expanded_block
      refine ⟨(.ok (), m'), ?_, .done h' hb'⟩
      apply (congrArg (Option.bind · _) hexpand).trans
      simp only [Option.bind_some, Memory.onward, hpush, Option.map_some]
  · -- the string has an array
    obtain ⟨b, space, hobject, hblock, hlength⟩ := h.large hs hlarge
    have hroom := v.size_lt
    have hne : ¬ (v.size : Int) = shortMax := by omega
    have hlt : (shortMax : Int) < v.size := by omega
    rw [hobject]
    simp only [Option.bind_eq_bind, Option.bind_some, if_neg hne, if_pos hlt, Union.getSpace]
    by_cases hspace : space = 0
    · rw [if_pos hspace]
      have hcells : m.cells (.block b) = some v.cells := hblock
      rcases expand_cases E hcells hchars hn hb with hexpand | hexpand
      · refine ⟨(.error .badAlloc, m.tick), ?_, .failed h.tick hb⟩
        exact (congrArg (Option.bind · _) hexpand).trans rfl
      · have hne : b ≠ m.heap.made := by
          rintro rfl
          exact absurd (hb.fresh.symm.trans hblock) nofun
        have hkept : (m.expanded (v.size + v.size + 2) v.cells).heap.blocks b = some v.cells :=
          ((expanded_exchanged hb _ _).kept b nofun (by simpa using hne.symm)).trans hblock
        obtain ⟨heap, hfree⟩ := (m.expanded (v.size + v.size + 2) v.cells).heap.exists_free hkept
        obtain ⟨m', hpush, h', hb'⟩ := h.grow
          { m.expanded (v.size + v.size + 2) v.cells with heap := heap } _ c (by omega)
          (Nat.le_of_lt hlarge) rfl rfl ((expanded_balanced hb _ _).free hfree)
          (by rw [hobject]; exact (expanded_exchanged hb _ _).free hfree)
          ((BlockHeap.free_blocks hfree hne.symm).trans expanded_block)
        refine ⟨(.ok (), m'), ?_, .done h' hb'⟩
        apply (congrArg (Option.bind · _) hexpand).trans
        simp only [Option.bind_some, Memory.onward, Memory.deleteArray, hfree, Option.map_some,
          hpush]
    · rw [if_neg hspace]
      have hpush := push_block (c := c)
        (put_self (m := m) (s := s) (x := ⟨v.size, .block b, .space (space - 1)⟩)) hblock
        (show v.size + 1 < _ by omega)
      rw [put_put] at hpush
      refine ⟨_, congrArg (Option.bind · _) hpush, .done (h.change rfl ?_ ?_) ?_⟩
      · rw [hobject]
        exact (BlockHeap.Exchanged.refl _ _).store _
      · refine .large (v.append c) b (space - 1) (Nat.lt_succ_of_lt hlarge) ?_ ?_
        · rw [Value.append_cells_of_room (by omega)]
          exact Function.update_self ..
        · have hsize : (v.append c).size = v.size + 1 := rfl
          rw [Value.append_cells_of_room (by omega), pushed_length, hsize]
          omega
      · exact hb.store (by rw [hblock]; rfl)

theorem default (h : Represents m values) (hb : m.heap.Balanced) (hs : m.strings s = none) :
    ∃ m', m.default s = some m' ∧
      Represents m' (Function.update values s (some .empty)) ∧ m'.heap.Balanced := by
  have hwrite := write_ch (c := 0) (n := 0)
    (put_self (m := m) (s := s) (x := ⟨0, .ch s, .ch noChars⟩))
    (show 0 < noChars.length by decide)
  rw [put_put] at hwrite
  refine ⟨_, hwrite, h.change rfl ?_ (.small .empty (Nat.zero_le _)), hb⟩
  rw [hs]
  exact .refl _ _

theorem fromCString (h : Represents m values) (hb : m.heap.Balanced) (hs : m.strings s = none)
    (p : List UInt8) : ∃ result, m.fromCString E s p = some result ∧
      Outcome values (Function.update values s (some (.ofCString p))) result := by
  have hchars := cString_pointed p
  have hsize : (p.takeWhile (· ≠ 0)).length = (Value.ofCString p).size := rfl
  have hcells : (Value.ofCString p).cells =
      strcpyNew 0 (max (shortMax + 1) ((Value.ofCString p).size + 1)) (pointed p) := rfl
  rw [Memory.fromCString, ← pointed, hchars]
  simp only [Option.bind_eq_bind, Option.bind_some, hsize]
  by_cases hsmall : (Value.ofCString p).size ≤ shortMax
  · have hcopied := strcpy_new hchars (show _ < shortMax + 1 by omega)
    rw [Nat.max_eq_left (by omega)] at hcells
    rw [if_pos (by omega)]
    have hch : (m.put s ⟨(Value.ofCString p).size, .ch s, .space 0⟩).cells (.ch s) =
        some noChars := by
      rw [Memory.cells, put_self]
      rfl
    have hstrcpy : (m.put s ⟨(Value.ofCString p).size, .ch s, .space 0⟩).strcpy (.ch s)
        (pointed p) =
          some (m.put s ⟨(Value.ofCString p).size, .ch s, .ch (Value.ofCString p).cells⟩) := by
      rw [Memory.strcpy, hch]
      simp only [Option.bind_eq_bind, Option.bind_some, noChars, hcopied, Memory.setCells,
        update_eq put_self, put_put, hcells]
    rw [hstrcpy]
    refine ⟨_, rfl, .done (h.change rfl ?_ (.small _ hsmall)) hb⟩
    rw [hs]
    exact .refl _ _
  · rw [Nat.max_eq_right (by omega)] at hcells
    rw [if_neg (by omega)]
    rcases newArray_cases E m ((Value.ofCString p).size + 1) with hnew | hnew
    · refine ⟨(.error .badAlloc, m.tick), ?_, .failed h.tick hb⟩
      exact congrArg (Memory.onward · _) hnew
    · have hstrcpy := strcpy_block (b := m.heap.made)
        (m := Memory.put s ⟨(Value.ofCString p).size, .block m.heap.made, .space 0⟩
          { m with heap := m.heap.allocate ((Value.ofCString p).size + 1), time := m.time + 1 })
        hchars (show _ < (Value.ofCString p).size + 1 by omega) (Function.update_self ..)
      refine ⟨_, (congrArg (Memory.onward · _) hnew).trans (congrArg (Option.map _) hstrcpy),
        .done (h.change rfl ?_ ?_) (expanded_balanced hb _ _)⟩
      · rw [hs]
        exact expanded_exchanged hb _ _
      · refine .large _ m.heap.made 0 (by omega) ?_ ?_
        · rw [hcells]
          exact Function.update_self ..
        · rw [hcells, strcpyNew_length hchars (by omega)]
          omega

end Represents

end MoreCpp.SssString
