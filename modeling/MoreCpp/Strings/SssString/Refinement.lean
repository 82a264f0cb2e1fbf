import MoreCpp.Library.TransitionSystem
import MoreCpp.Strings.SssString.Transfer

/-!
The representation of strings through every history of calls.
-/

namespace MoreCpp.SssString

open Library

/-- A memory, and the strings that a `'\0'` was appended to, or that were copied or moved
from such a string. -/
structure State where
  memory : Memory
  tainted : Nat → Bool

def taint (tainted : Nat → Bool) : Op → Nat → Bool
  | .default self => Function.update tainted self false
  | .fromCString self _ => Function.update tainted self false
  | .copy self x => Function.update tainted self (tainted x)
  | .move self x => Function.update tainted self (tainted x)
  | .copyAssign self x => Function.update tainted self (tainted x)
  | .moveAssign self x => Function.update tainted self (tainted x)
  | .append self c => Function.update tainted self (tainted self || c == 0)
  | .destroy _ => tainted

def State.Step (E : Setting) (c : State) (op : Op) (c' : State) : Prop :=
  c.memory.Permitted op ∧ ∃ result, c.memory.perform E op = some (result, c'.memory) ∧
    c'.tainted = match result with
      | .ok () => taint c.tainted op
      | .error _ => c.tainted

def system (E : Setting) : System State Op where
  Init c := c = ⟨.initial, fun _ => false⟩
  Step := State.Step E

/-- Strings that are not tainted have no terminator among their characters. -/
def Cleans (values : Values) (tainted : Nat → Bool) : Prop :=
  ∀ s v, values s = some v → tainted s = false → v.Clean

section Cleans

variable {values : Values} {tainted : Nat → Bool} {s : Nat} {new : Option Value} {t : Bool}

theorem Cleans.update (h : Cleans values tainted) (hnew : ∀ v, new = some v → t = false → v.Clean) :
    Cleans (Function.update values s new) (Function.update tainted s t) := by
  intro s' v hv ht
  rcases eq_or_ne s' s with rfl | hne
  · rw [Function.update_self] at hv ht
    exact hnew v hv ht
  · rw [Function.update_of_ne hne] at hv ht
    exact h s' v hv ht

/-- The value changes, and the taint does not. -/
theorem Cleans.update_value (h : Cleans values tainted)
    (hnew : ∀ v, new = some v → tainted s = false → v.Clean) :
    Cleans (Function.update values s new) tainted := by
  have hupdate := h.update (s := s) hnew
  rwa [Function.update_eq_self] at hupdate

theorem Cleans.copy (h : Cleans values tainted) (s x : Nat) :
    Cleans (values.copy s x) (Function.update tainted s (tainted x)) := by
  apply h.update
  intro v hv ht
  obtain ⟨w, hw, rfl⟩ := Option.map_eq_some_iff.mp hv
  exact (h x w hw ht).copy

theorem Cleans.move (h : Cleans values tainted) (s x : Nat) :
    Cleans (values.move s x) (Function.update tainted s (tainted x)) := by
  have hmoved : Cleans (Function.update values x ((values x).map Value.moved)) tainted := by
    apply h.update_value
    intro v hv ht
    obtain ⟨w, hw, rfl⟩ := Option.map_eq_some_iff.mp hv
    exact (h x w hw ht).moved
  exact hmoved.update fun v hv ht => h x v hv ht

theorem Cleans.apply (h : Cleans values tainted) (op : Op) :
    Cleans (values.apply op) (taint tainted op) := by
  cases op with
  | default s =>
      apply h.update
      intro v hv _
      obtain rfl := Option.some.inj hv
      exact Value.clean_empty
  | fromCString s p =>
      apply h.update
      intro v hv _
      obtain rfl := Option.some.inj hv
      exact Value.clean_ofCString p
  | copy s x => exact h.copy s x
  | move s x => exact h.move s x
  | copyAssign s x =>
      rw [Values.apply, taint]
      split
      · rename_i heq
        rwa [← heq, Function.update_eq_self]
      · exact h.copy s x
  | moveAssign s x =>
      rw [Values.apply, taint]
      split
      · rename_i heq
        rwa [← heq, Function.update_eq_self]
      · exact h.move s x
  | append s c =>
      apply h.update
      intro v hv ht
      obtain ⟨w, hw, rfl⟩ := Option.map_eq_some_iff.mp hv
      rw [Bool.or_eq_false_iff, beq_eq_false_iff_ne] at ht
      exact (h s w hw ht.1).append ht.2
  | destroy s => exact h.update_value fun v hv => absurd hv (Option.some_ne_none v).symm

end Cleans

/-- What holds in every state. -/
structure Inv (c : State) (values : Values) : Prop where
  represents : Represents c.memory values
  balanced : c.memory.heap.Balanced
  cleans : Cleans values c.tainted

section Runs

variable {E : Setting} {c c' : State} {values : Values} {op : Op}

theorem Inv.step (h : Inv c values) (hE : E.Releases) (hstep : c.Step E op c') :
    ∃ values', Inv c' values' := by
  obtain ⟨hop, result, hrun, htaint⟩ := hstep
  obtain ⟨result', hrun', houtcome⟩ := h.represents.perform h.balanced hE hop
  obtain rfl := Option.some.inj (hrun'.symm.trans hrun)
  generalize hmemory : c'.memory = m at houtcome
  cases houtcome with
  | done h' hb' =>
      subst hmemory
      refine ⟨_, h', hb', ?_⟩
      rw [htaint]
      exact h.cleans.apply op
  | failed h' hb' =>
      subst hmemory
      refine ⟨values, h', hb', ?_⟩
      rw [htaint]
      exact h.cleans

theorem reachable_inv (hE : E.Releases) (hc : (system E).Reachable c) :
    ∃ values, Inv c values := by
  refine (system E).reachable_invariant (fun c => ∃ values, Inv c values) ?_ ?_ c hc
  · rintro _ rfl
    exact ⟨_, .initial, .empty, fun s v hv => nomatch hv⟩
  · rintro c op c' - ⟨values, h⟩ hstep
    exact h.step hE hstep

end Runs

/-- The character at `ptr[i]`, or `none` there before one is written. -/
def Memory.char (m : Memory) (s i : Nat) : Option Cell := do
  let x ← m.strings s
  let cells ← m.cells x.ptr
  cells[i]?

section Representation

variable {E : Setting} {m : Memory} {values : Values} {s b : Nat} {x : Object} {v : Value}

theorem block_eq_some_iff {object : Option Object} :
    block object = some b ↔ ∃ x, object = some x ∧ x.ptr = .block b := by
  cases object with
  | none => exact ⟨nofun, nofun⟩
  | some x =>
      obtain ⟨sz, ptr, union⟩ := x
      cases ptr with
      | ch s => exact ⟨nofun, by rintro ⟨_, heq, hptr⟩; cases heq; cases hptr⟩
      | block b' =>
          constructor
          · intro heq
            exact ⟨_, rfl, congrArg Place.block (Option.some.inj heq)⟩
          · rintro ⟨_, heq, hptr⟩
            cases heq
            exact congrArg some (Place.block.inj hptr)

/-- The size and the characters of a string are those of its value. -/
theorem Represents.object (h : Represents m values) (hv : values s = some v) :
    ∃ x, m.strings s = some x ∧ x.sz = v.size ∧ ∀ i, m.char s i = v.cells[i]? := by
  rcases Nat.lt_or_ge shortMax v.size with hlarge | hsmall
  · obtain ⟨b, space, hobject, hblock, -⟩ := h.large hv hlarge
    refine ⟨_, hobject, rfl, fun i => ?_⟩
    simp [Memory.char, hobject, Memory.cells, hblock]
  · obtain ⟨hobject, -⟩ := h.small hv hsmall
    refine ⟨_, hobject, rfl, fun i => ?_⟩
    simp [Memory.char, hobject, Memory.cells, Union.cells]

theorem Represents.blocks_isSome_iff (h : Represents m values) :
    (m.heap.blocks b).isSome ↔ ∃ s x, m.strings s = some x ∧ x.ptr = .block b := by
  constructor
  · intro hsome
    obtain ⟨s, hs⟩ := h.owned b hsome
    exact ⟨s, block_eq_some_iff.mp hs⟩
  · rintro ⟨s, x, hs, hptr⟩
    exact (h.stored s).isSome_of_block (block_eq_some_iff.mpr ⟨x, hs, hptr⟩)

/-- Where the characters of a string are, and how much room there is for them. -/
theorem Represents.place (h : Represents m values) (hs : m.strings s = some x) :
    (x.ptr = .ch s ↔ x.sz ≤ shortMax) ∧
      (shortMax < x.sz → ∃ b space cells, x.ptr = .block b ∧ x.union = .space space ∧ 0 ≤ space ∧
        m.heap.blocks b = some cells ∧ cells.length = x.sz + 1 + space ∧
        ∀ t y, m.strings t = some y → y.ptr = .block b → t = s) := by
  obtain ⟨v, hv⟩ := h.present (s := s) (by rw [hs]; rfl)
  rcases Nat.lt_or_ge shortMax v.size with hlarge | hsmall
  · obtain ⟨b, space, hobject, hblock, hspace⟩ := h.large hv hlarge
    have hroom := v.size_lt
    obtain rfl := Option.some.inj (hs.symm.trans hobject)
    refine ⟨iff_of_false nofun (Int.not_le.mpr (Int.ofNat_lt.mpr hlarge)), fun _ => ?_⟩
    refine ⟨b, space, v.cells, rfl, rfl, by omega, hblock, hspace, fun t y ht hptr => ?_⟩
    exact h.alone t s b (block_eq_some_iff.mpr ⟨y, ht, hptr⟩) (block_eq_some_iff.mpr ⟨_, hs, rfl⟩)
  · obtain ⟨hobject, -⟩ := h.small hv hsmall
    obtain rfl := Option.some.inj (hs.symm.trans hobject)
    have hle : (v.size : Int) ≤ shortMax := Int.ofNat_le.mpr hsmall
    exact ⟨iff_of_true rfl hle, fun hlt => absurd hle (Int.not_le.mpr hlt)⟩

/-- `ptr` is to the string's own `ch` as long as the size is at most 15, and to an array of
its own from then on, which has as many bytes as it should. There is a terminator at
the size unless a `'\0'` came into the string; every call is defined, so that it
writes inside `ch` and the arrays only; and an array is freed once, when no string has
it any more. -/
theorem representation (hE : E.Releases) {c : State} (hc : (system E).Reachable c) :
    (∀ s x, c.memory.strings s = some x → 0 ≤ x.sz ∧ (x.ptr = .ch s ↔ x.sz ≤ shortMax) ∧
      (shortMax < x.sz → ∃ b space cells, x.ptr = .block b ∧ x.union = .space space ∧ 0 ≤ space ∧
        c.memory.heap.blocks b = some cells ∧ cells.length = x.sz + 1 + space ∧
        ∀ t y, c.memory.strings t = some y → y.ptr = .block b → t = s) ∧
      (c.tainted s = false → c.memory.char s x.sz.toNat = some (some 0))) ∧
    (∀ op, c.memory.Permitted op → ∃ result, c.memory.perform E op = some result) ∧
    c.memory.heap.freed.Nodup ∧
    (∀ b < c.memory.heap.made, b ∈ c.memory.heap.freed ↔
      ∀ s x, c.memory.strings s = some x → x.ptr ≠ .block b) ∧
    ((∀ s, c.memory.strings s = none) →
      c.memory.heap.freed.Perm (List.range c.memory.heap.made)) := by
  obtain ⟨values, h⟩ := reachable_inv hE hc
  refine ⟨fun s x hs => ?_, fun op hop => ?_, h.balanced.nodup, fun b hb => ?_, fun hnone => ?_⟩
  · obtain ⟨v, hv⟩ := h.represents.present (s := s) (by rw [hs]; rfl)
    obtain ⟨x', hs', hsz, hchar⟩ := h.represents.object hv
    obtain rfl := Option.some.inj (hs.symm.trans hs')
    obtain ⟨hch, harray⟩ := h.represents.place hs
    refine ⟨by omega, hch, harray, fun htaint => ?_⟩
    rw [hchar, hsz, Int.toNat_natCast]
    exact (h.cleans s v hv htaint).terminator
  · obtain ⟨result, hrun, -⟩ := h.represents.perform h.balanced hE hop
    exact ⟨result, hrun⟩
  · have hblocks := h.represents.blocks_isSome_iff (b := b)
    rw [h.balanced.outstanding] at hblocks
    constructor
    · intro hfreed s x hs hptr
      exact (hblocks.mpr ⟨s, x, hs, hptr⟩).2 hfreed
    · intro hnone
      by_contra hfreed
      obtain ⟨s, x, hs, hptr⟩ := hblocks.mp ⟨hb, hfreed⟩
      exact hnone s x hs hptr
  · apply h.balanced.freed_perm
    intro b
    apply Option.not_isSome_iff_eq_none.mp
    intro hsome
    obtain ⟨s, x, hs, -⟩ := h.represents.blocks_isSome_iff.mp hsome
    cases (hnone s).symm.trans hs

/-- A destructor that does what it should. -/
def releasing : Setting where
  fails _ := false
  destructor s m := (m.release s).map (Memory.erase s)

theorem releasing_releases : releasing.Releases := fun _ _ _ => rfl

/-- A long string is copied, the copy grows, and the first is destroyed. -/
theorem representation_grown : ∃ c, (system releasing).Reachable c ∧
    c.memory.heap.freed = [1, 0] ∧ c.memory.char 1 17 = some (some 0) ∧
      ∃ x, c.memory.strings 1 = some x ∧ x.ptr = .block 2 ∧ x.union = .space 16 := by
  have hc₀ : (system releasing).Reachable _ := .start rfl
  have hc₁ := hc₀.next (show State.Step _ _ (.fromCString 0 (.replicate 16 97)) ⟨_, _⟩ from
    ⟨rfl, .ok (), rfl, rfl⟩)
  have hc₂ := hc₁.next (show State.Step _ _ (.copy 1 0) ⟨_, _⟩ from
    ⟨⟨rfl, rfl⟩, .ok (), rfl, rfl⟩)
  have hc₃ := hc₂.next (show State.Step _ _ (.append 1 98) ⟨_, _⟩ from
    ⟨rfl, .ok (), rfl, rfl⟩)
  have hc₄ := hc₃.next (show State.Step _ _ (.destroy 0) ⟨_, _⟩ from
    ⟨rfl, .ok (), rfl, rfl⟩)
  obtain ⟨hstring, -⟩ := representation releasing_releases hc₄
  obtain ⟨-, -, -, hterminated⟩ := hstring 1 _ rfl
  exact ⟨_, hc₄, rfl, hterminated rfl, _, rfl, rfl, rfl⟩

end Representation

end MoreCpp.SssString
