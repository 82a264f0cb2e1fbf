import MoreCpp.Library.BitSet

/-!
`bit_vector` of `pearls/sort_bitmap.cpp`, which `pearls/one.cpp` has as well. A call works
on the vector, returns or fails, and a failed one leaves the vector as it stands then.
-/

namespace MoreCpp

open Library

structure BitVector where
  nbits : UInt64
  v : List (BitVec 64)
deriving DecidableEq

namespace BitVector

inductive Fault where
  /-- `std::out_of_range`, with its text. -/
  | outOfRange (what : String)
  /-- A word outside `v`, which has no defined behaviour. -/
  | outOfBounds
deriving DecidableEq

abbrev Call := EStateM Fault BitVector

/-- The constructor. As `n + 63` is a `size_t` too, it wraps around. -/
def make (n : UInt64) : BitVector := ⟨n, List.replicate ((n + 63) / 64).toNat 0#64⟩

def checkIndex (i : UInt64) : Call Unit := do
  if i ≥ (← get).nbits then
    throw (.outOfRange "bit index out of range.")

def readWord (k : UInt64) : Call (BitVec 64) := do
  match (← get).v[k.toNat]? with
  | some x => return x
  | none => throw .outOfBounds

def writeWord (k : UInt64) (x : BitVec 64) : Call Unit :=
  modify fun b => { b with v := b.v.set k.toNat x }

/-- `1ULL << (i%64)`. -/
def mask (i : UInt64) : BitVec 64 := 1#64 <<< (i % 64).toNat

/-- Unlike the other two, without `check_index`. -/
def set (i : UInt64) : Call Unit := do
  let x ← readWord (i / 64)
  writeWord (i / 64) (x ||| mask i)

def clear (i : UInt64) : Call Unit := do
  checkIndex i
  let x ← readWord (i / 64)
  writeWord (i / 64) (x &&& ~~~mask i)

def test (i : UInt64) : Call Bool := do
  checkIndex i
  let x ← readWord (i / 64)
  return x &&& mask i ≠ 0#64

/-! ## One call -/

variable {b : BitVector} {i : UInt64} {j : Nat}

/-- The numbers below `nbits` whose bit is set. -/
def members (b : BitVector) : Finset Nat := (Finset.range b.nbits.toNat).filter fun j => bitAt b.v j

theorem mem_members : j ∈ members b ↔ j < b.nbits.toNat ∧ bitAt b.v j = true := by
  rw [members, Finset.mem_filter, Finset.mem_range]

/-- Every index has its word. -/
def Sized (b : BitVector) : Prop := b.nbits.toNat ≤ 64 * b.v.length

theorem toNat_div (i : UInt64) : (i / 64).toNat = i.toNat / 64 := UInt64.toNat_div i 64

theorem mask_eq (i : UInt64) : mask i = 1#64 <<< (i.toNat % 64) := by
  rw [mask, UInt64.toNat_mod]
  rfl

theorem readWord_run {x : BitVec 64} (hx : b.v[i.toNat / 64]? = some x) :
    (readWord (i / 64)).run b = .ok x b := by
  rw [← toNat_div] at hx
  simp only [readWord, EStateM.run_bind, EStateM.run_get, hx]
  rfl

theorem readWord_outside (hnone : b.v[i.toNat / 64]? = none) :
    (readWord (i / 64)).run b = .error .outOfBounds b := by
  rw [← toNat_div] at hnone
  simp only [readWord, EStateM.run_bind, EStateM.run_get, hnone]
  rfl

theorem Sized.read (h : Sized b) (hi : i < b.nbits) : ∃ x, b.v[i.toNat / 64]? = some x := by
  have hlt : i.toNat < b.nbits.toNat := UInt64.lt_iff_toNat_lt.mp hi
  have hword : i.toNat / 64 < b.v.length := by
    unfold Sized at h
    omega
  exact ⟨b.v[i.toNat / 64], List.getElem?_eq_getElem hword⟩

theorem checkIndex_run (hi : i < b.nbits) : (checkIndex i).run b = .ok () b := by
  have hnot : ¬i ≥ b.nbits := UInt64.not_le.mpr hi
  simp [checkIndex, hnot]

theorem checkIndex_throws (hi : b.nbits ≤ i) :
    (checkIndex i).run b = .error (.outOfRange "bit index out of range.") b := by
  simp [checkIndex, hi]

/-- With the word that a call puts in place of another one. -/
def withWord (b : BitVector) (i : UInt64) (y : BitVec 64) : BitVector :=
  { b with v := b.v.set (i.toNat / 64) y }

theorem Sized.withWord (h : Sized b) (i : UInt64) (y : BitVec 64) : Sized (b.withWord i y) := by
  rwa [Sized, BitVector.withWord, List.length_set]

theorem writeWord_run (i : UInt64) (y : BitVec 64) :
    (writeWord (i / 64) y).run b = .ok () (b.withWord i y) := by
  rw [withWord, ← toNat_div]
  rfl

theorem set_run {x : BitVec 64} (hx : b.v[i.toNat / 64]? = some x) :
    (set i).run b = .ok () (b.withWord i (x ||| mask i)) := by
  rw [set, EStateM.run_bind, readWord_run hx]
  exact writeWord_run i _

theorem set_outside (hnone : b.v[i.toNat / 64]? = none) :
    (set i).run b = .error .outOfBounds b := by
  rw [set, EStateM.run_bind, readWord_outside hnone]

theorem set_spec (h : Sized b) (hi : i < b.nbits) :
    ∃ b', (set i).run b = .ok () b' ∧ b'.nbits = b.nbits ∧ Sized b' ∧
      members b' = insert i.toNat (members b) := by
  obtain ⟨x, hx⟩ := h.read hi
  refine ⟨b.withWord i (x ||| mask i), set_run hx, rfl, h.withWord _ _, ?_⟩
  have hlt : i.toNat < b.nbits.toNat := UInt64.lt_iff_toNat_lt.mp hi
  ext j
  rw [Finset.mem_insert, mem_members, mem_members, withWord, mask_eq, bitAt_insert (by decide) hx]
  constructor
  · rintro ⟨hj, heq | hbit⟩
    · exact .inl heq
    · exact .inr ⟨hj, hbit⟩
  · rintro (rfl | ⟨hj, hbit⟩)
    · exact ⟨hlt, .inl rfl⟩
    · exact ⟨hj, .inr hbit⟩

theorem clear_spec (h : Sized b) (hi : i < b.nbits) :
    ∃ b', (clear i).run b = .ok () b' ∧ b'.nbits = b.nbits ∧ Sized b' ∧
      members b' = (members b).erase i.toNat := by
  obtain ⟨x, hx⟩ := h.read hi
  refine ⟨b.withWord i (x &&& ~~~mask i), ?_, rfl, h.withWord _ _, ?_⟩
  · rw [clear, EStateM.run_bind, checkIndex_run hi]
    simp only [EStateM.run_bind, readWord_run hx]
    exact writeWord_run i _
  · ext j
    rw [Finset.mem_erase, mem_members, mem_members, withWord, mask_eq,
      bitAt_erase (by decide) hx]
    exact and_left_comm

theorem test_spec (h : Sized b) (hi : i < b.nbits) :
    (test i).run b = .ok (decide (i.toNat ∈ members b)) b := by
  obtain ⟨x, hx⟩ := h.read hi
  have hlt : i.toNat < b.nbits.toNat := UInt64.lt_iff_toNat_lt.mp hi
  have hmem : x &&& mask i ≠ 0#64 ↔ i.toNat ∈ members b := by
    rw [mask_eq, bitAt_iff (by decide) hx, mem_members, and_iff_right hlt]
  rw [test, EStateM.run_bind, checkIndex_run hi]
  simp only [EStateM.run_bind, readWord_run hx, EStateM.run_pure, hmem]

/-! ## Histories -/

inductive Op where
  | set (i : UInt64)
  | clear (i : UInt64)
  | test (i : UInt64)
deriving DecidableEq

namespace Op

def index : Op → UInt64
  | set i | clear i | test i => i

/-- With the result of `test`. -/
def call : Op → Call (Option Bool)
  | set i => do
      BitVector.set i
      return none
  | clear i => do
      BitVector.clear i
      return none
  | test i => do
      let r ← BitVector.test i
      return some r

/-- On a set of numbers: insertion, removal and membership. -/
def apply (S : Finset Nat) : Op → Finset Nat
  | set i => insert i.toNat S
  | clear i => S.erase i.toNat
  | test _ => S

def answer (S : Finset Nat) : Op → Option Bool
  | set _ | clear _ => none
  | test i => some (i.toNat ∈ S)

end Op

/-- One call after another: with an index below `nbits` it does to the members what the
operation does to a set, and with another one it throws and leaves the vector as it was. -/
def Conforms : List Op → BitVector → Prop
  | [], _ => True
  | op :: rest, b =>
    match op.call.run b with
    | .ok answer b' => op.index < b.nbits ∧ answer = op.answer (members b) ∧
        b'.nbits = b.nbits ∧ members b' = op.apply (members b) ∧ Conforms rest b'
    | .error fault b' => b.nbits ≤ op.index ∧
        fault = .outOfRange "bit index out of range." ∧ b' = b ∧ Conforms rest b'

variable {op : Op} {h : List Op} {n : UInt64}

theorem call_spec (hb : Sized b) (hi : op.index < b.nbits) :
    ∃ b', op.call.run b = .ok (op.answer (members b)) b' ∧ b'.nbits = b.nbits ∧ Sized b' ∧
      members b' = op.apply (members b) := by
  cases op with
  | set i =>
      change i < b.nbits at hi
      obtain ⟨b', hrun, hkept⟩ := set_spec hb hi
      exact ⟨b', by rw [Op.call, EStateM.run_bind, hrun]; rfl, hkept⟩
  | clear i =>
      change i < b.nbits at hi
      obtain ⟨b', hrun, hkept⟩ := clear_spec hb hi
      exact ⟨b', by rw [Op.call, EStateM.run_bind, hrun]; rfl, hkept⟩
  | test i =>
      change i < b.nbits at hi
      refine ⟨b, ?_, rfl, hb, rfl⟩
      rw [Op.call, EStateM.run_bind, test_spec hb hi]
      rfl

theorem call_throws (hset : ∀ i, op ≠ .set i) (hi : b.nbits ≤ op.index) :
    op.call.run b = .error (.outOfRange "bit index out of range.") b := by
  cases op with
  | set i => exact absurd rfl (hset i)
  | clear i =>
      change b.nbits ≤ i at hi
      rw [Op.call, EStateM.run_bind, clear, EStateM.run_bind, checkIndex_throws hi]
  | test i =>
      change b.nbits ≤ i at hi
      rw [Op.call, EStateM.run_bind, test, EStateM.run_bind, checkIndex_throws hi]

/-- `set` never throws, so its index has to be in range. -/
theorem Conforms.set_lt {i : UInt64} (hc : Conforms (.set i :: h) b) : i < b.nbits := by
  rw [Conforms, Op.call, EStateM.run_bind] at hc
  cases hword : b.v[i.toNat / 64]? with
  | none =>
      rw [set_outside hword] at hc
      exact absurd hc.2.1 nofun
  | some x =>
      rw [set_run hword] at hc
      exact hc.1

theorem conforms_cons_of_throws (hset : ∀ i, op ≠ .set i) (hi : b.nbits ≤ op.index) :
    Conforms (op :: h) b ↔ Conforms h b := by
  rw [Conforms, call_throws hset hi]
  exact ⟨fun hc => hc.2.2.2, fun hc => ⟨hi, rfl, rfl, hc⟩⟩

theorem Conforms.ne_set (hc : Conforms (op :: h) b) (hi : b.nbits ≤ op.index) :
    ∀ i, op ≠ .set i := by
  rintro i rfl
  exact absurd hc.set_lt (UInt64.not_lt.mpr hi)

/-- With a word for each index, only `set` can go wrong. -/
theorem conforms_iff_of_sized (hb : Sized b) :
    Conforms h b ↔ ∀ i, .set i ∈ h → i < b.nbits := by
  induction h generalizing b with
  | nil => exact iff_of_true trivial fun i hi => absurd hi List.not_mem_nil
  | cons op h ih =>
      by_cases hi : op.index < b.nbits
      · obtain ⟨b', hrun, hsame, hb', hmembers⟩ := call_spec hb hi
        have hstep : Conforms (op :: h) b ↔ Conforms h b' := by
          rw [Conforms, hrun]
          exact ⟨fun hc => hc.2.2.2.2, fun hc => ⟨hi, rfl, hsame, hmembers, hc⟩⟩
        rw [hstep, ih hb', hsame]
        constructor
        · intro hall i hmem
          obtain rfl | hmem := List.mem_cons.mp hmem
          · exact hi
          · exact hall i hmem
        · exact fun hall i hmem => hall i (List.mem_cons_of_mem op hmem)
      · have hle : b.nbits ≤ op.index := UInt64.not_lt.mp hi
        constructor
        · intro hc i hmem
          have hset := hc.ne_set hle
          obtain heq | hmem := List.mem_cons.mp hmem
          · exact absurd heq.symm (hset i)
          · exact (ih hb).mp ((conforms_cons_of_throws hset hle).mp hc) i hmem
        · intro hall
          have hset : ∀ i, op ≠ .set i := by
            rintro i rfl
            exact hi (hall i List.mem_cons_self)
          refine (conforms_cons_of_throws hset hle).mpr ((ih hb).mpr fun i hmem => ?_)
          exact hall i (List.mem_cons_of_mem op hmem)

theorem call_outside (hempty : b.v = []) (hi : op.index < b.nbits) :
    op.call.run b = .error .outOfBounds b := by
  have hread : b.v[op.index.toNat / 64]? = none := by rw [hempty, List.getElem?_nil]
  cases op with
  | set i =>
      change b.v[i.toNat / 64]? = none at hread
      rw [Op.call, EStateM.run_bind, set_outside hread]
  | clear i =>
      change i < b.nbits at hi
      change b.v[i.toNat / 64]? = none at hread
      simp only [Op.call, clear, EStateM.run_bind, checkIndex_run hi, readWord_outside hread]
  | test i =>
      change i < b.nbits at hi
      change b.v[i.toNat / 64]? = none at hread
      simp only [Op.call, test, EStateM.run_bind, checkIndex_run hi, readWord_outside hread]

/-- Without any word, no index in range has one. -/
theorem conforms_iff_of_empty (hempty : b.v = []) :
    Conforms h b ↔ (∀ i, .set i ∈ h → i < b.nbits) ∧ ∀ op ∈ h, b.nbits ≤ op.index := by
  induction h with
  | nil => simp [Conforms]
  | cons op h ih =>
      by_cases hi : op.index < b.nbits
      · refine iff_of_false ?_ fun hall => ?_
        · rw [Conforms, call_outside hempty hi]
          exact fun hc => absurd hc.2.1 nofun
        · exact absurd hi (UInt64.not_lt.mpr (hall.2 op List.mem_cons_self))
      · have hle : b.nbits ≤ op.index := UInt64.not_lt.mp hi
        constructor
        · intro hc
          have hset := hc.ne_set hle
          obtain ⟨hsets, hall⟩ := ih.mp ((conforms_cons_of_throws hset hle).mp hc)
          refine ⟨fun i hmem => ?_, List.forall_mem_cons.mpr ⟨hle, hall⟩⟩
          obtain heq | hmem := List.mem_cons.mp hmem
          · exact absurd heq.symm (hset i)
          · exact hsets i hmem
        · rintro ⟨hsets, hall⟩
          have hset : ∀ i, op ≠ .set i := by
            rintro i rfl
            exact hi (hsets i List.mem_cons_self)
          refine (conforms_cons_of_throws hset hle).mpr (ih.mpr ⟨fun i hmem => ?_, ?_⟩)
          · exact hsets i (List.mem_cons_of_mem op hmem)
          · exact (List.forall_mem_cons.mp hall).2

/-! ## From the constructor on -/

theorem length_make (n : UInt64) : (make n).v.length = (n.toNat + 63) % 2 ^ 64 / 64 := by
  rw [make, List.length_replicate, toNat_div, UInt64.toNat_add]
  rfl

theorem sized_make (hn : n.toNat + 63 < 2 ^ 64) : Sized (make n) := by
  rw [Sized, length_make, Nat.mod_eq_of_lt hn]
  change n.toNat ≤ _
  omega

theorem members_make (n : UInt64) : members (make n) = ∅ := by
  refine Finset.filter_eq_empty_iff.mpr fun j _ => ?_
  rw [make, bitAt_replicate]
  exact Bool.false_ne_true

theorem make_empty (hn : 2 ^ 64 ≤ n.toNat + 63) : (make n).v = [] := by
  have hlt := n.toNat_lt
  rw [← List.length_eq_zero_iff, length_make]
  omega

/-- The calls of any history do as they should if and only if `set` is never called with
an index out of range, and the number of words does not wrap around or no index is in range. -/
theorem conforms_make_iff (n : UInt64) (h : List Op) :
    Conforms h (make n) ↔ (∀ i, .set i ∈ h → i < n) ∧
      (n.toNat + 63 < 2 ^ 64 ∨ ∀ op ∈ h, n ≤ op.index) := by
  obtain hn | hn := Nat.lt_or_ge (n.toNat + 63) (2 ^ 64)
  · rw [and_iff_left (.inl hn)]
    exact conforms_iff_of_sized (sized_make hn)
  · rw [or_iff_right (Nat.not_lt.mpr hn)]
    exact conforms_iff_of_empty (make_empty hn)

/-- In the last word, and beyond the last word. -/
theorem set_unchecked : (set 10).run (make 10) = .ok () ⟨10, [1024#64]⟩ ∧
    (set 64).run (make 64) = .error .outOfBounds (make 64) ∧ ¬Conforms [.set 10] (make 10) := by
  refine ⟨rfl, rfl, fun hc => ?_⟩
  exact absurd hc.set_lt (by decide)

end BitVector

end MoreCpp
