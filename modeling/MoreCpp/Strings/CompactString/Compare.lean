import MoreCpp.Strings.CompactString.Refinement
import MoreCpp.Library.CString

/-!
`CompactString::compare` is the lexicographic order of unsigned bytes, wherever the two
strings are stored.
-/

namespace MoreCpp.CompactString

open Library

/-- The bytes as `memcmp` compares them. -/
def unsigned (bytes : Bytes) : List Nat := bytes.map UInt8.toNat

namespace Memory

/-- `memcmp(s1, s2, n)`. -/
def memcmp (C : Memcmp Nat) (s1 s2 : Place) (n : Nat) (m : Memory) : Option Int := do
  let xs ← m.cells s1
  let ys ← m.cells s2
  if n ≤ xs.length ∧ n ≤ ys.length then
    let xs ← (xs.take n).mapM id
    let ys ← (ys.take n).mapM id
    return C.run (unsigned xs) (unsigned ys)
  else none

def compare (C : Memcmp Nat) (self o : StringId) (m : Memory) : Option Int := do
  let a ← m.strings self
  let b ← m.strings o
  let s1 ← m.data self
  let s2 ← m.data o
  let res ← m.memcmp C s1 s2 (min a.length b.length)
  if res ≠ 0 then return res
  if a.length < b.length then return -1
  if b.length < a.length then return 1
  return 0

end Memory

variable {m m' m'' : Memory} {σ : Spec} {C : Memcmp Nat} {a b c p : StringId} {x y z : Bytes}
  {r r' r'' : Int}

theorem unsigned_inj : unsigned x = unsigned y ↔ x = y :=
  (List.map_injective_iff.mpr fun _ _ => UInt8.toNat_inj.mp).eq_iff

/-- The first bytes of a string, read from where it is stored. -/
theorem Represents.read (h : Represents m σ.written) (ha : σ a = some x) {n : Nat}
    (hn : n ≤ x.length) : ∃ place cells, m.data a = some place ∧ m.cells place = some cells ∧
      n ≤ cells.length ∧ (cells.take n).mapM id = some (x.take n) := by
  obtain ⟨place, cells, hplace, hcells, hlength, htake, -⟩ := h.place (Spec.written_of_some ha)
  rw [List.length_map] at hlength htake
  refine ⟨place, cells, hplace, hcells, hn.trans hlength, ?_⟩
  have hfirst : cells.take n = (x.take n).map some := by
    rw [List.map_take, ← htake, List.take_take, min_eq_left hn]
  rw [hfirst, mapM_written]

theorem Represents.compare (h : Represents m σ.written) (ha : σ a = some x) (hb : σ b = some y) :
    m.compare C a b = some (C.compare (unsigned x) (unsigned y)) := by
  obtain ⟨object, hobject, hlength⟩ := h.objectCells (Spec.written_of_some ha)
  obtain ⟨object', hobject', hlength'⟩ := h.objectCells (Spec.written_of_some hb)
  rw [List.length_map] at hlength hlength'
  obtain ⟨place, cells, hplace, hcells, hle, hread⟩ := h.read ha (min_le_left _ y.length)
  obtain ⟨place', cells', hplace', hcells', hle', hread'⟩ := h.read hb (min_le_right x.length _)
  have hmemcmp : m.memcmp C place place' (min x.length y.length) =
      some (C.run (unsigned (x.take (min x.length y.length)))
        (unsigned (y.take (min x.length y.length)))) := by
    rw [Memory.memcmp, hcells, hcells']
    simp only [Option.bind_eq_bind, Option.bind_some]
    rw [if_pos ⟨hle, hle'⟩, hread, hread']
    rfl
  have hunsigned : ∀ (bytes : Bytes) n, (unsigned bytes).take n = unsigned (bytes.take n) :=
    fun bytes n => List.map_take.symm
  have hcount : ∀ bytes : Bytes, (unsigned bytes).length = bytes.length :=
    fun bytes => List.length_map _
  rw [Memory.compare, hobject, hobject', hplace, hplace', Memcmp.compare]
  simp only [Option.bind_eq_bind, Option.bind_some, hlength, hlength', hmemcmp, hcount, hunsigned]
  split
  · rfl
  · split
    · rfl
    · split <;> rfl

/-- Strings that can be compared are there. -/
theorem Represents.of_compare (h : Represents m σ.written) (hr : m.compare C a b = some r) :
    ∃ x y, σ a = some x ∧ σ b = some y ∧ Signs r (unsigned x) (unsigned y) := by
  have hexists : ∀ s, (m.strings s).isSome = true → ∃ bytes, σ s = some bytes := by
    intro s hsome
    cases hs : σ s with
    | some bytes => exact ⟨bytes, rfl⟩
    | none =>
        rw [h.absent (Spec.written_of_none hs)] at hsome
        cases hsome
  obtain ⟨object, hobject, hrest⟩ := Option.bind_eq_some_iff.mp hr
  obtain ⟨object', hobject', -⟩ := Option.bind_eq_some_iff.mp hrest
  obtain ⟨x, ha⟩ := hexists a (by rw [hobject]; rfl)
  obtain ⟨y, hb⟩ := hexists b (by rw [hobject']; rfl)
  rw [h.compare ha hb] at hr
  exact ⟨x, y, ha, hb, Option.some.inj hr ▸ C.compare_signs _ _⟩

/-- `compare` is an order of the strings. -/
structure ComparesAsOrder (C : Memcmp Nat) (m : Memory) : Prop where
  /-- It is defined for all strings, with the sign of the lexicographic comparison. -/
  lexicographic : ∀ a b x y, m.contents a = some x → m.contents b = some y →
    ∃ r, m.compare C a b = some r ∧ Signs r (unsigned x) (unsigned y)
  zero_iff : ∀ a b r, m.compare C a b = some r → (r = 0 ↔ m.contents a = m.contents b)
  antisymmetric : ∀ a b r r', m.compare C a b = some r → m.compare C b a = some r' →
    r'.sign = -r.sign
  transitive : ∀ a b c r r' r'', m.compare C a b = some r → m.compare C b c = some r' →
    m.compare C a c = some r'' → r ≤ 0 → r' ≤ 0 → r'' ≤ 0
  total : ∀ a b r r', m.compare C a b = some r → m.compare C b a = some r' → r ≤ 0 ∨ r' ≤ 0

theorem Represents.comparesAsOrder (h : Represents m σ.written) : ComparesAsOrder C m where
  lexicographic a b x y ha hb := by
    rw [h.contents_eq] at ha hb
    exact ⟨_, h.compare ha hb, C.compare_signs _ _⟩
  zero_iff a b r hr := by
    obtain ⟨x, y, ha, hb, hsigns⟩ := h.of_compare hr
    rw [hsigns.zero, unsigned_inj, h.contents_eq, ha, hb, Option.some.injEq]
  antisymmetric a b r r' hr hr' := by
    obtain ⟨x, y, ha, hb, hsigns⟩ := h.of_compare hr
    obtain ⟨y', x', hb', ha', hsigns'⟩ := h.of_compare hr'
    cases ha.symm.trans ha'
    cases hb.symm.trans hb'
    rw [← Int.sign_neg]
    refine hsigns'.sign_eq ⟨?_, ?_, ?_⟩
    · rw [← hsigns.pos]
      omega
    · rw [eq_comm (a := unsigned y), ← hsigns.zero]
      omega
    · rw [← hsigns.neg]
      omega
  transitive a b c r r' r'' hr hr' hr'' hle hle' := by
    obtain ⟨x, y, ha, hb, hsigns⟩ := h.of_compare hr
    obtain ⟨y', z, hb', hc, hsigns'⟩ := h.of_compare hr'
    obtain ⟨x', z', ha', hc', hsigns''⟩ := h.of_compare hr''
    cases ha.symm.trans ha'
    cases hb.symm.trans hb'
    cases hc.symm.trans hc'
    exact hsigns''.nonpos_iff.mpr ((hsigns.nonpos_iff.mp hle).trans (hsigns'.nonpos_iff.mp hle'))
  total a b r r' hr hr' := by
    obtain ⟨x, y, ha, hb, hsigns⟩ := h.of_compare hr
    obtain ⟨y', x', hb', ha', hsigns'⟩ := h.of_compare hr'
    cases ha.symm.trans ha'
    cases hb.symm.trans hb'
    exact (le_total (unsigned x) (unsigned y)).imp hsigns.nonpos_iff.mpr hsigns'.nonpos_iff.mpr

/-- After any history of permitted calls `compare` is the lexicographic order of the bytes,
and it orders two strings made by `concat` from one string and two others as it orders
the two others. -/
theorem compare_lexicographic (C : Memcmp Nat) (E : Setting)
    {labels : List (Op × Except Exn Unit)} (hrun : (system E).Run .initial labels m) :
    ComparesAsOrder C m ∧
    ∀ p a b res res' m' m'' r r', (system E).Step m (.concat res p a, .ok ()) m' →
      (system E).Step m' (.concat res' p b, .ok ()) m'' →
      m.compare C (.object a) (.object b) = some r →
      m''.compare C (.object res) (.object res') = some r' → r'.sign = r.sign := by
  obtain ⟨h, -⟩ := represents_after hrun
  refine ⟨h.comparesAsOrder, ?_⟩
  intro p a b res res' m' m'' r r' hfirst hsecond hr hr'
  have hrun' := hrun.snoc hfirst
  have hrun'' := hrun'.snoc hsecond
  obtain ⟨h', -⟩ := represents_after hrun'
  obtain ⟨h'', -⟩ := represents_after hrun''
  obtain ⟨⟨hres, hp, -⟩, -⟩ := hfirst
  obtain ⟨⟨hres', -, -⟩, -⟩ := hsecond
  rw [h.contents_eq] at hres hp
  rw [h'.contents_eq] at hres'
  obtain ⟨x, y, ha, hb, hsigns⟩ := h.of_compare hr
  obtain ⟨pre, hp⟩ := Option.isSome_iff_exists.mp hp
  have hne : ∀ {n bytes}, Spec.after labels (.object n) = some bytes →
      StringId.object n ≠ .object res := by
    rintro n bytes hn heq
    rw [heq, hres] at hn
    cases hn
  have hafter : Spec.after (labels ++ [(.concat res p a, .ok ())]) =
      Function.update (Spec.after labels) (.object res) (some (pre ++ x)) := by
    rw [Spec.after_concat, Spec.step, Spec.apply, hp, ha]
    rfl
  rw [hafter] at hres'
  have hne' : StringId.object res ≠ .object res' := by
    intro heq
    rw [← heq, Function.update_self] at hres'
    cases hres'
  have hafter' : Spec.after (labels ++ [(.concat res p a, .ok ())] ++
      [(.concat res' p b, .ok ())]) = Function.update (Function.update (Spec.after labels)
        (.object res) (some (pre ++ x))) (.object res') (some (pre ++ y)) := by
    rw [Spec.after_concat, hafter, Spec.step, Spec.apply, Function.update_of_ne (hne hp), hp,
      Function.update_of_ne (hne hb), hb]
    rfl
  obtain ⟨x', y', hx, hy, hsigns'⟩ := h''.of_compare hr'
  rw [hafter', Function.update_of_ne hne', Function.update_self] at hx
  rw [hafter', Function.update_self] at hy
  obtain rfl := Option.some.inj hx
  obtain rfl := Option.some.inj hy
  rw [unsigned, unsigned, List.map_append, List.map_append, Signs.append_left_iff] at hsigns'
  exact hsigns'.sign_eq hsigns

/-- `memcmp` as the difference of the first bytes that differ. -/
def subtraction : Memcmp Nat where
  difference a b := a - b
  signs a b := ⟨by omega, by omega, by omega⟩

/-- The byte 200 is greater than the byte 100. -/
theorem compare_lexicographic_unsigned : ∃ m, ∃ r, ComparesAsOrder subtraction m ∧
    m.compare subtraction (.object 0) (.object 1) = some r ∧ 0 < r := by
  obtain ⟨m₁, hrun₁⟩ := exists_run (show (system roomy).Run .initial [] .initial from .refl _)
    (.fromBytes 0 (some [200]) 1) ⟨rfl, fun _ heq => Option.some.inj heq ▸ Nat.le_refl _⟩
    (by decide)
  obtain ⟨m₂, hrun₂⟩ := exists_run hrun₁ (.fromBytes 1 (some [100]) 1)
    ⟨rfl, fun _ heq => Option.some.inj heq ▸ Nat.le_refl _⟩ (by decide)
  have horder := (compare_lexicographic subtraction roomy hrun₂).1
  have hcontents := (represents_after hrun₂).1.contents_eq
  obtain ⟨r, hr, hsigns⟩ := horder.lexicographic (.object 0) (.object 1) [200] [100]
    (by rw [hcontents]; rfl) (by rw [hcontents]; rfl)
  exact ⟨m₂, r, horder, hr, hsigns.pos.mpr (by decide)⟩

end MoreCpp.CompactString
