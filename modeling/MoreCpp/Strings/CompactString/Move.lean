import MoreCpp.Strings.CompactString.Copy

/-!
Moves, which copy the buffer of a small string and take the array of a large one,
and the assignments and the destructor.
-/

namespace MoreCpp.CompactString

open Library

/-- The objects after the array of one went to another. -/
def handOver (strings : StringId → Option Compact) (self o : StringId) (c d : Compact) :
    StringId → Option Compact :=
  Function.update (Function.update strings self (some { c with heapPtr := d.heapPtr })) o
    (some { d with heapPtr := none, length := 0 })

/-- The array is that of the other object then, and all others are whose they were. -/
theorem handOver_cases {strings : StringId → Option Compact} {self o t : StringId}
    {c d e : Compact} {b b' : Nat}
    (hunique : ∀ s s' c c' b, strings s = some c → strings s' = some c' →
      c.heapPtr = some b → c'.heapPtr = some b → s = s')
    (hd : strings o = some d) (hb : d.heapPtr = some b)
    (he : handOver strings self o c d t = some e) (hb' : e.heapPtr = some b') :
    t = self ∧ b' = b ∨ strings t = some e ∧ b' ≠ b := by
  rcases eq_or_ne t o with rfl | hneO
  · rw [handOver, Function.update_self] at he
    cases he
    cases hb'
  · rw [handOver, Function.update_of_ne hneO] at he
    rcases eq_or_ne t self with rfl | hneSelf
    · rw [Function.update_self] at he
      cases he
      exact .inl ⟨rfl, Option.some.inj (hb'.symm.trans hb)⟩
    · rw [Function.update_of_ne hneSelf] at he
      refine .inr ⟨he, ?_⟩
      rintro rfl
      exact hneO (hunique t o e d b' he hd hb' hb)

namespace Represents

variable {m : Memory} {σ : Contents} {self o : StringId} {xs ys : List Cell}

/-- An object without an array has a small string in its buffer. -/
theorem setBuffer (h : Represents m σ) (hself : σ self = some (.raw xs.length))
    (hsmall : xs.length ≤ bufferSize) {c : Compact} (hc : m.strings self = some c)
    {buffer : List Cell} (hbuffer : buffer.length = bufferSize)
    (htake : buffer.take xs.length = xs) :
    Represents
      { m with strings := Function.update m.strings self (some { c with buffer := buffer }) }
      (Function.update σ self (some (.cells xs))) := by
  obtain ⟨c', hc', -, hlength, hptr⟩ := h.objectRaw hself
  cases hc.symm.trans hc'
  apply h.setPlain
  · intro d hd
    cases hc.symm.trans hd
    exact hptr
  · intro d hd
    cases hd
    exact hptr
  · apply Stored.ofBuffer hbuffer
    · exact hptr
    · exact hlength ▸ hsmall
    · rw [hlength, htake]

theorem bufferOf (h : Represents m σ) (ho : σ o = some (.cells xs))
    (hsmall : xs.length ≤ bufferSize) :
    ∃ d, m.strings o = some d ∧ d.buffer.length = bufferSize ∧ d.heapPtr = none ∧
      d.length = xs.length ∧ d.buffer.take xs.length = xs := by
  obtain ⟨d, hd, hstored⟩ := h.object ho
  have hlength := hstored.length_eq
  cases hstored with
  | small _ hbuffer hptr => exact ⟨d, hd, hbuffer, hptr, hlength.symm, by rw [hlength]⟩
  | large _ _ _ _ _ _ _ hlarge => omega

/-- The bytes of a small string are copied into an object that has none. -/
theorem fill (h : Represents m σ) (hne : self ≠ o) (hself : σ self = some (.raw xs.length))
    (ho : σ o = some (.cells xs)) (hsmall : xs.length ≤ bufferSize) :
    ∃ m', (if 0 < xs.length then m.memcpy (.buffer self) 0 (.buffer o) 0 xs.length else some m) =
        some m' ∧ Represents m' (Function.update σ self (some (.cells xs))) := by
  obtain ⟨c, hc, hbuffer, -, -⟩ := h.objectRaw hself
  obtain ⟨d, hd, hbuffer', -, -, htake⟩ := h.bufferOf ho hsmall
  rcases Nat.eq_zero_or_pos xs.length with hzero | hpos
  · refine ⟨m, if_neg (by omega), ?_⟩
    have hset := h.setBuffer hself hsmall hc hbuffer (by
      rw [List.eq_nil_of_length_eq_zero hzero]
      exact List.take_zero)
    have hsame :
        Function.update m.strings self (some { c with buffer := c.buffer }) = m.strings := by
      rw [← hc, Function.update_eq_self]
    rwa [hsame] at hset
  · have hcount : (d.buffer.take xs.length).length = xs.length := by rw [htake]
    have hinto : (blit c.buffer 0 (d.buffer.take xs.length)).length = bufferSize :=
      (blit_length (by omega)).trans hbuffer
    refine ⟨_, ?_, h.setBuffer hself hsmall hc hinto ?_⟩
    · rw [if_pos hpos, Memory.memcpy]
      simp only [Memory.cells, hc, hd, Option.map_some, Option.bind_eq_bind, Option.bind_some]
      rw [if_pos ⟨fun heq => hne (Place.buffer.inj heq), by omega, by omega⟩, List.drop_zero]
      exact Memory.update_eq hc _
    · rw [blit_take (by omega) (by omega), htake, blit_all (by
        rw [List.length_take_of_le (by omega)])]

theorem clear (h : Represents m σ) (ho : σ o = some (.cells xs)) (hsmall : xs.length ≤ bufferSize) :
    ∃ m', m.update o (fun c => { c with length := 0 }) = some m' ∧
      Represents m' (Function.update σ o (some (.cells []))) := by
  obtain ⟨d, hd, hbuffer, hptr, -, -⟩ := h.bufferOf ho hsmall
  refine ⟨_, Memory.update_eq hd _, h.setPlain ?_ ?_ ?_⟩
  · intro e he
    cases hd.symm.trans he
    exact hptr
  · intro e he
    cases he
    exact hptr
  · exact .small { d with length := 0 } hbuffer hptr (Nat.zero_le _)

theorem arrayOf (h : Represents m σ) (ho : σ o = some (.cells xs))
    (hlarge : bufferSize < xs.length) :
    ∃ d b, m.strings o = some d ∧ d.buffer.length = bufferSize ∧ d.heapPtr = some b ∧
      d.length = xs.length ∧ m.heap.blocks b = some xs := by
  obtain ⟨d, hd, hstored⟩ := h.object ho
  have hlength := hstored.length_eq
  cases hstored with
  | small => omega
  | large _ b _ hbuffer hptr hblock => exact ⟨d, b, hd, hbuffer, hptr, hlength.symm, hblock⟩

/-- An object without an array takes that of a large string. -/
theorem takeArray (h : Represents m σ) (hne : self ≠ o) (hself : σ self = some (.raw xs.length))
    (ho : σ o = some (.cells xs)) (hlarge : bufferSize < xs.length) {c d : Compact}
    (hc : m.strings self = some c) (hd : m.strings o = some d) :
    Represents { m with strings := handOver m.strings self o c d }
      (Function.update (Function.update σ self (some (.cells xs))) o (some (.cells []))) := by
  obtain ⟨c', hc', hbuffer, hlength, hptr⟩ := h.objectRaw hself
  cases hc.symm.trans hc'
  obtain ⟨d', b, hd', hbuffer', hb, -, hblock⟩ := h.arrayOf ho hlarge
  cases hd.symm.trans hd'
  refine ⟨fun t => ?_, fun b' hb' => ?_, fun t t' e e' b' he he' hb' hb'' => ?_, h.balanced⟩
  · rcases eq_or_ne t o with rfl | hneO
    · simp only [handOver, Function.update_self]
      exact .ofBuffer hbuffer' rfl (Nat.zero_le _) List.take_zero
    · rcases eq_or_ne t self with rfl | hneSelf
      · simp only [handOver, Function.update_of_ne hneO, Function.update_self]
        exact .large _ b xs hbuffer hb hblock hlength.symm (hlength ▸ hlarge)
          (hlength ▸ h.length_lt ho)
      · simp only [handOver, Function.update_of_ne hneO, Function.update_of_ne hneSelf]
        exact h.stored t
  · obtain ⟨t, e, he, hown⟩ := h.owned b' hb'
    rcases eq_or_ne t o with rfl | hneO
    · cases hd.symm.trans he
      exact ⟨self, _, (Function.update_of_ne hne ..).trans (Function.update_self self _ _), hown⟩
    · have hneSelf : t ≠ self := by
        rintro rfl
        cases hc.symm.trans he
        cases hptr.symm.trans hown
      exact ⟨t, e, (Function.update_of_ne hneO ..).trans
        ((Function.update_of_ne hneSelf ..).trans he), hown⟩
  · rcases handOver_cases h.unique hd hb he hb' with ⟨rfl, rfl⟩ | ⟨hold, hneB⟩ <;>
      rcases handOver_cases h.unique hd hb he' hb'' with ⟨rfl, hsame⟩ | ⟨hold', hneB'⟩
    · rfl
    · exact absurd rfl hneB'
    · exact absurd hsame hneB
    · exact h.unique t t' e e' b' hold hold' hb' hb''

/-- Afterwards the other string is empty, be it small or large. -/
theorem steal (h : Represents m σ) (hne : self ≠ o) (hself : σ self = some (.raw xs.length))
    (ho : σ o = some (.cells xs)) :
    ∃ m', m.steal self o = some m' ∧ Represents m'
      (Function.update (Function.update σ self (some (.cells xs))) o (some (.cells []))) := by
  rcases Nat.lt_or_ge bufferSize xs.length with hlarge | hsmall
  · obtain ⟨c, hc, -⟩ := h.objectRaw hself
    obtain ⟨d, b, hd, -, hb, hlength, -⟩ := h.arrayOf ho hlarge
    refine ⟨_, ?_, h.takeArray hne hself ho hlarge hc hd⟩
    have hd' : Function.update m.strings self (some { c with heapPtr := d.heapPtr }) o = some d :=
      (Function.update_of_ne hne.symm ..).trans hd
    rw [Memory.steal, hd]
    simp only [Option.bind_eq_bind, Option.bind_some]
    rw [if_neg (by omega), Memory.update_eq hc, Option.bind_some, Memory.update_eq hd',
      Option.bind_some, Memory.update_eq (Function.update_self o _ _)]
    simp only [Function.update_idem, handOver]
  · obtain ⟨d, hd, -, -, hlength, -⟩ := h.bufferOf ho hsmall
    obtain ⟨m₁, hm₁, hrep₁⟩ := h.fill hne hself ho hsmall
    obtain ⟨m₂, hm₂, hrep₂⟩ := hrep₁.clear ((Function.update_of_ne hne.symm ..).trans ho) hsmall
    refine ⟨m₂, ?_, hrep₂⟩
    rw [Memory.steal, hd]
    simp only [Option.bind_eq_bind, Option.bind_some, hlength]
    rw [if_pos hsmall]
    by_cases hpos : 0 < xs.length
    · rw [if_pos hpos] at hm₁ ⊢
      rw [hm₁]
      exact hm₂
    · rw [if_neg hpos] at hm₁ ⊢
      cases hm₁
      exact hm₂

theorem move (h : Represents m σ) (hself : σ self = none) (ho : σ o = some (.cells xs)) :
    ∃ m', m.move self o = some m' ∧ Represents m'
      (Function.update (Function.update σ self (some (.cells xs))) o (some (.cells []))) := by
  have hne := Contents.ne hself ho
  obtain ⟨d, hd, hlength⟩ := h.objectCells ho
  obtain ⟨m', hm', hrep⟩ := (h.construct hself xs.length).steal hne (Function.update_self self _ _)
    ((Function.update_of_ne hne.symm ..).trans ho)
  rw [Function.update_idem] at hrep
  refine ⟨m', ?_, hrep⟩
  rw [Memory.move, hd]
  simp only [Option.bind_eq_bind, Option.bind_some, hlength]
  exact hm'

/-- `delete[]` of the array, and an object without one. -/
theorem release (h : Represents m σ) (hself : σ self = some (.cells ys)) :
    ∃ m₁ m₂ n, m.deleteArray self = some m₁ ∧
      m₁.update self (fun c => { c with heapPtr := none }) = some m₂ ∧
      Represents m₂ (Function.update σ self (some (.raw n))) := by
  obtain ⟨c, hc, hstored⟩ := h.object hself
  obtain ⟨heap, hheap, hreplace⟩ := h.replace hc
  refine ⟨{ m with heap := heap }, _, c.length, ?_,
    Memory.update_eq (m := { m with heap := heap }) hc _, hreplace _ _ ?_ ?_⟩
  · rw [Memory.deleteArray, hc]
    simp only [Option.bind_eq_bind, Option.bind_some, hheap]
    rfl
  · intro d hd
    cases hd
    rfl
  · exact fun blocks => .raw { c with heapPtr := none } hstored.buffer_length rfl

theorem resize (h : Represents m σ) {n : Nat} (hself : σ self = some (.raw n)) (len : Nat) :
    ∃ m', m.update self (fun c => { c with length := len }) = some m' ∧
      Represents m' (Function.update σ self (some (.raw len))) := by
  obtain ⟨c, hc, hbuffer, -, hptr⟩ := h.objectRaw hself
  refine ⟨_, Memory.update_eq hc _, h.setPlain ?_ ?_ ?_⟩
  · intro d hd
    cases hc.symm.trans hd
    exact hptr
  · intro d hd
    cases hd
    exact hptr
  · exact .raw { c with length := len } hbuffer hptr

theorem moveAssign (h : Represents m σ) (hne : self ≠ o) (hself : σ self = some (.cells ys))
    (ho : σ o = some (.cells xs)) :
    ∃ m', m.moveAssign self o = some m' ∧ Represents m'
      (Function.update (Function.update σ self (some (.cells xs))) o (some (.cells []))) := by
  obtain ⟨m₁, m₂, n, hm₁, hm₂, hrep₂⟩ := h.release hself
  have ho₂ := (Function.update_of_ne hne.symm (some (Content.raw n)) σ).trans ho
  obtain ⟨d, hd, hlength⟩ := hrep₂.objectCells ho₂
  obtain ⟨m₃, hm₃, hrep₃⟩ := hrep₂.resize (Function.update_self self _ _) xs.length
  rw [Function.update_idem] at hrep₃
  obtain ⟨m', hm', hrep⟩ := hrep₃.steal hne (Function.update_self self _ _)
    ((Function.update_of_ne hne.symm ..).trans ho)
  rw [Function.update_idem] at hrep
  refine ⟨m', ?_, hrep⟩
  rw [Memory.moveAssign, if_neg hne]
  simp only [Option.bind_eq_bind, hm₁, hm₂, hd, hlength, hm₃, Option.bind_some, hm']

theorem destroy (h : Represents m σ) (hself : σ self = some (.cells ys)) :
    ∃ m', m.destroy self = some m' ∧ Represents m' (Function.update σ self none) := by
  obtain ⟨c, hc, -⟩ := h.object hself
  obtain ⟨heap, hheap, hreplace⟩ := h.replace hc
  refine ⟨_, ?_, hreplace none none nofun fun _ => .absent⟩
  rw [Memory.destroy, Memory.deleteArray, hc]
  simp only [Option.bind_eq_bind, Option.bind_some, hheap]
  rfl

/-- A local variable is gone at the end of its function. -/
theorem update_temp {σ : Contents} (htemp : σ .temp = none) {s : StringId} (hne : .temp ≠ s)
    (temporary new : Option Content) :
    Function.update (Function.update (Function.update σ .temp temporary) s new) .temp none =
      Function.update σ s new := by
  rw [Function.update_comm hne, Function.update_idem]
  exact Function.update_eq_self_iff.mpr ((Function.update_of_ne hne ..).trans htemp).symm

theorem copyAssign (h : Represents m σ) (E : Setting) (hne : self ≠ o) (htemp : σ .temp = none)
    (hself : σ self = some (.cells ys)) (ho : σ o = some (.cells xs)) :
    Leaves σ self xs (m.copyAssign E self o) := by
  have hneSelf := Contents.ne htemp hself
  rw [Memory.copyAssign, if_neg hne]
  rcases h.copy E htemp ho with ⟨m', hcopy, hlarge, hrep⟩ | ⟨m₁, hcopy, hrep₁⟩
  · exact .inl ⟨m', by rw [hcopy]; rfl, hlarge, hrep⟩
  · obtain ⟨m₂, hm₂, hrep₂⟩ := hrep₁.moveAssign hneSelf.symm
      ((Function.update_of_ne hneSelf.symm ..).trans hself) (Function.update_self _ _ _)
    obtain ⟨m₃, hm₃, hrep₃⟩ := hrep₂.destroy (Function.update_self _ _ _)
    refine .inr ⟨m₃, ?_, ?_⟩
    · rw [hcopy]
      simp only [Option.bind_eq_bind, Option.bind_some, Memory.onward, hm₂, hm₃]
      rfl
    · rwa [Function.update_idem, update_temp htemp hneSelf] at hrep₃

/-- A string is made in its place, or in a local variable and then moved. -/
theorem returned {res : StringId} (hres : σ res = none) (htemp : σ .temp = none) (hne : .temp ≠ res)
    {make : StringId → Memory → Option Result} (hmake : ∀ s, σ s = none → Leaves σ s xs (make s m))
    (elides : Bool) : Leaves σ res xs (m.returned elides res make) := by
  cases elides with
  | true => exact hmake res hres
  | false =>
      rw [Memory.returned, if_neg Bool.false_ne_true]
      rcases hmake .temp htemp with ⟨m', hcall, hlarge, hrep⟩ | ⟨m₁, hcall, hrep₁⟩
      · exact .inl ⟨m', by rw [hcall]; rfl, hlarge, hrep⟩
      · obtain ⟨m₂, hm₂, hrep₂⟩ := hrep₁.move ((Function.update_of_ne hne.symm ..).trans hres)
          (Function.update_self _ _ _)
        obtain ⟨m₃, hm₃, hrep₃⟩ := hrep₂.destroy (Function.update_self _ _ _)
        refine .inr ⟨m₃, ?_, ?_⟩
        · rw [hcall]
          simp only [Option.bind_eq_bind, Option.bind_some, Memory.onward, hm₂, hm₃]
          rfl
        · rwa [Function.update_idem, update_temp htemp hne] at hrep₃

end Represents

/-- A function that makes no string returns none. -/
theorem Memory.returned_error {m : Memory} {make : StringId → Memory → Option Result} {e : Exn}
    (hmake : ∀ s, make s m = some (.error e, m)) (elides : Bool) (res : StringId) :
    m.returned elides res make = some (.error e, m) := by
  cases elides with
  | true => exact hmake res
  | false =>
      rw [Memory.returned, if_neg Bool.false_ne_true, hmake .temp]
      rfl

end MoreCpp.CompactString
