import MoreCpp.Strings.CompactString.Represents

/-!
New strings and bytes written into them. The cells of a string are the first
cells of the buffer, or all of the array, that `data()` points to.
-/

namespace MoreCpp.CompactString

open Library

namespace Memory

variable {m : Memory} {s : StringId} {c : Compact}

theorem update_eq (hs : m.strings s = some c) (change : Compact → Compact) :
    m.update s change =
      some { m with strings := Function.update m.strings s (some (change c)) } := by
  rw [update, hs]
  rfl

theorem data_cases {p : Place} (hp : m.data s = some p) : ∃ c, m.strings s = some c ∧
    (p = .buffer s ∨ ∃ b, c.heapPtr = some b ∧ p = .block b) := by
  obtain ⟨c, hc, hif⟩ := Option.bind_eq_some_iff.mp hp
  refine ⟨c, hc, ?_⟩
  split at hif
  · exact .inl (Option.some.inj hif).symm
  · obtain ⟨b, hb, hplace⟩ := Option.map_eq_some_iff.mp hif
    exact .inr ⟨b, hb, hplace.symm⟩

end Memory

theorem Contents.ne {σ : Contents} {s o : StringId} {content : Content} (hs : σ s = none)
    (ho : σ o = some content) : s ≠ o := by
  rintro rfl
  cases hs.symm.trans ho

namespace Represents

variable {m : Memory} {σ : Contents} {s dst src : StringId} {xs ys : List Cell} {len : Nat}

theorem construct (h : Represents m σ) (hs : σ s = none) (len : Nat) :
    Represents (m.construct s len none) (Function.update σ s (some (.raw len))) := by
  apply h.setPlain
  · intro c hc
    cases (h.absent hs).symm.trans hc
  · intro c hc
    cases hc
    rfl
  · exact .raw ⟨_, len, none⟩ List.length_replicate rfl

theorem constructSmall (h : Represents m σ) (hs : σ s = none) (hsmall : len ≤ bufferSize) :
    Represents (m.construct s len none)
      (Function.update σ s (some (.cells (.replicate len none)))) := by
  apply h.setPlain
  · intro c hc
    cases (h.absent hs).symm.trans hc
  · intro c hc
    cases hc
    rfl
  · apply Stored.ofBuffer List.length_replicate rfl hsmall
    rw [List.take_replicate, Nat.min_eq_left hsmall]

/-- A new string has its length and no bytes yet, unless there is no memory. -/
theorem sized (h : Represents m σ) (E : Setting) (hs : σ s = none) (len : Nat) :
    (∃ m', m.sized E s len = (.error .badAlloc, m') ∧ bufferSize < len ∧ Represents m' σ) ∨
      ∃ m', m.sized E s len = (.ok (), m') ∧
        Represents m' (Function.update σ s (some (.cells (.replicate len none)))) := by
  rcases Nat.lt_or_ge bufferSize len with hlarge | hsmall
  · rw [Memory.sized, if_neg (Nat.not_le_of_lt hlarge), Memory.newArray]
    cases hfails : E.fails m.time len with
    | true => exact .inl ⟨_, rfl, hlarge, h.setTime _⟩
    | false =>
        have hmax : len < 2 ^ 63 := by
          by_contra hle
          rw [E.fails_of_large m.time len (Nat.le_of_not_lt hle)] at hfails
          cases hfails
        exact .inr ⟨_, rfl, h.allocate hs hlarge hmax _⟩
  · exact .inr ⟨_, by rw [Memory.sized, if_pos hsmall], h.constructSmall hs hsmall⟩

/-- What `data()` points to begins with the cells of the string, and cells written
there are its. -/
theorem place (h : Represents m σ) (hs : σ s = some (.cells xs)) :
    ∃ p all, m.data s = some p ∧ m.cells p = some all ∧ xs.length ≤ all.length ∧
      all.take xs.length = xs ∧ ∀ all', all'.length = all.length →
        ∃ m', m.setCells all' p = some m' ∧
          Represents m' (Function.update σ s (some (.cells (all'.take xs.length)))) := by
  obtain ⟨c, hc, hstored⟩ := h.object hs
  have hlength := hstored.length_eq
  cases hstored with
  | small _ hbuffer hptr hsmall =>
      refine ⟨.buffer s, c.buffer, ?_, ?_, ?_, ?_, fun all' hall' =>
        ⟨_, Memory.update_eq hc _, ?_⟩⟩
      · simp [Memory.data, hc, hsmall]
      · simp [Memory.cells, hc]
      · rw [hlength, hbuffer]
        exact hsmall
      · rw [hlength]
      · rw [hlength]
        apply h.setPlain
        · intro d hd
          cases hc.symm.trans hd
          exact hptr
        · intro d hd
          cases hd
          exact hptr
        · exact .small { c with buffer := all' } (hall'.trans hbuffer) hptr hsmall
  | large _ b _ hbuffer hptr hblock _ hlarge hmax =>
      refine ⟨.block b, xs, ?_, hblock, Nat.le_refl _, List.take_length, fun all' hall' =>
        ⟨_, rfl, ?_⟩⟩
      · simp [Memory.data, hc, Nat.not_le_of_lt hlarge, hptr]
      · rw [← hall', List.take_length]
        exact h.store hc hptr (hall'.trans hlength) hlarge hmax

/-- The bytes of two strings are at different places. -/
theorem place_ne (h : Represents m σ) (hne : dst ≠ src) {p q : Place}
    (hp : m.data dst = some p) (hq : m.data src = some q) : p ≠ q := by
  obtain ⟨c, hc, hcase⟩ := Memory.data_cases hp
  obtain ⟨d, hd, hcase'⟩ := Memory.data_cases hq
  rcases hcase with rfl | ⟨b, hb, rfl⟩
  · rcases hcase' with rfl | ⟨b', hb', rfl⟩
    · exact fun heq => hne (Place.buffer.inj heq)
    · exact nofun
  · rcases hcase' with rfl | ⟨b', hb', rfl⟩
    · exact nofun
    · rintro heq
      cases heq
      exact hne (h.unique dst src c d b hc hd hb hb')

theorem copyBytes (h : Represents m σ) (hne : dst ≠ src) (hdst : σ dst = some (.cells xs))
    (hsrc : σ src = some (.cells ys)) (offset start n : Nat) (hinto : offset + n ≤ xs.length)
    (hfrom : start + n ≤ ys.length) :
    ∃ m', m.copyBytes dst offset src start n = some m' ∧
      Represents m' (Function.update σ dst
        (some (.cells (blit xs offset ((ys.drop start).take n))))) := by
  rcases Nat.eq_zero_or_pos n with rfl | hpos
  · refine ⟨m, rfl, ?_⟩
    have hblit : blit xs offset ((ys.drop start).take 0) = xs := by
      simp [blit]
    rwa [hblit, ← hdst, Function.update_eq_self]
  · obtain ⟨p, into, hp, hcells, hlength, htake, hwrite⟩ := h.place hdst
    obtain ⟨q, source, hq, hcells', hlength', htake', -⟩ := h.place hsrc
    have hread : (ys.drop start).take n = (source.drop start).take n := by
      rw [← htake', List.drop_take, List.take_take, Nat.min_eq_left (by omega)]
    have hcount : ((source.drop start).take n).length = n := by
      rw [List.length_take_of_le (by rw [List.length_drop]; omega)]
    obtain ⟨m', hm', hrep⟩ := hwrite (blit into offset ((source.drop start).take n))
      (blit_length (by omega))
    refine ⟨m', ?_, ?_⟩
    · rw [Memory.copyBytes, if_pos hpos, hp, hq]
      simp only [Option.bind_eq_bind, Option.bind_some, Memory.memcpy, hcells, hcells']
      rw [if_pos ⟨h.place_ne hne hp hq, by omega, by omega⟩]
      exact hm'
    · rwa [blit_take (by omega) hlength, htake, ← hread] at hrep

theorem copyIn (h : Represents m σ) (hs : σ s = some (.cells xs)) (bytes : Option Bytes) {n : Nat}
    (hinto : n ≤ xs.length) (hfrom : n ≤ (bytes.getD []).length) :
    ∃ m', m.copyIn s bytes n = some m' ∧
      Represents m' (Function.update σ s
        (some (.cells (blit xs 0 (((bytes.getD []).take n).map some))))) := by
  rcases Nat.eq_zero_or_pos n with rfl | hpos
  · refine ⟨m, rfl, ?_⟩
    have hblit : blit xs 0 (((bytes.getD []).take 0).map some) = xs := by
      simp [blit]
    rwa [hblit, ← hs, Function.update_eq_self]
  · cases bytes with
    | none =>
        rw [Option.getD_none, List.length_nil] at hfrom
        omega
    | some source =>
        rw [Option.getD_some] at hfrom ⊢
        obtain ⟨p, into, hp, hcells, hlength, htake, hwrite⟩ := h.place hs
        have hcount : ((source.take n).map some).length = n := by
          rw [List.length_map, List.length_take_of_le hfrom]
        obtain ⟨m', hm', hrep⟩ := hwrite (blit into 0 ((source.take n).map some))
          (blit_length (by omega))
        refine ⟨m', ?_, ?_⟩
        · rw [Memory.copyIn, if_pos hpos, hp]
          simp only [Option.bind_eq_bind, Option.bind_some, hcells]
          rw [if_pos ⟨by omega, hfrom⟩]
          exact hm'
        · rwa [blit_take (by omega) hlength, htake] at hrep

end Represents

/-- A call leaves cells to a string, or nothing changes for want of memory. -/
def Leaves (σ : Contents) (s : StringId) (xs : List Cell) (call : Option Result) : Prop :=
  (∃ m', call = some (.error .badAlloc, m') ∧ bufferSize < xs.length ∧ Represents m' σ) ∨
    ∃ m', call = some (.ok (), m') ∧ Represents m' (Function.update σ s (some (.cells xs)))

namespace Represents

variable {m : Memory} {σ : Contents} {self o res : StringId} {xs ys : List Cell}

/-- A new string whose cells are all written. -/
theorem make (h : Represents m σ) (E : Setting) (hself : σ self = none) (xs : List Cell)
    (next : Memory → Option Memory)
    (hnext : ∀ m', Represents m' (Function.update σ self
      (some (.cells (.replicate xs.length none)))) →
        ∃ m'', next m' = some m'' ∧ Represents m'' (Function.update σ self (some (.cells xs)))) :
    Leaves σ self xs (Memory.onward (m.sized E self xs.length) next) := by
  rcases h.sized E hself xs.length with ⟨m', hsized, hlarge, hrep⟩ | ⟨m', hsized, hrep⟩
  · exact .inl ⟨m', by rw [hsized, Memory.onward], hlarge, hrep⟩
  · obtain ⟨m'', hm'', hrep'⟩ := hnext m' hrep
    refine .inr ⟨m'', ?_, hrep'⟩
    rw [hsized, Memory.onward, hm'']
    rfl

theorem fromBytes (h : Represents m σ) (E : Setting) (hself : σ self = none)
    (src : Option Bytes) {len : Nat} (hfrom : len ≤ (src.getD []).length) :
    Leaves σ self (((src.getD []).take len).map some) (m.fromBytes E self src len) := by
  have hlength : (((src.getD []).take len).map some).length = len := by
    rw [List.length_map, List.length_take_of_le hfrom]
  have hguard : ¬ (0 < len ∧ src = none) := by
    rintro ⟨hpos, rfl⟩
    rw [Option.getD_none, List.length_nil] at hfrom
    omega
  have hmake := h.make E hself (((src.getD []).take len).map some) (Memory.copyIn self src len) ?_
  · rw [hlength] at hmake
    rwa [Memory.fromBytes, if_neg hguard]
  · intro m' hrep
    rw [hlength] at hrep
    obtain ⟨m'', hm'', hrep'⟩ := hrep.copyIn (Function.update_self self _ _) src
      (Nat.le_of_eq List.length_replicate.symm) hfrom
    rw [Function.update_idem, blit_all (hlength.trans List.length_replicate.symm)] at hrep'
    exact ⟨m'', hm'', hrep'⟩

theorem copy (h : Represents m σ) (E : Setting) (hself : σ self = none)
    (ho : σ o = some (.cells ys)) : Leaves σ self ys (m.copy E self o) := by
  have hne := Contents.ne hself ho
  obtain ⟨c, hc, hlength⟩ := h.objectCells ho
  rw [Memory.copy, hc]
  simp only [Option.bind_eq_bind, Option.bind_some, hlength]
  apply h.make E hself ys (Memory.copyBytes self 0 o 0 ys.length)
  intro m' hrep
  obtain ⟨m'', hm'', hrep'⟩ := hrep.copyBytes hne (Function.update_self self _ _)
    ((Function.update_of_ne hne.symm ..).trans ho) 0 0 ys.length
    (by rw [List.length_replicate]; omega) (by omega)
  rw [Function.update_idem, List.drop_zero, List.take_length,
    blit_all List.length_replicate.symm] at hrep'
  exact ⟨m'', hm'', hrep'⟩

theorem concat (h : Represents m σ) (E : Setting) (hres : σ res = none)
    (hself : σ self = some (.cells xs)) (ho : σ o = some (.cells ys)) :
    Leaves σ res (xs ++ ys) (m.concat E res self o) := by
  have hneSelf := Contents.ne hres hself
  have hneO := Contents.ne hres ho
  obtain ⟨a, ha, hlengthA⟩ := h.objectCells hself
  obtain ⟨b, hb, hlengthB⟩ := h.objectCells ho
  -- No string is long enough for the sum to wrap around.
  have hsum : (xs.length + ys.length) % 2 ^ 64 = (xs ++ ys).length := by
    have hx := h.length_lt hself
    have hy := h.length_lt ho
    rw [List.length_append]
    exact Nat.mod_eq_of_lt (by omega)
  have hcells : List.replicate (xs ++ ys).length (none : Cell) =
      .replicate xs.length none ++ .replicate ys.length none := by
    rw [List.length_append, List.replicate_append_replicate]
  rw [Memory.concat, ha, hb]
  simp only [Option.bind_eq_bind, Option.bind_some, hlengthA, hlengthB, hsum]
  apply h.make E hres (xs ++ ys)
  intro m' hrep
  rw [hcells] at hrep
  obtain ⟨m₁, hm₁, hrep₁⟩ := hrep.copyBytes hneSelf (Function.update_self res _ _)
    ((Function.update_of_ne hneSelf.symm ..).trans hself) 0 0 xs.length
    (by rw [List.length_append, List.length_replicate]; omega) (by omega)
  have hfirst := blit_append [] (.replicate xs.length none) (.replicate ys.length none) xs
    List.length_replicate.symm
  rw [List.nil_append, List.length_nil, List.nil_append] at hfirst
  rw [Function.update_idem, List.drop_zero, List.take_length, hfirst] at hrep₁
  obtain ⟨m₂, hm₂, hrep₂⟩ := hrep₁.copyBytes hneO (Function.update_self res _ _)
    ((Function.update_of_ne hneO.symm ..).trans ho) xs.length 0 ys.length
    (Nat.le_of_eq (by rw [List.length_append, List.length_replicate])) (by omega)
  have hsecond := blit_append xs (.replicate ys.length none) [] ys List.length_replicate.symm
  rw [List.append_nil, List.append_nil] at hsecond
  rw [Function.update_idem, List.drop_zero, List.take_length, hsecond] at hrep₂
  exact ⟨m₂, by rw [hm₁]; exact hm₂, hrep₂⟩

theorem substr (h : Represents m σ) (E : Setting) (hres : σ res = none)
    (hself : σ self = some (.cells xs)) {pos count : Nat} (hfits : pos + count ≤ xs.length) :
    Leaves σ res ((xs.drop pos).take count) (m.substr E res self pos count) := by
  have hne := Contents.ne hres hself
  obtain ⟨c, hc, hlength⟩ := h.objectCells hself
  have hcount : ((xs.drop pos).take count).length = count :=
    List.length_take_of_le (by rw [List.length_drop]; omega)
  have hmake := h.make E hres ((xs.drop pos).take count) (Memory.copyBytes res 0 self pos count) ?_
  · rw [hcount] at hmake
    rw [Memory.substr, hc]
    simp only [Option.bind_eq_bind, Option.bind_some, hlength]
    rwa [if_neg (by omega)]
  · intro m' hrep
    obtain ⟨m'', hm'', hrep'⟩ := hrep.copyBytes hne (Function.update_self res _ _)
      ((Function.update_of_ne hne.symm ..).trans hself) 0 pos count
      (by rw [List.length_replicate]; omega) hfits
    rw [Function.update_idem, blit_all List.length_replicate.symm] at hrep'
    exact ⟨m'', hm'', hrep'⟩

theorem substr_outOfRange (h : Represents m σ) (E : Setting) (hself : σ self = some (.cells xs))
    {pos count : Nat} (hfits : ¬ pos + count ≤ xs.length) :
    m.substr E res self pos count = some (.error .outOfRange, m) := by
  obtain ⟨c, hc, hlength⟩ := h.objectCells hself
  rw [Memory.substr, hc]
  simp only [Option.bind_eq_bind, Option.bind_some, hlength]
  exact if_pos (by omega)

end Represents

end MoreCpp.CompactString
