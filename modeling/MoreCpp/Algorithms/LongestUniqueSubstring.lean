import MoreCpp.Library.Cells
import MoreCpp.Library.Loop
import MoreCpp.Library.SignedInt
import MoreCpp.Library.Windows

/-!
`longest_unique_substring` of `algorithms/strings/strings.cpp`. `none` is an index out of
range, or an inner loop that `fuel` rounds do not end.
-/

namespace MoreCpp

open Library

namespace LongestUnique

structure Scan where
  cnt : List Int
  l : Nat
  ans : Int

/-- `cnt[c] += d`. -/
def count (cnt : List Int) (c : Char) (d : Int) : Option (List Int) := do
  let k ← cnt[c.toNat]?
  store cnt c.toNat (k + d)

/-- A round of the inner loop, with `c` for `s[r]`. -/
def shrink (s : List Char) (c : Char) (scan : Scan) : Option (Scan ⊕ Scan) := do
  let k ← scan.cnt[c.toNat]?
  if k > 1 then
    let x ← s[scan.l]?
    let cnt ← count scan.cnt x (-1)
    return .inl { scan with cnt, l := scan.l + 1 }
  else return .inr scan

/-- A turn of the outer loop. -/
def turn (fuel : Nat) (s : List Char) (r : Nat) (scan : Scan) : Option Scan := do
  let c ← s[r]?
  let cnt ← count scan.cnt c 1
  let scan ← loop (shrink s c) fuel { scan with cnt }
  return { scan with ans := max scan.ans ((r : Int) - scan.l + 1) }

def start : Scan := ⟨List.replicate 128 0, 0, 0⟩

/-- The length is converted to an `int`. -/
def longestUniqueSubstring (fuel : Nat) (s : List Char) : Option Int := do
  let n : Int := (s.length : Int).bmod (2 ^ 32)
  let scan ← forRange 0 n.toNat (turn fuel s) start
  return scan.ans

variable {s t : List Char} {c x : Char} {cnt : List Int} {l r i : Nat}

/-! ## The counts -/

/-- `cnt` says how often each character is in `t`. -/
def Tally (cnt : List Int) (t : List Char) : Prop :=
  Each cnt 128 fun k a => a = t.countP fun x => x.toNat = k

theorem Tally.count_concat (h : Tally cnt t) (hc : c.toNat < 128) :
    ∃ cnt', count cnt c 1 = some cnt' ∧ Tally cnt' (t ++ [c]) := by
  obtain ⟨k, hk, rfl⟩ := h.read c.toNat hc
  obtain ⟨cnt', hstore, h'⟩ := h.update (a := (t.countP fun x => x.toNat = c.toNat : Int) + 1)
    (Q := fun k a => a = ((t ++ [c]).countP fun x => x.toNat = k : Nat)) hc (by simp)
    fun k a _ hne ha => by simp [ha, hne.symm]
  exact ⟨cnt', by rw [count, hk]; exact hstore, h'⟩

theorem Tally.count_tail (h : Tally cnt (x :: t)) (hx : x.toNat < 128) :
    ∃ cnt', count cnt x (-1) = some cnt' ∧ Tally cnt' t := by
  obtain ⟨k, hk, rfl⟩ := h.read x.toNat hx
  obtain ⟨cnt', hstore, h'⟩ := h.update
    (a := ((x :: t).countP fun y => y.toNat = x.toNat : Int) + -1)
    (Q := fun k a => a = (t.countP fun x => x.toNat = k : Nat)) hx (by simp)
    fun k a _ hne ha => by simp [ha, hne.symm]
  exact ⟨cnt', by rw [count, hk]; exact hstore, h'⟩

/-- The count of a character at the end of a list says whether it is in it before. -/
theorem Tally.read_concat (h : Tally cnt (t ++ [c])) (hc : c.toNat < 128) :
    ∃ k, cnt[c.toNat]? = some k ∧ (k > 1 ↔ c ∈ t) := by
  obtain ⟨k, hk, rfl⟩ := h.read c.toNat hc
  refine ⟨_, hk, ?_⟩
  have hpos : 0 < t.countP (fun x => x.toNat = c.toNat) ↔ c ∈ t := by
    rw [List.countP_pos_iff]
    constructor
    · rintro ⟨x, hx, heq⟩
      have hsame : x = c := Char.toNat_inj.mp (of_decide_eq_true heq)
      exact hsame ▸ hx
    · exact fun hmem => ⟨c, hmem, decide_eq_true rfl⟩
  rw [← hpos, List.countP_append]
  simp

/-! ## The window -/

/-- Windows without a repeated character. -/
def Unique (s : List Char) (l r : Nat) : Prop := (window s l r).Nodup

theorem unique_concat_iff (hlr : l ≤ r) (hc : s[r]? = some c) :
    Unique s l (r + 1) ↔ Unique s l r ∧ c ∉ window s l r := by
  rw [Unique, window_concat hlr hc, List.nodup_append_comm, List.singleton_append, List.nodup_cons,
    and_comm, Unique]

theorem unique_self (s : List Char) (r : Nat) : Unique s r r := by
  rw [Unique, window_self]
  exact List.nodup_nil

theorem Unique.init (hc : s[r]? = some c) (h : Unique s i (r + 1)) : Unique s i r := by
  obtain hle | hgt := le_or_gt i r
  · exact ((unique_concat_iff hle hc).mp h).1
  · rw [Unique, window, List.drop_eq_nil_of_le ((List.length_take_le r s).trans hgt.le)]
    exact List.nodup_nil

theorem Unique.tail (hl : s[l]? = some x) (hlr : l < r) (h : Unique s l r) :
    Unique s (l + 1) r := by
  rw [Unique, window_cons hlr hl] at h
  exact (List.nodup_cons.mp h).2

/-- Inside the inner loop. -/
structure Shrinking (s : List Char) (r : Nat) (ans : Int) (scan : Scan) : Prop where
  moving : Moving (Unique s) r scan.l
  tally : Tally scan.cnt (window s scan.l (r + 1))
  ans : scan.ans = ans

theorem shrink_spec (hchar : ∀ c ∈ s, c.toNat < 128) (hc : s[r]? = some c) {ans : Int}
    {scan : Scan} (h : Shrinking s r ans scan) :
    (∃ scan', shrink s c scan = some (.inr scan') ∧ Shrinking s r ans scan' ∧
      Unique s scan'.l (r + 1)) ∨
    ∃ scan', shrink s c scan = some (.inl scan') ∧ Shrinking s r ans scan' ∧
      r - scan'.l < r - scan.l := by
  obtain ⟨hlr, hgood, -⟩ := h.moving
  have htally := h.tally
  rw [window_concat hlr hc] at htally
  obtain ⟨k, hk, hmore⟩ := htally.read_concat (hchar c (List.mem_of_getElem? hc))
  unfold shrink
  rw [hk, Option.bind_eq_bind, Option.bind_some]
  split
  case isTrue hgt =>
    have hbad : ¬Unique s scan.l (r + 1) := fun hunique =>
      ((unique_concat_iff hlr hc).mp hunique).2 (hmore.mp hgt)
    have hone : Unique s r (r + 1) := by
      rw [unique_concat_iff (Nat.le_refl r) hc, window_self]
      exact ⟨unique_self s r, List.not_mem_nil⟩
    have hlt : scan.l < r := by
      refine Nat.lt_of_le_of_ne hlr fun heq => hbad ?_
      rwa [heq]
    obtain ⟨hr, -⟩ := List.getElem?_eq_some_iff.mp hc
    have hx := List.getElem?_eq_getElem (hlt.trans hr)
    have htally' := h.tally
    rw [window_cons (Nat.lt_succ_of_lt hlt) hx] at htally'
    obtain ⟨cnt', hcount, hcnt'⟩ :=
      htally'.count_tail (hchar _ (List.mem_of_getElem? hx))
    refine .inr ⟨⟨cnt', scan.l + 1, scan.ans⟩, ?_, ⟨?_, hcnt', h.ans⟩, ?_⟩
    · rw [hx, Option.bind_eq_bind, Option.bind_some, hcount]
      rfl
    · exact h.moving.next hone hbad fun _ hunique => hunique.tail hx hlt
    · change r - (scan.l + 1) < _
      omega
  case isFalse hle =>
    refine .inl ⟨scan, rfl, h, (unique_concat_iff hlr hc).mpr ⟨hgood, fun hmem => hle ?_⟩⟩
    exact hmore.mpr hmem

/-- Before turn `r` of the outer loop. -/
structure Scanned (s : List Char) (r : Nat) (scan : Scan) : Prop where
  leftmost : Leftmost (Unique s) r scan.l
  tally : Tally scan.cnt (window s scan.l r)
  ans : ∃ m, scan.ans = (m : Nat) ∧ Longest (Unique s) r m

theorem scanned_start (s : List Char) : Scanned s 0 start := by
  refine ⟨.zero (unique_self s 0), ?_, 0, rfl, .zero (unique_self s 0)⟩
  rw [Tally, start, window_self]
  exact Each.replicate fun _ _ => rfl

/-- The window ends with its left end not beyond the right one. -/
theorem turn_spec {fuel : Nat} (hchar : ∀ c ∈ s, c.toNat < 128) (hr : r < s.length)
    (hfuel : s.length < fuel) {scan : Scan} (h : Scanned s r scan) :
    ∃ scan', turn fuel s r scan = some scan' ∧ Scanned s (r + 1) scan' ∧ scan'.l ≤ r := by
  have hc := List.getElem?_eq_getElem hr
  obtain ⟨cnt', hcount, hcnt'⟩ := h.tally.count_concat (hchar _ (List.mem_of_getElem? hc))
  rw [← window_concat h.leftmost.le hc] at hcnt'
  have hmoving : Shrinking s r scan.ans { scan with cnt := cnt' } :=
    ⟨h.leftmost.moving fun i hgood => hgood.init hc, hcnt', rfl⟩
  have hloop : ∃ scan', loop (shrink s s[r]) fuel { scan with cnt := cnt' } = some scan' ∧
      Shrinking s r scan.ans scan' ∧ Unique s scan'.l (r + 1) :=
    loop_total (Shrinking s r scan.ans) (fun scan => r - scan.l)
      (fun scan hscan => shrink_spec hchar hc hscan) hmoving (by omega)
  obtain ⟨scan', hrun, hend, hunique⟩ := hloop
  have hleft := hend.moving.leftmost hunique
  obtain ⟨m, hm, hlongest⟩ := h.ans
  have hle := hend.moving.le
  have hans : max scan'.ans ((r : Int) - scan'.l + 1) = (max m (r + 1 - scan'.l) : Nat) := by
    rw [hend.ans, hm]
    omega
  refine ⟨{ scan' with ans := max scan'.ans ((r : Int) - scan'.l + 1) }, ?_, ?_, hle⟩
  · simp only [turn, hc, hcount, hrun, Option.bind_eq_bind, Option.bind_some, Option.pure_def]
  · exact ⟨hleft, hend.tally, _, hans, hlongest.next hleft⟩

theorem turns_spec {fuel n : Nat} (hchar : ∀ c ∈ s, c.toNat < 128) (hn : n ≤ s.length)
    (hfuel : s.length < fuel) :
    ∃ scan, forRange 0 n (turn fuel s) start = some scan ∧ Scanned s n scan ∧ scan.l ≤ n - 1 := by
  have hloop := forRange_rule (fun r scan => Scanned s r scan ∧ scan.l ≤ r - 1)
    ⟨scanned_start s, Nat.le_refl 0⟩ fun r scan _ (hr : r < n) h =>
      turn_spec hchar (hr.trans_le hn) hfuel h.1
  rwa [Nat.zero_max] at hloop

/-- The greatest length of a substring in which no character is repeated; and each turn
ends with `l <= r`. -/
theorem longestUniqueSubstring_eq (fuel : Nat) (s : List Char) (hchar : ∀ c ∈ s, c.toNat < 128)
    (hlength : s.length < 2 ^ 31) (hfuel : s.length < fuel) :
    (∃ m : Nat, longestUniqueSubstring fuel s = some (m : Int) ∧
      IsGreatest {k | ∃ t, t <:+: s ∧ t.Nodup ∧ t.length = k} m) ∧
    ∀ r < s.length, ∃ scan, forRange 0 (r + 1) (turn fuel s) start = some scan ∧ scan.l ≤ r := by
  constructor
  · obtain ⟨scan, hrun, hscan, -⟩ := turns_spec hchar (Nat.le_refl _) hfuel
    obtain ⟨m, hm, hlongest⟩ := hscan.ans
    refine ⟨m, ?_, longest_window_iff.mp hlongest⟩
    rw [longestUniqueSubstring, natCast_bmod hlength, Int.toNat_natCast, hrun, ← hm]
    rfl
  · intro r hr
    obtain ⟨scan, hrun, -, hl⟩ := turns_spec hchar (Nat.succ_le_of_lt hr) hfuel
    exact ⟨scan, hrun, hl⟩

theorem longestUniqueSubstring_eq_abba :
    (∃ m : Nat, longestUniqueSubstring 5 ['a', 'b', 'b', 'a'] = some (m : Int) ∧
      IsGreatest {k | ∃ t, t <:+: ['a', 'b', 'b', 'a'] ∧ t.Nodup ∧ t.length = k} m) ∧
    ∀ r < ['a', 'b', 'b', 'a'].length, ∃ scan,
      forRange 0 (r + 1) (turn 5 ['a', 'b', 'b', 'a']) start = some scan ∧ scan.l ≤ r :=
  longestUniqueSubstring_eq 5 ['a', 'b', 'b', 'a'] (by simp) (by decide) (by decide)

/-- As an `int`, this length is negative. -/
theorem longestUniqueSubstring_long :
    (∀ fuel, longestUniqueSubstring fuel (List.replicate (2 ^ 31) 'a') = some 0) ∧
      ['a'] <:+: List.replicate (2 ^ 31) 'a' ∧ ['a'].Nodup := by
  refine ⟨fun fuel => ?_, ⟨[], List.replicate (2 ^ 31 - 1) 'a', ?_⟩, List.nodup_singleton _⟩
  · rw [longestUniqueSubstring, List.length_replicate]
    rfl
  · exact List.replicate_succ.symm

end LongestUnique

end MoreCpp
