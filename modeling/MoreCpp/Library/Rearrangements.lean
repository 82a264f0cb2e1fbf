import Mathlib.Data.List.Basic
import Mathlib.Data.List.Count
import Mathlib.Data.List.GetD
import Mathlib.Data.List.Pairwise
import Mathlib.Data.List.Perm.Basic
import Mathlib.Order.Lattice

/-!
Lists that are rearrangements of each other, by their positions or by their keys, and lists
in groups by key.
-/

namespace MoreCpp.Library

/-! ## Positions

The positions of a list: where a rearrangement puts them, and what their order says in a
list in ascending order.
-/

section Positions

variable {α : Type*} {l l' : List α}

/-- A rearrangement moves the positions, and no two to one. -/
theorem exists_positions (h : l.Perm l') :
    ∃ move : Nat → Nat, move.Injective ∧ ∀ i, l'[move i]? = l[i]? := by
  induction h with
  | nil => exact ⟨id, Function.injective_id, fun _ => rfl⟩
  | cons x h ih =>
      obtain ⟨move, hinj, hmove⟩ := ih
      refine ⟨fun i => if i = 0 then 0 else move (i - 1) + 1, fun i j hij => ?_, fun i => ?_⟩
      · dsimp only at hij
        split at hij <;> split at hij
        case isTrue.isTrue hi hj => exact hi.trans hj.symm
        case isTrue.isFalse => exact absurd hij.symm (Nat.succ_ne_zero _)
        case isFalse.isTrue => exact absurd hij (Nat.succ_ne_zero _)
        case isFalse.isFalse hi hj =>
          have hsame := hinj (Nat.succ.inj hij)
          omega
      · cases i with
        | zero => rfl
        | succ i => exact hmove i
  | swap x y l =>
      refine ⟨fun i => if i = 0 then 1 else if i = 1 then 0 else i, fun i j hij => ?_, fun i => ?_⟩
      · dsimp only at hij
        split_ifs at hij <;> omega
      · rcases i with _ | _ | i <;> rfl
  | trans h h' ih ih' =>
      obtain ⟨move, hinj, hmove⟩ := ih
      obtain ⟨move', hinj', hmove'⟩ := ih'
      exact ⟨move' ∘ move, hinj'.comp hinj, fun i => (hmove' _).trans (hmove i)⟩

/-- The values of a list in ascending order. -/
structure Ascends [LE α] (l : List α) (v : Nat → α) : Prop where
  read : ∀ i < l.length, l[i]? = some (v i)
  mono : ∀ i j, i ≤ j → j < l.length → v i ≤ v j

theorem ascends_of_pairwise [Preorder α] (d : α) (h : l.Pairwise (· ≤ ·)) :
    Ascends l fun i => l.getD i d where
  read i hi := by rw [List.getElem?_eq_getElem hi, List.getD_eq_getElem _ _ hi]
  mono i j hij hj := by
    have hi : i < l.length := Nat.lt_of_le_of_lt hij hj
    rw [List.getD_eq_getElem _ _ hi, List.getD_eq_getElem _ _ hj]
    obtain hlt | rfl := Nat.lt_or_eq_of_le hij
    · exact List.pairwise_iff_getElem.mp h i j hi hj hlt
    · exact le_rfl

theorem Ascends.eq_of_read [LE α] {v : Nat → α} (h : Ascends l v) {i : Nat} {x : α}
    (hi : l[i]? = some x) : i < l.length ∧ x = v i := by
  obtain ⟨hlt, -⟩ := List.getElem?_eq_some_iff.mp hi
  exact ⟨hlt, Option.some.inj (hi.symm.trans (h.read i hlt))⟩

end Positions

/-! ## Keys

Lists of values with keys, taken apart by key. Two of them that agree at every
key are permutations of each other.
-/

section KeyedList

variable {K V : Type*} [DecidableEq K]

/-- The values with key `k`, in order. -/
def valuesAt (k : K) (entries : List (K × V)) : List V :=
  entries.filterMap fun entry => if entry.1 = k then some entry.2 else none

@[simp] theorem valuesAt_nil (k : K) : valuesAt k ([] : List (K × V)) = [] := rfl

theorem valuesAt_append (k : K) (entries entries' : List (K × V)) :
    valuesAt k (entries ++ entries') = valuesAt k entries ++ valuesAt k entries' :=
  List.filterMap_append

@[simp] theorem valuesAt_singleton_self (k : K) (v : V) : valuesAt k [(k, v)] = [v] := by
  simp [valuesAt]

theorem valuesAt_singleton_of_ne {k l : K} (h : l ≠ k) (v : V) : valuesAt k [(l, v)] = [] := by
  simp [valuesAt, h]

@[simp] theorem valuesAt_cons_self (k : K) (v : V) (rest : List (K × V)) :
    valuesAt k ((k, v) :: rest) = v :: valuesAt k rest := by
  simp [valuesAt]

theorem valuesAt_cons_of_ne {k l : K} (h : l ≠ k) (v : V) (rest : List (K × V)) :
    valuesAt k ((l, v) :: rest) = valuesAt k rest := by
  simp [valuesAt, h]

theorem valuesAt_eq_nil {k : K} {entries : List (K × V)} (h : ∀ entry ∈ entries, entry.1 ≠ k) :
    valuesAt k entries = [] := by
  rw [valuesAt, List.filterMap_eq_nil_iff]
  intro entry hentry
  rw [if_neg (h entry hentry)]

theorem count_valuesAt [DecidableEq V] (k : K) (v : V) (entries : List (K × V)) :
    (valuesAt k entries).count v = entries.count (k, v) := by
  induction entries with
  | nil => rfl
  | cons entry rest ih =>
      obtain ⟨l, w⟩ := entry
      rcases eq_or_ne l k with rfl | hl
      · simpa [valuesAt, List.count_cons] using ih
      · simpa [valuesAt, List.count_cons, hl] using ih

theorem mem_valuesAt {k : K} {v : V} {entries : List (K × V)} :
    v ∈ valuesAt k entries ↔ (k, v) ∈ entries := by
  rw [valuesAt, List.mem_filterMap]
  constructor
  · rintro ⟨⟨l, w⟩, hentry, hvalue⟩
    by_cases hl : l = k
    · rw [if_pos hl] at hvalue
      cases hl
      cases hvalue
      exact hentry
    · rw [if_neg hl] at hvalue
      cases hvalue
  · intro hentry
    exact ⟨(k, v), hentry, if_pos rfl⟩

/-- With at most one value for each key, no two entries have the same key. -/
theorem pairwise_ne_of_valuesAt {entries : List (K × V)}
    (h : ∀ k, (valuesAt k entries).length ≤ 1) :
    entries.Pairwise fun entry entry' => entry.1 ≠ entry'.1 := by
  induction entries with
  | nil => exact .nil
  | cons entry rest ih =>
      obtain ⟨l, w⟩ := entry
      refine .cons ?_ (ih fun k => ?_)
      · rintro ⟨l', w'⟩ hentry rfl
        have hlength := h l
        rw [valuesAt_cons_self, List.length_cons] at hlength
        have hnil : valuesAt l rest = [] := List.eq_nil_of_length_eq_zero (by omega)
        have hw := mem_valuesAt.mpr hentry
        rw [hnil] at hw
        cases hw
      · rcases eq_or_ne l k with rfl | hne
        · have hlength := h l
          rw [valuesAt_cons_self, List.length_cons] at hlength
          omega
        · rw [← valuesAt_cons_of_ne hne w]
          exact h k

theorem perm_of_valuesAt_eq {entries entries' : List (K × V)}
    (h : ∀ k, valuesAt k entries = valuesAt k entries') : entries.Perm entries' := by
  classical
  rw [List.perm_iff_count]
  rintro ⟨k, v⟩
  rw [← count_valuesAt, ← count_valuesAt, h k]

end KeyedList

/-! ## Groups

The elements of a list in groups of one key each.
-/

section Groups

variable {α κ : Type*} {key : α → κ} {l : List α} {groups groups' : List (List α)} {g : List α}
  {a b : α}

structure GroupedBy (key : α → κ) (l : List α) (groups : List (List α)) : Prop where
  perm : groups.flatten.Perm l
  nonempty : ∀ g ∈ groups, g ≠ []
  same : ∀ g ∈ groups, ∀ a ∈ g, ∀ b ∈ g, key a = key b
  apart : groups.Pairwise fun g g' => ∀ a ∈ g, ∀ b ∈ g', key a ≠ key b

namespace GroupedBy

theorem nil : GroupedBy key [] [] where
  perm := .refl _
  nonempty := nofun
  same := nofun
  apart := .nil

theorem mem_iff (h : GroupedBy key l groups) : a ∈ l ↔ ∃ g ∈ groups, a ∈ g := by
  rw [← h.perm.mem_iff, List.mem_flatten]

/-- Two elements are in one group when they have one key. -/
theorem together_iff (h : GroupedBy key l groups) (ha : a ∈ l) (hb : b ∈ l) :
    (∃ g ∈ groups, a ∈ g ∧ b ∈ g) ↔ key a = key b := by
  constructor
  · rintro ⟨g, hg, hag, hbg⟩
    exact h.same g hg a hag b hbg
  · intro hkey
    obtain ⟨g, hg, hag⟩ := h.mem_iff.mp ha
    obtain ⟨g', hg', hbg'⟩ := h.mem_iff.mp hb
    rcases eq_or_ne g g' with rfl | hne
    · exact ⟨g, hg, hag, hbg'⟩
    · have hsymm : Std.Symm fun g g' : List α => ∀ a ∈ g, ∀ b ∈ g', key a ≠ key b :=
        ⟨fun _ _ hne a ha b hb heq => hne b hb a ha heq.symm⟩
      exact absurd hkey (h.apart.forall hg hg' hne a hag b hbg')

/-- An element comes into the group of its key. -/
theorem join (h : GroupedBy key l (groups ++ g :: groups')) (ha : ∀ b ∈ g, key b = key a) :
    GroupedBy key (l ++ [a]) (groups ++ (g ++ [a]) :: groups') := by
  have hmem : ∀ x ∈ g ++ [a], ∃ b ∈ g, key x = key b := by
    intro x hx
    obtain hx | hx := List.mem_append.mp hx
    · exact ⟨x, hx, rfl⟩
    · obtain rfl := List.mem_singleton.mp hx
      obtain ⟨b, hb⟩ := List.exists_mem_of_ne_nil g (h.nonempty g (by simp))
      exact ⟨b, hb, (ha b hb).symm⟩
  have hkeys : ∀ x ∈ g ++ [a], key x = key a := by
    intro x hx
    obtain ⟨b, hb, hkey⟩ := hmem x hx
    exact hkey.trans (ha b hb)
  obtain ⟨hbefore, hafter, hbetween⟩ := List.pairwise_append.mp h.apart
  obtain ⟨hrest, hafter⟩ := List.pairwise_cons.mp hafter
  refine ⟨?_, fun g' hg' => ?_, fun g' hg' x hx y hy => ?_, ?_⟩
  · have hperm := h.perm.append_right [a]
    rw [List.flatten_append, List.flatten_cons] at hperm ⊢
    refine List.Perm.trans ?_ hperm
    simp only [List.append_assoc]
    exact ((List.perm_append_comm).append_left g).append_left groups.flatten
  · obtain hold | hold := List.mem_append.mp hg'
    · exact h.nonempty g' (List.mem_append_left _ hold)
    · obtain rfl | hold := List.mem_cons.mp hold
      · exact List.append_ne_nil_of_right_ne_nil g (List.cons_ne_nil a [])
      · exact h.nonempty g' (List.mem_append_right _ (List.mem_cons_of_mem g hold))
  · obtain hold | hold := List.mem_append.mp hg'
    · exact h.same g' (List.mem_append_left _ hold) x hx y hy
    · obtain rfl | hold := List.mem_cons.mp hold
      · exact (hkeys x hx).trans (hkeys y hy).symm
      · exact h.same g' (List.mem_append_right _ (List.mem_cons_of_mem g hold)) x hx y hy
  · refine List.pairwise_append.mpr ⟨hbefore, List.pairwise_cons.mpr ⟨?_, hafter⟩, ?_⟩
    · intro g' hg' x hx y hy
      obtain ⟨b, hb, hkey⟩ := hmem x hx
      rw [hkey]
      exact hrest g' hg' b hb y hy
    · intro g' hg' g'' hg'' x hx y hy
      obtain rfl | hold := List.mem_cons.mp hg''
      · obtain ⟨b, hb, hkey⟩ := hmem y hy
        rw [hkey]
        exact hbetween g' hg' g List.mem_cons_self x hx b hb
      · exact hbetween g' hg' g'' (List.mem_cons_of_mem g hold) x hx y hy

/-- An element whose key is new makes a group of its own. -/
theorem alone (h : GroupedBy key l groups) (ha : ∀ b ∈ l, key b ≠ key a) :
    GroupedBy key (l ++ [a]) (groups ++ [[a]]) := by
  refine ⟨?_, fun g hg => ?_, fun g hg x hx y hy => ?_, ?_⟩
  · rw [List.flatten_append]
    exact h.perm.append_right [a]
  · obtain hold | hnew := List.mem_append.mp hg
    · exact h.nonempty g hold
    · rw [List.mem_singleton.mp hnew]
      exact List.cons_ne_nil a []
  · obtain hold | hnew := List.mem_append.mp hg
    · exact h.same g hold x hx y hy
    · rw [List.mem_singleton.mp hnew] at hx hy
      rw [List.mem_singleton.mp hx, List.mem_singleton.mp hy]
  · refine List.pairwise_append.mpr ⟨h.apart, List.pairwise_singleton _ _, ?_⟩
    intro g hg g' hg' x hx y hy
    rw [List.mem_singleton.mp hg'] at hy
    rw [List.mem_singleton.mp hy]
    exact ha x (h.mem_iff.mpr ⟨g, hg, hx⟩)

end GroupedBy

/-- The groups are those of a list in the order of its keys, up to where it has been read. -/
structure Runs (key : α → κ) (l : List α) (groups : List (List α)) : Prop where
  grouped : GroupedBy key l groups
  flatten : groups.flatten = l

namespace Runs

theorem nil : Runs key [] [] := ⟨.nil, rfl⟩

theorem last (h : Runs key (l ++ [b]) groups) :
    ∃ groups' g, groups = groups' ++ [g ++ [b]] := by
  rcases List.eq_nil_or_concat groups with rfl | ⟨groups', g, rfl⟩
  · have hnil := h.flatten
    simp at hnil
  · rw [List.concat_eq_append] at h ⊢
    rcases List.eq_nil_or_concat g with rfl | ⟨g', b', rfl⟩
    · exact absurd rfl (h.grouped.nonempty [] (by simp))
    · rw [List.concat_eq_append] at h ⊢
      have hflat := h.flatten
      rw [List.flatten_append, List.flatten_singleton, ← List.append_assoc] at hflat
      obtain ⟨-, hlast⟩ := List.append_inj' hflat rfl
      obtain rfl := List.singleton_inj.mp hlast
      exact ⟨groups', g', rfl⟩

/-- The next element has the key of the last. -/
theorem join (h : Runs key (l ++ [b]) (groups ++ [g])) (ha : key b = key a) :
    Runs key (l ++ [b] ++ [a]) (groups ++ [g ++ [a]]) := by
  obtain ⟨groups', g', heq⟩ := h.last
  obtain ⟨rfl, hg⟩ := List.append_inj' heq rfl
  obtain rfl := List.singleton_inj.mp hg
  refine ⟨h.grouped.join fun x hx => ?_, ?_⟩
  · have hsame := h.grouped.same (g' ++ [b]) (by simp) x hx b (by simp)
    exact hsame.trans ha
  · rw [← h.flatten]
    simp

theorem first : Runs key [a] [[a]] := ⟨GroupedBy.nil.alone nofun, rfl⟩

/-- The next element has a key that is greater than that of the last. -/
theorem alone [LinearOrder κ] (h : Runs key (l ++ [b]) groups)
    (hsorted : (l ++ [b] ++ [a]).Pairwise fun x y => key x ≤ key y) (ha : key b ≠ key a) :
    Runs key (l ++ [b] ++ [a]) (groups ++ [[a]]) := by
  obtain ⟨hbefore, -, hbetween⟩ := List.pairwise_append.mp hsorted
  obtain ⟨-, -, hlast⟩ := List.pairwise_append.mp hbefore
  have hless : key b < key a :=
    lt_of_le_of_ne (hbetween b (by simp) a (by simp)) ha
  refine ⟨h.grouped.alone fun x hx => ?_, ?_⟩
  · obtain hx | hx := List.mem_append.mp hx
    · exact ne_of_lt (lt_of_le_of_lt (hlast x hx b (by simp)) hless)
    · rw [List.mem_singleton.mp hx]
      exact ha
  · rw [List.flatten_append, h.flatten]
    rfl

end Runs

end Groups

end MoreCpp.Library
