import MoreCpp.Library.Languages
import Mathlib.Data.List.Infix
import Mathlib.Data.List.Induction

/-!
`remove_k_chars` of `algorithms/strings/strings.cpp`, and deleting blocks of equal
characters in any order.
-/

namespace MoreCpp

open Library

namespace RemoveKChars

variable {α : Type}

section Model

variable [DecidableEq α]

/-- A turn of the loop over the string. The head of the list is the top of `st`. -/
def push (k : Nat) (st : List (α × Nat)) (c : α) : List (α × Nat) :=
  match st with
  | [] => [(c, 1)]
  | (ch, cnt) :: below =>
    if ch = c then
      if cnt + 1 < k then (c, cnt + 1) :: below else below
    else (c, 1) :: (ch, cnt) :: below

/-- The loop that empties `st` into `res`. -/
def drain : List (α × Nat) → List α → List α
  | [], res => res
  | (ch, cnt) :: st, res =>
    if cnt > 1 then drain st (res ++ List.replicate cnt ch) else drain st (res ++ [ch])

def removeKChars (k : Nat) (s : List α) : List α :=
  if k = 1 then [] else (drain (s.foldl (push k) []) []).reverse

end Model

/-- A block of `k` equal adjacent characters is deleted. -/
def DeletesBlock (k : Nat) (s t : List α) : Prop :=
  ∃ u c v, s = u ++ List.replicate k c ++ v ∧ t = u ++ v

/-- No `k` adjacent characters are equal. -/
def NoBlock (k : Nat) (s : List α) : Prop := ∀ c, ¬ List.replicate k c <:+: s

variable {k n : Nat} {s t u v : List α} {c : α}

theorem noBlock_iff : NoBlock k s ↔ Normal (DeletesBlock k) s := by
  constructor
  · rintro h t ⟨u, c, v, rfl, rfl⟩
    exact h c ⟨u, v, rfl⟩
  · rintro h c ⟨u, v, rfl⟩
    exact h (u ++ v) ⟨u, c, v, rfl, rfl⟩

theorem NoBlock.of_prefix (h : NoBlock k s) (hle : u <+: s) : NoBlock k u :=
  fun c hin => h c (hin.trans hle.isInfix)

/-- Deleting blocks ends. -/
theorem deletesBlock_wellFounded (hk : 1 ≤ k) : WellFounded (flip (DeletesBlock (α := α) k)) := by
  refine Subrelation.wf ?_ (measure List.length).wf
  rintro _ _ ⟨u, c, v, rfl, rfl⟩
  change (u ++ v).length < (u ++ List.replicate k c ++ v).length
  simp only [List.length_append, List.length_replicate]
  omega

/-! ## The stack -/

section Stack

/-- The character is not that of the run on top. -/
def Fresh (c : α) (st : List (α × Nat)) : Prop := ∀ e ∈ st.head?, e.1 ≠ c

/-- Runs of fewer than `k` characters, next to others of other characters. -/
def Runs (k : Nat) : List (α × Nat) → Prop
  | [] => True
  | (ch, cnt) :: below => 1 ≤ cnt ∧ cnt < k ∧ Fresh ch below ∧ Runs k below

theorem runs_nil (k : Nat) : Runs k ([] : List (α × Nat)) := trivial

/-- The characters of the runs, from the bottom. -/
def content : List (α × Nat) → List α
  | [] => []
  | (ch, cnt) :: below => content below ++ List.replicate cnt ch

variable {st : List (α × Nat)}

theorem reverse_drain (h : Runs k st) (res : List α) :
    (drain st res).reverse = content st ++ res.reverse := by
  induction st generalizing res with
  | nil => rfl
  | cons e below ih =>
      obtain ⟨ch, cnt⟩ := e
      obtain ⟨hpos, -, -, hbelow⟩ := h
      have hall : drain ((ch, cnt) :: below) res = drain below (res ++ List.replicate cnt ch) := by
        rw [drain]
        split
        case isTrue => rfl
        case isFalse hfew =>
          obtain rfl : cnt = 1 := by omega
          rfl
      rw [hall, ih hbelow, List.reverse_append, List.reverse_replicate, content, List.append_assoc]

theorem exists_top_of_not_fresh (hc : ¬ Fresh c st) : ∃ cnt below, st = (c, cnt) :: below := by
  cases st with
  | nil => exact absurd (by simp [Fresh]) hc
  | cons e below =>
      have htop : e.1 = c := by
        by_contra hne
        exact hc fun e' he' => Option.some.inj he' ▸ hne
      exact ⟨e.2, below, by rw [← htop]⟩

variable [DecidableEq α]

theorem push_fresh (hc : Fresh c st) : push k st c = (c, 1) :: st := by
  cases st with
  | nil => rfl
  | cons e below =>
      obtain ⟨ch, cnt⟩ := e
      have hne : ch ≠ c := hc (ch, cnt) rfl
      rw [push, if_neg hne]

theorem push_same {cnt : Nat} (hcnt : cnt + 1 < k) :
    push k ((c, cnt) :: st) c = (c, cnt + 1) :: st := by
  rw [push, if_pos rfl, if_pos hcnt]

theorem push_full {cnt : Nat} (hcnt : cnt + 1 = k) : push k ((c, cnt) :: st) c = st := by
  rw [push, if_pos rfl, if_neg (by omega)]

theorem Runs.push (h : Runs k st) (hk : 2 ≤ k) (c : α) : Runs k (push k st c) := by
  cases st with
  | nil => exact ⟨Nat.le_refl 1, hk, by simp [Fresh], trivial⟩
  | cons e below =>
      obtain ⟨ch, cnt⟩ := e
      obtain ⟨hpos, hless, hfresh, hbelow⟩ := h
      rcases eq_or_ne ch c with rfl | hne
      · rcases Nat.lt_or_ge (cnt + 1) k with hroom | hfull
        · rw [push_same hroom]
          exact ⟨by omega, hroom, hfresh, hbelow⟩
        · rw [push_full (by omega)]
          exact hbelow
      · have hc : Fresh c ((ch, cnt) :: below) := by
          rintro _ ⟨⟩
          exact hne
        rw [push_fresh hc]
        exact ⟨Nat.le_refl 1, hk, hc, hpos, hless, hfresh, hbelow⟩

theorem Runs.foldl (h : Runs k st) (hk : 2 ≤ k) (s : List α) :
    Runs k (s.foldl (RemoveKChars.push k) st) := by
  induction s generalizing st with
  | nil => exact h
  | cons c s ih => exact ih (h.push hk c)

/-- A run on top becomes longer. -/
theorem foldl_same {cnt : Nat} (hn : cnt + n < k) :
    (List.replicate n c).foldl (push k) ((c, cnt) :: st) = (c, cnt + n) :: st := by
  induction n generalizing cnt with
  | zero => rfl
  | succ n ih =>
      rw [List.replicate_succ, List.foldl_cons, push_same (by omega), ih (by omega),
        Nat.add_right_comm, Nat.add_assoc]

/-- It becomes a block, and goes. -/
theorem foldl_full {cnt : Nat} (hn : cnt + (n + 1) = k) :
    (List.replicate (n + 1) c).foldl (push k) ((c, cnt) :: st) = st := by
  rw [List.replicate_succ', List.foldl_append, foldl_same (by omega)]
  exact push_full (by omega)

/-- Characters of another sort start a run. -/
theorem foldl_fresh (hc : Fresh c st) (hn : n + 1 < k) :
    (List.replicate (n + 1) c).foldl (push k) st = (c, n + 1) :: st := by
  rw [List.replicate_succ, List.foldl_cons, push_fresh hc, foldl_same (by omega), Nat.add_comm]

/-- A whole block leaves the stack as it was: it ends the run on top, and the rest of it
starts that run anew. -/
theorem Runs.block (h : Runs k st) (hk : 2 ≤ k) (c : α) :
    (List.replicate k c).foldl (RemoveKChars.push k) st = st := by
  obtain ⟨m, rfl⟩ := Nat.exists_eq_add_of_le' (Nat.le_of_succ_le hk)
  by_cases hc : Fresh c st
  · rw [List.replicate_succ, List.foldl_cons, push_fresh hc]
    obtain ⟨n, rfl⟩ := Nat.exists_eq_add_of_le' (Nat.le_of_succ_le_succ hk)
    exact foldl_full (by omega)
  · obtain ⟨cnt, below, rfl⟩ := exists_top_of_not_fresh hc
    obtain ⟨hpos, hless, hfresh, -⟩ := h
    obtain ⟨cnt, rfl⟩ := Nat.exists_eq_add_of_le' hpos
    obtain ⟨n, hn⟩ := Nat.exists_eq_add_of_lt hless
    have hsplit : List.replicate (m + 1) c =
        List.replicate (n + 1) c ++ List.replicate (cnt + 1) c := by
      rw [← List.replicate_add, hn]
      congr 1
      omega
    rw [hsplit, List.foldl_append, foldl_full (by omega), foldl_fresh hfresh hless]

/-- Without a block nothing goes. -/
theorem Runs.content_push (h : Runs k st) (hk : 2 ≤ k) (hnone : NoBlock k (content st ++ [c])) :
    content (RemoveKChars.push k st c) = content st ++ [c] := by
  by_cases hc : Fresh c st
  · rw [push_fresh hc]
    rfl
  · obtain ⟨cnt, below, rfl⟩ := exists_top_of_not_fresh hc
    have hlonger : content ((c, cnt) :: below) ++ [c] =
        content below ++ List.replicate (cnt + 1) c := by
      rw [content, List.append_assoc, List.replicate_succ']
    obtain ⟨-, hless, -, -⟩ := h
    rcases Nat.lt_or_ge (cnt + 1) k with hroom | hfull
    · rw [push_same hroom, hlonger]
      rfl
    · obtain rfl : k = cnt + 1 := by omega
      rw [hlonger] at hnone
      exact absurd (List.suffix_append _ _).isInfix (hnone c)

theorem Runs.content_foldl (h : Runs k st) (hk : 2 ≤ k) (hnone : NoBlock k (content st ++ s)) :
    content (s.foldl (RemoveKChars.push k) st) = content st ++ s := by
  induction s generalizing st with
  | nil => exact (List.append_nil _).symm
  | cons c s ih =>
      have hsplit : content st ++ c :: s = content st ++ [c] ++ s := by simp
      rw [hsplit] at hnone ⊢
      have hpush := h.content_push hk (hnone.of_prefix (List.prefix_append _ _))
      rw [← hpush] at hnone ⊢
      exact ih (h.push hk c) hnone

end Stack

/-! ## The normal form -/

variable [DecidableEq α]

theorem removeKChars_eq (hk : 2 ≤ k) (s : List α) :
    removeKChars k s = content (s.foldl (push k) []) := by
  have hruns : Runs k (s.foldl (push k) []) := (runs_nil k).foldl hk s
  rw [removeKChars, if_neg (by omega), reverse_drain hruns, List.reverse_nil, List.append_nil]

/-- Deleting a block first changes nothing. -/
theorem removeKChars_deletesBlock (hk : 1 ≤ k) (h : DeletesBlock k s t) :
    removeKChars k s = removeKChars k t := by
  obtain ⟨u, c, v, rfl, rfl⟩ := h
  rcases Nat.eq_or_lt_of_le hk with rfl | hk
  · rfl
  · have hruns : Runs k (u.foldl (push k) []) := (runs_nil k).foldl hk u
    rw [removeKChars_eq hk, removeKChars_eq hk, List.foldl_append, List.foldl_append,
      List.foldl_append, hruns.block hk]

theorem removeKChars_noBlock (hk : 1 ≤ k) (h : NoBlock k s) : removeKChars k s = s := by
  rcases Nat.eq_or_lt_of_le hk with rfl | hk
  · cases s with
    | nil => rfl
    | cons c s => exact absurd (List.prefix_append [c] s).isInfix (h c)
  · rw [removeKChars_eq hk]
    exact (runs_nil k).content_foldl hk h

example : removeKChars 2 [1, 2, 2, 1, 3] = [3] := by decide

end RemoveKChars

end MoreCpp
