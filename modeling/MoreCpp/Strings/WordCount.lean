import MoreCpp.Library.CharStream
import Mathlib.Data.List.Induction
import Mathlib.Data.List.Nodup

/-!
`Assoc` of `strings/string.hpp`, and the program of `strings/strings.cpp`, which counts the
words on `cin`.
-/

namespace MoreCpp.WordCount

open Library Extraction

abbrev Word := List Char

/-- `vec`. -/
abbrev Assoc := List (Word × Int32)

/-- `operator[]`, with what its caller does to the value that it refers to. -/
def subscript (s : Word) (change : Int32 → Option Int32) : Assoc → Option Assoc
  | [] => do return [(s, ← change 0)]
  | x :: vec =>
      if s = x.1 then do return (x.1, ← change x.2) :: vec
      else do return x :: (← subscript s change vec)

/-- `++x`, which has no defined behaviour at the largest `int`. -/
def increment (x : Int32) : Option Int32 := if x < Int32.maxValue then some (x + 1) else none

/-- `while (cin>>buf) ++values[buf]`, with fuel for so many characters. -/
def countLoop : Nat → Assoc → IStream → Option Assoc
  | 0, values, _ => some values
  | fuel + 1, values, is =>
      match getString is with
      | (none, _) => some values
      | (some buf, is') => do countLoop fuel (← subscript buf increment values) is'

/-- `'{' << first << ',' << second << "}\n"`. -/
def entry (first : Word) (second : Int) : List Char :=
  ['{'] ++ first ++ [','] ++ decimal second ++ ['}', '\n']

/-- What is printed for what is on `cin`. -/
def main (text : List Char) : Option (List Char) := do
  let values ← countLoop (text.length + 1) [] (.of text)
  return values.flatMap fun x => entry x.1 x.2.toInt

/-! ## The words of a text -/

def words (text : List Char) : List Word := (text.splitOnP isSpace).filter (· ≠ [])

variable {text w : List Char} {c : Char} {is : IStream}

theorem words_nil : words [] = [] := by
  rw [words, List.splitOnP_nil]
  rfl

theorem words_space (hc : isSpace c = true) : words (c :: text) = words text := by
  rw [words, List.splitOnP_cons_eq_if_modifyHead, if_pos hc,
    List.filter_cons_of_neg (by simp), words]

theorem words_blank (hw : Blank w) : words (w ++ text) = words text := by
  induction w with
  | nil => rfl
  | cons c w ih =>
      obtain ⟨hc, hw⟩ := List.forall_mem_cons.mp hw
      rw [List.cons_append, words_space hc, ih hw]

theorem words_word (hc : isSpace c = false) :
    words (c :: text) = firstWord (c :: text) :: words (afterWord (c :: text)) := by
  have hblack : ∀ d ∈ firstWord (c :: text), isSpace d = false := fun d hd => by
    have hd' := List.mem_takeWhile_imp hd
    rwa [Bool.not_eq_true'] at hd'
  have hne : firstWord (c :: text) ≠ [] := by
    rw [firstWord, List.takeWhile_cons, hc]
    exact List.cons_ne_nil _ _
  have hsplit : firstWord (c :: text) ++ afterWord (c :: text) = c :: text :=
    List.takeWhile_append_dropWhile
  have hhead := @space_afterWord (c :: text)
  conv_lhs => rw [← hsplit]
  cases hafter : afterWord (c :: text) with
  | nil =>
      rw [words, List.append_nil, List.splitOnP_eq_singleton hblack, words_nil,
        List.filter_cons_of_pos (by simpa using hne), List.filter_nil]
  | cons d rest =>
      rw [hafter] at hhead
      have hd : isSpace d = true := hhead d rfl
      rw [words, List.splitOnP_append_cons_of_forall_mem hblack d hd,
        List.filter_cons_of_pos (by simpa using hne), words_space hd, words]

/-! ## Counting -/

variable {ws : List Word} {keys : List Word} {s : Word}

theorem eraseDups_concat (ws : List Word) (s : Word) :
    (ws ++ [s]).eraseDups = if s ∈ ws then ws.eraseDups else ws.eraseDups ++ [s] := by
  rw [List.eraseDups_append]
  by_cases hs : s ∈ ws
  · simp [hs, List.removeAll]
  · simp [hs, List.removeAll, List.eraseDups_cons]

theorem nodup_eraseDups (ws : List Word) : ws.eraseDups.Nodup := by
  induction ws using List.reverseRecOn with
  | nil => exact List.nodup_nil
  | append_singleton ws s ih =>
      rw [eraseDups_concat]
      split
      case isTrue => exact ih
      case isFalse hs =>
        rw [← List.concat_eq_append]
        exact ih.concat fun hmem => hs (List.mem_eraseDups.mp hmem)

section Subscript

variable {change : Int32 → Option Int32} {count : Word → Int32} {v : Int32}

theorem subscript_new (hs : s ∉ keys) (hv : change 0 = some v) :
    subscript s change (keys.map fun w => (w, count w)) =
      some ((keys.map fun w => (w, count w)) ++ [(s, v)]) := by
  induction keys with
  | nil => simp [subscript, hv]
  | cons k keys ih =>
      have hk : s ≠ k := List.ne_of_not_mem_cons hs
      simp [subscript, hk, ih (List.not_mem_of_not_mem_cons hs)]

theorem subscript_old (hkeys : keys.Nodup) (hs : s ∈ keys) (hv : change (count s) = some v) :
    subscript s change (keys.map fun w => (w, count w)) =
      some (keys.map fun w => (w, if w = s then v else count w)) := by
  induction keys with
  | nil => exact absurd hs List.not_mem_nil
  | cons k keys ih =>
      obtain ⟨hk, hkeys⟩ := List.nodup_cons.mp hkeys
      by_cases heq : s = k
      · subst heq
        have hsame : keys.map (fun w => (w, count w)) =
            keys.map fun w => (w, if w = s then v else count w) :=
          List.map_congr_left fun w hw => by
            rw [if_neg fun hws : w = s => hk (hws ▸ hw)]
        simp [subscript, hv, hsame]
      · have hmem : s ∈ keys := (List.mem_cons.mp hs).resolve_left heq
        simp [subscript, heq, Ne.symm heq, ih hkeys hmem]

end Subscript

/-- Each word at its first place, with how often it occurs. -/
def tally (ws : List Word) : Assoc :=
  ws.eraseDups.map fun w => (w, Int32.ofNat (ws.count w))

theorem increment_ofNat {k : Nat} (hk : k + 1 < 2 ^ 31) :
    increment (.ofNat k) = some (.ofNat (k + 1)) := by
  have hless : Int32.ofNat k < Int32.maxValue := by
    rw [Int32.lt_iff_toInt_lt, Int32.toInt_ofNat_of_lt (by omega), Int32.toInt_maxValue]
    omega
  rw [increment, if_pos hless, Int32.ofNat_add]
  rfl

/-- What a word does to the counts. -/
theorem subscript_tally (hcount : (ws ++ [s]).count s < 2 ^ 31) :
    subscript s increment (tally ws) = some (tally (ws ++ [s])) := by
  have hnext : (ws ++ [s]).count s = ws.count s + 1 := by
    rw [List.count_append, List.count_singleton_self]
  have hother : ∀ w, w ≠ s → (ws ++ [s]).count w = ws.count w := fun w hw => by
    rw [List.count_append, List.count_singleton, if_neg (by simpa using Ne.symm hw), Nat.add_zero]
  rw [hnext] at hcount
  by_cases hs : s ∈ ws
  · rw [tally, subscript_old (nodup_eraseDups ws) (List.mem_eraseDups.mpr hs)
      (increment_ofNat hcount), tally, eraseDups_concat, if_pos hs]
    refine congrArg some (List.map_congr_left fun w _ => ?_)
    by_cases hw : w = s
    · rw [if_pos hw, hw, hnext]
    · rw [if_neg hw, hother w hw]
  · have hzero : ws.count s = 0 := List.count_eq_zero.mpr hs
    have hone : increment 0 = some 1 := increment_ofNat (by decide)
    rw [tally, subscript_new (mt List.mem_eraseDups.mp hs) hone, tally, eraseDups_concat,
      if_neg hs, List.map_append, List.map_singleton, hnext, hzero]
    refine congrArg some (congrArg (· ++ _) (List.map_congr_left fun w hw => ?_))
    have hmem := List.mem_eraseDups.mp hw
    rw [hother w fun hws => hs (hws ▸ hmem)]

theorem countLoop_spec {fuel : Nat} (his : Follows is text) (hfuel : text.length < fuel)
    (hcount : ∀ w, (ws ++ words text).count w < 2 ^ 31) :
    countLoop fuel (tally ws) is = some (tally (ws ++ words text)) := by
  induction fuel generalizing text ws is with
  | zero => exact absurd hfuel (Nat.not_lt_zero _)
  | succ fuel ih =>
      obtain hblank | ⟨w, c, rest, hw, hc, rfl⟩ := blank_or text
      · have hnone : ∃ is', getString is = (none, is') := by
          rcases his with rfl | ⟨-, rfl⟩
          · exact ⟨_, getString_end hblank⟩
          · exact ⟨_, rfl⟩
        obtain ⟨is', hget⟩ := hnone
        have hwords : words text = [] := by
          rw [← List.append_nil text, words_blank hblank, words_nil]
        rw [countLoop, hget, hwords, List.append_nil]
      · have his' : is = .of (w ++ c :: rest) := his.resolve_right fun hend => by simp at hend
        rw [words_blank hw, words_word hc] at hcount ⊢
        rw [List.append_cons] at hcount ⊢
        have hless := @length_afterWord_lt rest c hc
        have hlength : (w ++ c :: rest).length = w.length + (c :: rest).length :=
          List.length_append
        have hprev : (ws ++ [firstWord (c :: rest)]).count (firstWord (c :: rest)) < 2 ^ 31 := by
          refine lt_of_le_of_lt ?_ (hcount (firstWord (c :: rest)))
          exact (List.sublist_append_left _ _).count_le _
        rw [countLoop, his', getString_nonblank hw hc]
        simp only [subscript_tally hprev, Option.bind_eq_bind, Option.bind_some]
        exact ih (follows_rest _) (by omega) hcount

/-- Each word of the text is printed once, in the order in which they occur first, with how
often it occurs. -/
theorem main_counts (text : List Char) (hcount : ∀ w, (words text).count w < 2 ^ 31) :
    main text = some ((words text).eraseDups.flatMap fun w => entry w ((words text).count w)) := by
  have hloop := @countLoop_spec text _ [] _ (.inl rfl) (Nat.lt_succ_self text.length) hcount
  have hnil : tally [] = [] := rfl
  rw [hnil, List.nil_append] at hloop
  simp only [main, hloop, Option.bind_eq_bind, Option.bind_some, Option.pure_def, tally,
    List.flatMap_map]
  refine congrArg some (List.flatMap_congr fun w _ => ?_)
  have hvalue : (Int32.ofNat ((words text).count w)).toInt = (words text).count w :=
    Int32.toInt_ofNat_of_lt (hcount w)
  rw [hvalue]

theorem main_counts_three : main "b a\n b".toList = some "\x7bb,2\x7d\n\x7ba,1\x7d\n".toList := by
  have hall : ∀ w, (words "b a\n b".toList).count w < 2 ^ 31 := fun w =>
    lt_of_le_of_lt List.count_le_length (by decide)
  rw [main_counts "b a\n b".toList hall]
  decide

end MoreCpp.WordCount
