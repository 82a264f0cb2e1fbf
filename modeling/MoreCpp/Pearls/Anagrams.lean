import MoreCpp.Library.CharStream
import MoreCpp.Library.Rearrangements
import Mathlib.Data.Char
import Mathlib.Data.List.Induction
import Mathlib.Data.List.Lex
import Mathlib.Data.List.ModifyLast

/-!
`pearls/anagram_program.cpp`, which writes the words of one file with their letters in
ascending order to another, reads that again and prints the words in groups, and
`group_anagrams` of `algorithms/strings/strings.cpp`. A `char` has the order of its code.
-/

namespace MoreCpp.Anagrams

open Library Library.Extraction

abbrev Word := List Char

/-- The word with its letters in ascending order. -/
def signature (word : Word) : Word := word.mergeSort fun a b => a ≤ b

theorem signature_eq_iff {a b : Word} : signature a = signature b ↔ a.Perm b := by
  have hperm : ∀ word : Word, (signature word).Perm word := fun word => List.mergeSort_perm word _
  have hsorted : ∀ word : Word, (signature word).Pairwise (· ≤ ·) := by
    intro word
    have hle : (signature word).Pairwise fun a b => (decide (a ≤ b) : Bool) := by
      apply List.pairwise_mergeSort
      · intro a b c hab hbc
        rw [decide_eq_true_eq] at hab hbc ⊢
        exact le_trans hab hbc
      · intro a b
        rw [Bool.or_eq_true, decide_eq_true_eq, decide_eq_true_eq]
        exact le_total a b
    exact hle.imp fun hab => of_decide_eq_true hab
  constructor
  · intro heq
    exact (hperm a).symm.trans (heq ▸ hperm b)
  · intro h
    have hsame : (signature a).Perm (signature b) := ((hperm a).trans h).trans (hperm b).symm
    exact hsame.eq_of_pairwise (fun _ _ _ _ => le_antisymm) (hsorted a) (hsorted b)

/-! ## `group_anagrams` -/

/-- `gg[tmp].push_back(s)`. -/
def pushBack (tmp s : Word) : List (Word × List Word) → List (Word × List Word)
  | [] => [(tmp, [s])]
  | (key, v) :: gg => if key = tmp then (key, v ++ [s]) :: gg else (key, v) :: pushBack tmp s gg

def table (ana : List Word) : List (Word × List Word) :=
  ana.foldl (fun gg s => pushBack (signature s) s gg) []

/-- The groups, in whatever order the `unordered_map` has its entries. -/
def GroupAnagrams (ana : List Word) (ans : List (List Word)) : Prop :=
  ans.Perm ((table ana).map Prod.snd)

/-- The entries are the words read so far, by signature. -/
structure Tabled (read : List Word) (gg : List (Word × List Word)) : Prop where
  keys : (gg.map Prod.fst).Nodup
  all : ∀ s ∈ read, signature s ∈ gg.map Prod.fst
  values : ∀ entry ∈ gg, entry.2 ≠ [] ∧ entry.2 = read.filter fun s => signature s = entry.1

theorem keys_pushBack (tmp s : Word) (gg : List (Word × List Word)) :
    (pushBack tmp s gg).map Prod.fst =
      if tmp ∈ gg.map Prod.fst then gg.map Prod.fst else gg.map Prod.fst ++ [tmp] := by
  induction gg with
  | nil => rfl
  | cons entry gg ih =>
      obtain ⟨key, v⟩ := entry
      by_cases hkey : key = tmp
      · simp [pushBack, hkey]
      · have hne : tmp ≠ key := Ne.symm hkey
        simp only [pushBack, if_neg hkey, List.map_cons, ih, List.mem_cons, hne, false_or]
        split <;> rfl

theorem mem_pushBack {tmp s : Word} {gg : List (Word × List Word)} {entry : Word × List Word}
    (hkeys : (gg.map Prod.fst).Nodup) (h : entry ∈ pushBack tmp s gg) :
    entry ∈ gg ∧ entry.1 ≠ tmp ∨
      entry.1 = tmp ∧ ((∃ v, (tmp, v) ∈ gg ∧ entry.2 = v ++ [s]) ∨
        tmp ∉ gg.map Prod.fst ∧ entry.2 = [s]) := by
  induction gg with
  | nil =>
      rw [pushBack, List.mem_singleton] at h
      subst h
      exact .inr ⟨rfl, .inr ⟨List.not_mem_nil, rfl⟩⟩
  | cons first gg ih =>
      obtain ⟨key, v⟩ := first
      obtain ⟨hfresh, hrest⟩ := List.nodup_cons.mp hkeys
      by_cases hkey : key = tmp
      · subst hkey
        rw [pushBack, if_pos rfl] at h
        obtain rfl | hmem := List.mem_cons.mp h
        · exact .inr ⟨rfl, .inl ⟨v, List.mem_cons_self, rfl⟩⟩
        · refine .inl ⟨List.mem_cons_of_mem _ hmem, fun heq => hfresh ?_⟩
          exact List.mem_map.mpr ⟨entry, hmem, heq⟩
      · rw [pushBack, if_neg hkey] at h
        obtain rfl | hmem := List.mem_cons.mp h
        · exact .inl ⟨List.mem_cons_self, hkey⟩
        · obtain ⟨hold, hne⟩ | ⟨heq, ⟨v', hv', hsnd⟩ | ⟨hnew, hsnd⟩⟩ := ih hrest hmem
          · exact .inl ⟨List.mem_cons_of_mem _ hold, hne⟩
          · exact .inr ⟨heq, .inl ⟨v', List.mem_cons_of_mem _ hv', hsnd⟩⟩
          · refine .inr ⟨heq, .inr ⟨?_, hsnd⟩⟩
            rw [List.map_cons, List.mem_cons, not_or]
            exact ⟨Ne.symm hkey, hnew⟩

theorem Tabled.push {read : List Word} {gg : List (Word × List Word)} (h : Tabled read gg)
    (s : Word) : Tabled (read ++ [s]) (pushBack (signature s) s gg) := by
  have hkeys := keys_pushBack (signature s) s gg
  refine ⟨?_, fun t ht => ?_, fun entry hentry => ?_⟩
  · rw [hkeys]
    split
    case isTrue => exact h.keys
    case isFalse hnew =>
      exact (List.perm_append_singleton _ _).nodup_iff.mpr (List.nodup_cons.mpr ⟨hnew, h.keys⟩)
  · have hall : signature t ∈ gg.map Prod.fst ∨ t = s := by
      obtain hold | hnew := List.mem_append.mp ht
      · exact .inl (h.all t hold)
      · exact .inr (List.mem_singleton.mp hnew)
    rw [hkeys]
    split
    case isTrue hmem => exact hall.elim id fun heq => heq ▸ hmem
    case isFalse =>
      refine List.mem_append.mpr (hall.imp id fun heq => ?_)
      rw [heq]
      exact List.mem_singleton_self _
  · rw [List.filter_append]
    obtain ⟨hold, hne⟩ | ⟨heq, ⟨v, hv, hsnd⟩ | ⟨hnew, hsnd⟩⟩ := mem_pushBack h.keys hentry
    · obtain ⟨hnonempty, hvalues⟩ := h.values entry hold
      have hother : signature s ≠ entry.1 := Ne.symm hne
      refine ⟨hnonempty, ?_⟩
      rw [← hvalues, List.filter_cons_of_neg (by simpa using hother), List.filter_nil,
        List.append_nil]
    · obtain ⟨-, hvalues⟩ := h.values _ hv
      rw [hsnd, heq, List.filter_cons_of_pos (by simp), List.filter_nil]
      exact ⟨List.append_ne_nil_of_right_ne_nil v (List.cons_ne_nil s []), by rw [← hvalues]⟩
    · have hnone : read.filter (fun t => signature t = entry.1) = [] := by
        rw [List.filter_eq_nil_iff, heq]
        intro t ht hsame
        exact hnew (of_decide_eq_true hsame ▸ h.all t ht)
      rw [hsnd, hnone, heq, List.filter_cons_of_pos (by simp), List.filter_nil]
      exact ⟨List.cons_ne_nil s [], rfl⟩

theorem tabled (ana : List Word) : Tabled ana (table ana) := by
  induction ana using List.reverseRecOn with
  | nil => exact ⟨List.nodup_nil, nofun, nofun⟩
  | append_singleton ana s ih =>
      rw [table, List.foldl_append]
      exact ih.push s

theorem perm_pushBack (tmp s : Word) (gg : List (Word × List Word)) :
    ((pushBack tmp s gg).map Prod.snd).flatten.Perm ((gg.map Prod.snd).flatten ++ [s]) := by
  induction gg with
  | nil => exact .refl _
  | cons entry gg ih =>
      obtain ⟨key, v⟩ := entry
      by_cases hkey : key = tmp
      · simp only [pushBack, if_pos hkey, List.map_cons, List.flatten_cons, List.append_assoc]
        exact List.perm_append_comm.append_left v
      · simp only [pushBack, if_neg hkey, List.map_cons, List.flatten_cons, List.append_assoc]
        exact ih.append_left v

theorem perm_table (ana : List Word) : ((table ana).map Prod.snd).flatten.Perm ana := by
  induction ana using List.reverseRecOn with
  | nil => exact .refl _
  | append_singleton ana s ih =>
      rw [table, List.foldl_append]
      exact (perm_pushBack _ s _).trans (ih.append_right [s])

theorem groupedBy_table (ana : List Word) :
    GroupedBy signature ana ((table ana).map Prod.snd) := by
  have h := tabled ana
  have hkey : ∀ entry ∈ table ana, ∀ s ∈ entry.2, signature s = entry.1 := by
    intro entry hentry s hs
    rw [(h.values entry hentry).2, List.mem_filter] at hs
    exact of_decide_eq_true hs.2
  refine ⟨perm_table ana, fun g hg => ?_, fun g hg s hs t ht => ?_, ?_⟩
  · obtain ⟨entry, hentry, rfl⟩ := List.mem_map.mp hg
    exact (h.values entry hentry).1
  · obtain ⟨entry, hentry, rfl⟩ := List.mem_map.mp hg
    exact (hkey entry hentry s hs).trans (hkey entry hentry t ht).symm
  · have hapart := List.pairwise_map.mp h.keys
    refine List.pairwise_map.mpr (hapart.imp_of_mem fun {entry entry'} hentry hentry' hne => ?_)
    intro s hs t ht
    rw [hkey entry hentry s hs, hkey entry' hentry' t ht]
    exact hne

/-- Each group has the words that are anagrams of each other, in the order in which they were
given. -/
theorem groupAnagrams_spec (ana : List Word) (ans : List (List Word))
    (hans : GroupAnagrams ana ans) : ans.flatten.Perm ana ∧
      (∀ g ∈ ans, ∃ s ∈ g, g = ana.filter fun t => t.Perm s) ∧
      ∀ s ∈ ana, ∀ t ∈ ana, (∃ g ∈ ans, s ∈ g ∧ t ∈ g) ↔ s.Perm t := by
  have h := groupedBy_table ana
  refine ⟨hans.flatten.trans h.perm, fun g hg => ?_, fun s hs t ht => ?_⟩
  · obtain ⟨entry, hentry, rfl⟩ := List.mem_map.mp (hans.mem_iff.mp hg)
    obtain ⟨hne, hvalues⟩ := (tabled ana).values entry hentry
    obtain ⟨s, hs⟩ := List.exists_mem_of_ne_nil entry.2 hne
    refine ⟨s, hs, hvalues.trans (List.filter_congr fun t _ => ?_)⟩
    rw [hvalues, List.mem_filter] at hs
    rw [← of_decide_eq_true hs.2, decide_eq_decide]
    exact signature_eq_iff
  · rw [← signature_eq_iff, ← h.together_iff hs ht]
    exact ⟨fun ⟨g, hg, hboth⟩ => ⟨g, hans.mem_iff.mp hg, hboth⟩,
      fun ⟨g, hg, hboth⟩ => ⟨g, hans.mem_iff.mpr hg, hboth⟩⟩

theorem groupAnagrams_spec_two : ∃ ans, GroupAnagrams [['a', 'b'], ['b', 'a']] ans ∧
    ∃ g ∈ ans, ['a', 'b'] ∈ g ∧ ['b', 'a'] ∈ g := by
  have hboth := (groupAnagrams_spec [['a', 'b'], ['b', 'a']] _ (List.Perm.refl _)).2.2
  exact ⟨_, List.Perm.refl _, (hboth ['a', 'b'] (by simp) ['b', 'a'] (by simp)).mpr (.swap _ _ _)⟩

/-! ## `anagram_program` -/

/-- `getline(in, word)`: the line, and what follows it. -/
def getline : List Char → Option (Word × List Char)
  | [] => none
  | text => some (text.takeWhile (· ≠ '\n'), (text.dropWhile (· ≠ '\n')).tail)

/-- The first loop, with fuel for so many lines. -/
def readWords : Nat → List (Word × Word) → List Char → List (Word × Word)
  | 0, words, _ => words
  | fuel + 1, words, text =>
      match getline text with
      | none => words
      | some (line, rest) =>
          let word := line.map Char.toLower
          readWords fuel (words ++ [(signature word, word)]) rest

/-- The order of pairs of strings. -/
def pairLe (a b : Word × Word) : Bool := a.1 < b.1 || a.1 == b.1 && a.2 ≤ b.2

/-- `out << sig << ' ' << word << '\n'` for each pair. -/
def written (words : List (Word × Word)) : List Char :=
  words.flatMap fun (sig, word) => sig ++ ' ' :: word ++ ['\n']

/-- `in2 >> sig >> org`. -/
def getPair : Extraction (Word × Word) := do
  let sig ← getString
  let org ← getString
  return (sig, org)

/-- The last loop, with `old`, `first` and `cout`, and fuel for so many pairs. -/
def printLoop : Nat → Word → Bool → List Char → IStream → List Char
  | 0, _, _, cout, _ => cout
  | fuel + 1, old, first, cout, in2 =>
      match getPair in2 with
      | (none, _) => cout
      | (some (sig, org), in2) =>
          let cout := if !first && sig ≠ old then cout ++ ['\n'] else cout
          printLoop fuel sig false (cout ++ org ++ [' ']) in2

abbrev Files := String → Option (List Char)

/-- The exit code, `cout`, `cerr` and the files, where `opens` says which can be written. -/
def main (opens : String → Bool) (files : Files) : Nat × List Char × String × Files :=
  match files "words.txt" with
  | none => (1, [], "Could not open words.txt\n", files)
  | some text =>
      let words := (readWords (text.length + 1) [] text).mergeSort pairLe
      if opens "anagrams.txt" then
        let files := Function.update files "anagrams.txt" (some (written words))
        match files "anagrams.txt" with
        | none => (1, [], "Could not open anagrams.txt\n", files)
        | some text => (0, printLoop (text.length + 1) [] true [] (.of text) ++ ['\n'], "", files)
      else (1, [], "Could not open anagrams.txt\n", files)

/-! ### What is read -/

/-- The words of a file. -/
def wordsOf (text : List Char) : List Word :=
  ((text.splitOn '\n').filter (· ≠ [])).map (·.map Char.toLower)

/-- The pair that is made of a word. -/
def entry (word : Word) : Word × Word := (signature word, word)

theorem getline_line {line : Word} (rest : List Char) (hline : '\n' ∉ line) :
    getline (line ++ '\n' :: rest) = some (line, rest) := by
  have hall : ∀ c ∈ line, decide (c ≠ '\n') = true := fun c hc =>
    decide_eq_true fun heq => hline (heq ▸ hc)
  have htake : (line ++ '\n' :: rest).takeWhile (· ≠ '\n') = line := by
    rw [List.takeWhile_append_of_pos hall]
    exact List.append_nil line
  have hdrop : (line ++ '\n' :: rest).dropWhile (· ≠ '\n') = '\n' :: rest := by
    rw [List.dropWhile_append_of_pos hall]
    rfl
  rw [getline, htake, hdrop]
  · rfl
  · simp

theorem getline_last {line : Word} (hne : line ≠ []) (hline : '\n' ∉ line) :
    getline line = some (line, []) := by
  have hall : ∀ c ∈ line, decide (c ≠ '\n') = true := fun c hc =>
    decide_eq_true fun heq => hline (heq ▸ hc)
  rw [getline, List.takeWhile_eq_self_iff.mpr hall, List.dropWhile_eq_nil_iff.mpr hall]
  · rfl
  · exact hne

/-- The lines that are read, where blank ones do not count. -/
theorem readWords_spec {fuel : Nat} {text : List Char} (words : List (Word × Word))
    (hfuel : text.length < fuel) : ∃ lines : List Word,
      readWords fuel words text = words ++ lines.map (fun line => entry (line.map Char.toLower)) ∧
      lines.filter (· ≠ []) = (text.splitOn '\n').filter (· ≠ []) ∧
      ∀ line ∈ lines, ∀ c ∈ line, c ∈ text ∧ c ≠ '\n' := by
  induction fuel generalizing text words with
  | zero => exact absurd hfuel (Nat.not_lt_zero _)
  | succ fuel ih =>
      by_cases hend : '\n' ∈ text
      · obtain ⟨line, rest, rfl, hline⟩ := List.eq_append_cons_of_mem hend
        have hless : rest.length < fuel := by
          rw [List.length_append, List.length_cons] at hfuel
          omega
        obtain ⟨lines, hrun, hlines, hchars⟩ :=
          ih (words ++ [entry (line.map Char.toLower)]) hless
        refine ⟨line :: lines, ?_, ?_, List.forall_mem_cons.mpr ⟨fun c hc => ⟨?_, ?_⟩,
          fun l hl c hc => ⟨?_, (hchars l hl c hc).2⟩⟩⟩
        · rw [readWords, getline_line rest hline]
          refine hrun.trans ?_
          rw [List.append_assoc]
          rfl
        · rw [List.splitOn_append_cons_self_of_not_mem hline, List.filter_cons, List.filter_cons,
            hlines]
        · exact List.mem_append_left _ hc
        · exact fun heq => hline (heq ▸ hc)
        · exact List.mem_append_right _ (List.mem_cons_of_mem _ (hchars l hl c hc).1)
      · rcases eq_or_ne text [] with rfl | hne
        · exact ⟨[], by simp [readWords, getline], by simp, nofun⟩
        · have hdone : ∀ words, readWords fuel words [] = words := by
            intro words
            cases fuel <;> rfl
          refine ⟨[text], ?_, ?_, List.forall_mem_cons.mpr ⟨fun c hc => ⟨hc, ?_⟩, nofun⟩⟩
          · rw [readWords, getline_last hne hend]
            exact hdone _
          · rw [List.splitOn_eq_singleton hend]
          · exact fun heq => hend (heq ▸ hc)

theorem intercalate_append_singleton {sep g : List Char} {gs : List (List Char)} (hne : gs ≠ []) :
    sep.intercalate (gs ++ [g]) = sep.intercalate gs ++ (sep ++ g) := by
  induction gs with
  | nil => exact absurd rfl hne
  | cons g' gs ih =>
      rcases eq_or_ne gs [] with rfl | hgs
      · simp
      · rw [List.cons_append, List.intercalate_cons_of_ne_nil (by simp), ih hgs,
          List.intercalate_cons_of_ne_nil hgs]
        simp

theorem intercalate_append_append (sep g t : List Char) (gs : List (List Char)) :
    sep.intercalate (gs ++ [g ++ t]) = sep.intercalate (gs ++ [g]) ++ t := by
  rcases eq_or_ne gs [] with rfl | hgs
  · simp
  · rw [intercalate_append_singleton hgs, intercalate_append_singleton hgs]
    simp

/-! ### What is printed -/

/-- The words of each group on a line. -/
def render (groups : List (List Word)) : List Char :=
  ['\n'].intercalate (groups.map fun g => g.flatMap (· ++ [' ']))

theorem render_join (groups : List (List Word)) (g : List Word) (word : Word) :
    render (groups ++ [g ++ [word]]) = render (groups ++ [g]) ++ word ++ [' '] := by
  simp only [render, List.map_append, List.map_singleton, List.flatMap_append,
    intercalate_append_append, List.flatMap_singleton, List.append_assoc]

theorem render_alone {groups : List (List Word)} (word : Word) (hne : groups ≠ []) :
    render (groups ++ [[word]]) = render groups ++ ['\n'] ++ word ++ [' '] := by
  have hlines : groups.map (fun g => g.flatMap (· ++ [' '])) ≠ [] := by simpa using hne
  simp only [render, List.map_append, List.map_singleton, intercalate_append_singleton hlines,
    List.flatMap_singleton, List.append_assoc]

/-- No character of the word is blank. -/
def Solid (word : Word) : Prop := ∀ c ∈ word, isSpace c = false

theorem Solid.signature {word : Word} (h : Solid word) : Solid (signature word) := fun c hc =>
  h c ((List.mergeSort_perm word _).mem_iff.mp hc)

theorem signature_ne_nil {word : Word} (hne : word ≠ []) : signature word ≠ [] := by
  intro hnil
  have hperm : (signature word).Perm word := List.mergeSort_perm word _
  rw [hnil] at hperm
  exact hne hperm.nil_eq.symm

variable {w rest : List Char} {word : Word}

theorem getPair_entry (hw : Blank w) (hne : word ≠ []) (hword : Solid word) :
    getPair (.of (w ++ (signature word ++ ' ' :: (word ++ '\n' :: rest)))) =
      (some (entry word), .of ('\n' :: rest)) := by
  have hsig : getString (.of (w ++ (signature word ++ ' ' :: (word ++ '\n' :: rest)))) =
      (some (signature word), .of (' ' :: (word ++ '\n' :: rest))) :=
    getString_word hw (signature_ne_nil hne) hword.signature (by decide)
  have horg : getString (.of ([' '] ++ (word ++ '\n' :: rest))) =
      (some word, .of ('\n' :: rest)) :=
    getString_word (blank_singleton (by decide)) hne hword (by decide)
  exact (bind_of_some hsig).trans (bind_of_some horg)

theorem getPair_end (hw : Blank w) : getPair (.of w) = (none, .ended) :=
  bind_of_none _ (getString_end hw)

/-- The last word that was read, and whether there is one. -/
structure Last (read : List Word) (old : Word) (first : Bool) : Prop where
  state : read = [] ∧ first = true ∨ ∃ l b, read = l ++ [b] ∧ old = signature b ∧ first = false

theorem Last.push {read : List Word} {old : Word} {first : Bool} {groups : List (List Word)}
    (h : Last read old first) (hruns : Runs signature read groups)
    (hsorted : (read ++ [word]).Pairwise fun a b => signature a ≤ signature b) :
    ∃ groups', Runs signature (read ++ [word]) groups' ∧
      (if !first && signature word ≠ old then render groups ++ ['\n'] else render groups) ++ word ++
        [' '] = render groups' := by
  obtain ⟨rfl, rfl⟩ | ⟨l, b, rfl, rfl, rfl⟩ := h.state
  · have hnil : groups = [] := by
      rcases groups with _ | ⟨g, groups⟩
      · rfl
      · have hempty := hruns.flatten
        rw [List.flatten_cons, List.append_eq_nil_iff] at hempty
        exact absurd hempty.1 (hruns.grouped.nonempty g List.mem_cons_self)
    subst hnil
    exact ⟨[[word]], .first, by simp [render]⟩
  · obtain ⟨groups', g, rfl⟩ := hruns.last
    by_cases hsame : signature b = signature word
    · refine ⟨_, hruns.join hsame, ?_⟩
      rw [render_join groups' (g ++ [b]), if_neg (by simp [hsame])]
    · refine ⟨_, hruns.alone hsorted hsame, ?_⟩
      rw [render_alone word (by simp), if_pos (by simpa using Ne.symm hsame)]

theorem printLoop_spec {words read : List Word} {old : Word} {first : Bool} {fuel : Nat}
    {groups : List (List Word)} (hw : Blank w) (hsolid : ∀ word ∈ words, Solid word)
    (hlast : Last read old first) (hruns : Runs signature read groups)
    (hsorted : (read ++ words.filter (· ≠ [])).Pairwise fun a b => signature a ≤ signature b)
    (hfuel : words.length < fuel) : ∃ groups',
      Runs signature (read ++ words.filter (· ≠ [])) groups' ∧
      printLoop fuel old first (render groups) (.of (w ++ written (words.map entry))) =
        render groups' := by
  induction words generalizing read old first fuel groups w with
  | nil =>
      obtain ⟨fuel, rfl⟩ := Nat.exists_eq_succ_of_ne_zero (Nat.ne_zero_of_lt hfuel)
      refine ⟨groups, by simpa using hruns, ?_⟩
      simp only [written, List.map_nil, List.flatMap_nil, List.append_nil, printLoop,
        getPair_end hw]
  | cons word words ih =>
      obtain ⟨hword, hrest⟩ := List.forall_mem_cons.mp hsolid
      have htext : written ((word :: words).map entry) =
          signature word ++ ' ' :: (word ++ '\n' :: written (words.map entry)) := by
        simp [written, entry]
      rw [htext]
      rcases eq_or_ne word [] with rfl | hne
      · -- the line of a blank word is blank
        have hblank : Blank (w ++ [' ', '\n']) := by
          intro c hc
          obtain hold | hnew := List.mem_append.mp hc
          · exact hw c hold
          · obtain rfl | rfl : c = ' ' ∨ c = '\n' := by simpa using hnew
            · decide
            · decide
        rw [List.filter_cons_of_neg (by simp)] at hsorted ⊢
        have hnext := ih hblank hrest hlast hruns hsorted (Nat.lt_of_succ_lt hfuel)
        have hsig : signature [] = [] := List.mergeSort_nil
        simpa [hsig] using hnext
      · obtain ⟨fuel, rfl⟩ := Nat.exists_eq_succ_of_ne_zero (Nat.ne_zero_of_lt hfuel)
        rw [List.filter_cons_of_pos (by simpa using hne), List.append_cons] at hsorted ⊢
        obtain ⟨groups', hruns', hrender⟩ :=
          hlast.push hruns (List.pairwise_append.mp hsorted).1
        have hlast' : Last (read ++ [word]) (signature word) false :=
          ⟨.inr ⟨read, word, rfl, rfl, rfl⟩⟩
        have hnext := ih (blank_singleton (show isSpace '\n' = true by decide)) hrest hlast' hruns'
          hsorted (Nat.lt_of_succ_lt_succ hfuel)
        simp only [printLoop, getPair_entry hw hne hword, entry]
        rw [← hrender] at hnext
        exact hnext

theorem isSpace_toLower {c : Char} (hc : isSpace c = false) : isSpace c.toLower = false := by
  unfold Char.toLower
  split
  case isTrue hupper =>
    have hlow : 65 ≤ c.val.toNat := UInt32.le_iff_toNat_le.mp hupper.1
    have hhigh : c.val.toNat ≤ 90 := UInt32.le_iff_toNat_le.mp hupper.2
    have hsum : (c.val + ('a'.val - 'A'.val)).toNat = c.val.toNat + 32 := by
      rw [UInt32.toNat_add]
      exact Nat.mod_eq_of_lt (Nat.lt_of_le_of_lt (Nat.add_le_add_right hhigh 32) (by decide))
    refine isSpace_of_gt ?_
    change 32 < (c.val + ('a'.val - 'A'.val)).toNat
    omega
  case isFalse => exact hc

theorem pairLe_iff {a b : Word × Word} : pairLe a b = true ↔ a.1 < b.1 ∨ a.1 = b.1 ∧ a.2 ≤ b.2 := by
  simp [pairLe]

theorem pairwise_pairLe (words : List (Word × Word)) :
    (words.mergeSort pairLe).Pairwise fun a b => a.1 < b.1 ∨ a.1 = b.1 ∧ a.2 ≤ b.2 := by
  have hsorted : (words.mergeSort pairLe).Pairwise fun a b => pairLe a b = true := by
    apply List.pairwise_mergeSort
    · intro a b c hab hbc
      rw [pairLe_iff] at hab hbc ⊢
      obtain hab | ⟨hab, hab'⟩ := hab
      · obtain hbc | ⟨hbc, -⟩ := hbc
        · exact .inl (lt_trans hab hbc)
        · exact .inl (hbc ▸ hab)
      · obtain hbc | ⟨hbc, hbc'⟩ := hbc
        · exact .inl (hab ▸ hbc)
        · exact .inr ⟨hab.trans hbc, le_trans hab' hbc'⟩
    · intro a b
      rw [Bool.or_eq_true, pairLe_iff, pairLe_iff]
      obtain hless | heq | hless := lt_trichotomy a.1 b.1
      · exact .inl (.inl hless)
      · exact (le_total a.2 b.2).imp (fun hle => .inr ⟨heq, hle⟩) fun hle => .inr ⟨heq.symm, hle⟩
      · exact .inr (.inl hless)
  exact hsorted.imp fun hab => pairLe_iff.mp hab

/-- The words in the order in which they are written. -/
theorem sortedWords_spec (text : List Char) (hblank : ∀ c ∈ text, isSpace c = true → c = '\n') :
    ∃ words : List Word,
      (readWords (text.length + 1) [] text).mergeSort pairLe = words.map entry ∧
      (words.filter (· ≠ [])).Perm (wordsOf text) ∧ (∀ word ∈ words, Solid word) ∧
      words.Pairwise fun a b => signature a < signature b ∨ signature a = signature b ∧ a ≤ b := by
  obtain ⟨lines, hread, hlines, hchars⟩ := readWords_spec [] (Nat.lt_succ_self text.length)
  rw [Nat.succ_eq_add_one, List.nil_append] at hread
  rw [hread]
  generalize hsorted : (lines.map fun line => entry (line.map Char.toLower)).mergeSort pairLe = sorted
  have hperm : sorted.Perm (lines.map fun line => entry (line.map Char.toLower)) :=
    hsorted ▸ List.mergeSort_perm _ _
  have hentry : sorted = (sorted.map Prod.snd).map entry := by
    rw [List.map_map]
    conv_lhs => rw [← List.map_id sorted]
    refine List.map_congr_left fun e he => ?_
    obtain ⟨line, -, rfl⟩ := List.mem_map.mp (hperm.mem_iff.mp he)
    rfl
  have hwords : (sorted.map Prod.snd).Perm (lines.map (·.map Char.toLower)) := by
    have hsnd := hperm.map Prod.snd
    rwa [List.map_map] at hsnd
  refine ⟨sorted.map Prod.snd, hentry, ?_, fun word hword => ?_, ?_⟩
  · have hnil : (lines.map fun line : Word => line.map Char.toLower).filter (· ≠ []) =
        wordsOf text := by
      rw [wordsOf, ← hlines, List.filter_map]
      refine congrArg (List.map _) (List.filter_congr fun line _ => ?_)
      simp
    exact hnil ▸ hwords.filter _
  · obtain ⟨line, hline, rfl⟩ := List.mem_map.mp (hwords.mem_iff.mp hword)
    intro c hc
    obtain ⟨d, hd, rfl⟩ := List.mem_map.mp hc
    obtain ⟨htext, hne⟩ := hchars line hline d hd
    exact isSpace_toLower (Bool.eq_false_iff.mpr fun hspace => hne (hblank d htext hspace))
  · have hpairs := pairwise_pairLe (lines.map fun line : Word => entry (line.map Char.toLower))
    rw [hsorted, hentry, List.pairwise_map] at hpairs
    exact hpairs

theorem length_le_written (words : List Word) :
    words.length ≤ (written (words.map entry)).length := by
  induction words with
  | nil => exact Nat.zero_le _
  | cons word words ih =>
      have htext : written ((word :: words).map entry) =
          (signature word ++ ' ' :: word ++ ['\n']) ++ written (words.map entry) := rfl
      rw [htext, List.length_append, List.length_append, List.length_singleton, List.length_cons]
      omega

/-- The words of the file are printed in groups of those that are anagrams of each other. -/
theorem printed_in_groups (opens : String → Bool) (files : Files) (text : List Char)
    (hwords : files "words.txt" = some text) (hopens : opens "anagrams.txt" = true)
    (hblank : ∀ c ∈ text, isSpace c = true → c = '\n') : ∃ groups files',
      main opens files = (0, render groups ++ ['\n'], "", files') ∧
      groups.flatten.Perm (wordsOf text) ∧
      (∀ g ∈ groups, g ≠ [] ∧ g.Pairwise (· ≤ ·)) ∧
      (∀ a ∈ wordsOf text, ∀ b ∈ wordsOf text, (∃ g ∈ groups, a ∈ g ∧ b ∈ g) ↔ a.Perm b) ∧
      ∀ name ≠ "anagrams.txt", files' name = files name := by
  obtain ⟨words, hsort, hperm, hsolid, hsorted⟩ := sortedWords_spec text hblank
  have hsorted' := hsorted.filter fun word : Word => decide (word ≠ [])
  have hle := hsorted'.imp fun {a b} (hab : signature a < signature b ∨ signature a = signature b ∧ a ≤ b) =>
    hab.elim le_of_lt fun hab => le_of_eq hab.1
  have hfuel := Nat.lt_succ_of_le (length_le_written words)
  have hlast : Last [] [] true := ⟨.inl ⟨rfl, rfl⟩⟩
  obtain ⟨groups, hruns, hprint⟩ := printLoop_spec blank_nil hsolid hlast .nil hle hfuel
  have hfiles : Function.update files "anagrams.txt" (some (written (words.map entry)))
      "anagrams.txt" = some (written (words.map entry)) := Function.update_self ..
  refine ⟨groups, Function.update files "anagrams.txt" (some (written (words.map entry))), ?_,
    hruns.grouped.perm.trans hperm, fun g hg => ⟨hruns.grouped.nonempty g hg, ?_⟩,
    fun a ha b hb => ?_, fun name hname => Function.update_of_ne hname ..⟩
  · simp only [main, hwords, hsort, hopens, if_true, hfiles]
    have hprint' : printLoop ((written (words.map entry)).length + 1) [] true []
        (.of (written (words.map entry))) = render groups := hprint
    rw [hprint']
  · have hsub : g.Sublist (words.filter (· ≠ [])) := by
      have hflat := hruns.flatten
      rw [List.nil_append] at hflat
      exact hflat ▸ List.sublist_flatten_of_mem hg
    refine (hsorted'.sublist hsub).imp_of_mem fun {a b} ha hb hab => ?_
    have hsame := hruns.grouped.same g hg a ha b hb
    exact hab.elim (fun hless => absurd hsame (ne_of_lt hless)) fun hab => hab.2
  · rw [← signature_eq_iff]
    exact hruns.grouped.together_iff (hperm.mem_iff.mpr ha) (hperm.mem_iff.mpr hb)

theorem printed_in_groups_three : ∃ groups files',
    main (fun _ => true) (fun _ => some "Tea\nab\nEat\n".toList) =
      (0, render groups ++ ['\n'], "", files') ∧
    ∃ g ∈ groups, "tea".toList ∈ g ∧ "eat".toList ∈ g := by
  have hall : "Tea\nab\nEat\n".toList.all (fun c => !isSpace c || c == '\n') = true := by decide
  have hblank : ∀ c ∈ "Tea\nab\nEat\n".toList, isSpace c = true → c = '\n' := by
    intro c hc hspace
    have hc' := List.all_eq_true.mp hall c hc
    rwa [hspace, Bool.not_true, Bool.false_or, beq_iff_eq] at hc'
  obtain ⟨groups, files', hmain, -, -, htogether, -⟩ := printed_in_groups (fun _ => true)
    (fun _ => some "Tea\nab\nEat\n".toList) _ rfl rfl hblank
  have hboth := htogether "tea".toList (by decide) "eat".toList (by decide)
  exact ⟨groups, files', hmain, hboth.mpr (by decide)⟩

end MoreCpp.Anagrams
