import MoreCpp.Library.CharStream
import MoreCpp.Pearls.SortBitmap

/-!
The program of `pearls/sort_bitmap.cpp`: it generates a file of numbers, or reads one, sorts
it in three ways and writes what they give. What it prints on `cout` and the times it takes
are left out. Then the one of `pearls/one.cpp`, which sorts what it is given on `cin`.
-/

namespace MoreCpp

open Library

namespace SortBitmap

open Extraction

/-- `INPUT_COUNT`. -/
def inputCount : Nat := 1000000

inductive Error where
  | failToOpen
  | inputOutOfRange (x : UInt32)
  | couldNotCreate
  /-- An exception of `bit_vector`, or what has no defined behaviour there. -/
  | bits (fault : BitVector.Fault)
  | bitmapMismatch
  | problem1Mismatch
  | unknownMode (mode : String)

def Error.what : Error → String
  | .failToOpen => "fail to open file"
  | .inputOutOfRange x => "Input value out of range: " ++ toString x
  | .couldNotCreate => "could not create file."
  | .bits (.outOfRange what) => what
  | .bits .outOfBounds => ""
  | .bitmapMismatch => "bitmap_sort output does not match std::sort output"
  | .problem1Mismatch => "Problem 1 sort output does not match std::sort output"
  | .unknownMode mode => "Unknown mode: " ++ mode

abbrev Files := String → Option (List Char)

abbrev Program := EStateM Error Files

/-- What the program finds around it. -/
structure Host where
  /-- The files that can be opened for writing. -/
  opens : String → Bool
  /-- `all` after the `shuffle`. -/
  shuffled : List UInt32

/-- `while (in >> x)`, with fuel for so many characters. -/
def readLoop : Nat → List UInt32 → IStream → Except Error (List UInt32)
  | 0, data, _ => .ok data
  | fuel + 1, data, is =>
      match getUnsigned is with
      | (none, _) => .ok data
      | (some x, is') =>
          if maxValue ≤ x then .error (.inputOutOfRange x) else readLoop fuel (data ++ [x]) is'

def readInputFile (filename : String) : Program (List UInt32) := do
  match (← get) filename with
  | none => throw .failToOpen
  | some text => liftExcept (readLoop (text.length + 1) [] (.of text))
where
  liftExcept : Except Error (List UInt32) → Program (List UInt32)
    | .ok data => return data
    | .error e => throw e

/-- `out << x << '\n'` for each `x`. -/
def lines (data : List UInt32) : List Char := data.flatMap fun x => decimal x.toNat ++ ['\n']

def writeOutputFile (host : Host) (filename : String) (data : List UInt32) : Program Unit := do
  if host.opens filename then
    modify fun files => Function.update files filename (some (lines data))
  else throw .failToOpen

def generateInputFile (host : Host) (filename : String) : Program Unit := do
  if host.opens filename then
    modify fun files =>
      Function.update files filename (some (lines (host.shuffled.take inputCount)))
  else throw .couldNotCreate

def mySort (input : List UInt32) : Except BitVector.Fault (List UInt32) := do
  let out ← bitmapSort input
  return out

/-- A sort that is timed. -/
def timedRun (f : List UInt32 → Except BitVector.Fault (List UInt32)) (input : List UInt32) :
    Program (List UInt32) :=
  match f input with
  | .ok out => return out
  | .error fault => throw (.bits fault)

def bench (host : Host) (filename : String) : Program Unit := do
  let data ← readInputFile filename
  let bitmapResult ← timedRun bitmapSort data
  let stdResult ← timedRun (fun input => .ok (stdSortV input)) data
  let p1Result ← timedRun mySort data
  if bitmapResult ≠ stdResult then throw .bitmapMismatch
  if p1Result ≠ stdResult then throw .problem1Mismatch
  writeOutputFile host "bitmap_sorted.txt" bitmapResult
  writeOutputFile host "std_sorted.txt" stdResult
  writeOutputFile host "problem1_sorted.txt" p1Result

def usage (program : String) : String :=
  "Usage:\n  " ++ program ++ " --generate input.txt\n  " ++ program ++ " --bench input.txt\n"

def runMode (host : Host) (mode filename : String) : Program Unit := do
  if mode = "--generate" then generateInputFile host filename
  else if mode ≠ "--bench" then throw (.unknownMode mode)
  else bench host filename

/-- The exit code, what is printed on `cerr`, and the files afterwards. -/
def main (host : Host) (argv : List String) (files : Files) : Nat × String × Files :=
  match argv with
  | _ :: mode :: filename :: _ =>
      match (runMode host mode filename).run files with
      | .ok _ files' => (0, "", files')
      | .error e files' => (1, "Error: " ++ e.what ++ "\n", files')
  | _ => (1, usage argv.headI, files)

/-! ## What is read and written -/

/-- What is read of a file with these numbers: it ends at the first that has no `uint32_t`,
and the negative ones are taken modulo 2^32. -/
def readable (ns : List Int) : List UInt32 :=
  (ns.takeWhile fun n => n.natAbs < 2 ^ 32).map UInt32.ofInt

theorem readable_cons {m : Int} {ns : List Int} (hm : m.natAbs < 2 ^ 32) :
    readable (m :: ns) = UInt32.ofInt m :: readable ns := by
  simp only [readable, List.takeWhile_cons, hm, decide_true, if_true, List.map_cons]

theorem readable_overflow {m : Int} {ns : List Int} (hm : 2 ^ 32 ≤ m.natAbs) :
    readable (m :: ns) = [] := by
  have hnot : ¬m.natAbs < 2 ^ 32 := Nat.not_lt.mpr hm
  simp only [readable, List.takeWhile_cons, hnot, decide_false, Bool.false_eq_true, if_false,
    List.map_nil]

theorem ofInt_toNat (x : UInt32) : UInt32.ofInt x.toNat = x := by
  have hmod : ((x.toNat : Int) % 2 ^ 32).toNat = x.toNat := by
    have hlt := x.toNat_lt
    omega
  rw [UInt32.ofInt, hmod, UInt32.ofNat_toNat]

theorem readable_toNat (data : List UInt32) :
    readable (data.map fun x => (x.toNat : Int)) = data := by
  have hall : ∀ n ∈ data.map fun x => (x.toNat : Int), decide (n.natAbs < 2 ^ 32) = true := by
    intro n hn
    obtain ⟨x, -, rfl⟩ := List.mem_map.mp hn
    exact decide_eq_true x.toNat_lt
  rw [readable, List.takeWhile_eq_self_iff.mpr hall, List.map_map]
  exact List.map_id'' ofInt_toNat data

theorem readLoop_listing {fuel : Nat} {text : List Char} {ns : List Int} {is : IStream}
    (data : List UInt32) (h : Listing text ns) (his : Follows is text)
    (hfuel : text.length < fuel) : readLoop fuel data is =
      match (readable ns).find? (maxValue ≤ ·) with
      | some x => .error (.inputOutOfRange x)
      | none => .ok (data ++ readable ns) := by
  induction fuel generalizing text ns is data with
  | zero => exact absurd hfuel (Nat.not_lt_zero _)
  | succ fuel ih =>
      cases ns with
      | nil =>
          obtain ⟨is', hget⟩ : ∃ is', getUnsigned is = (none, is') := extract_nil h his
          simp [readLoop, hget, readable]
      | cons m ns =>
          by_cases hm : m.natAbs < 2 ^ 32
          · obtain ⟨is', rest, hget, his', hrest, hless⟩ := getUnsigned_cons h hm his
            rw [readLoop, hget, readable_cons hm, List.find?_cons]
            by_cases hmax : maxValue ≤ UInt32.ofInt m
            · simp only [hmax, decide_true, if_true]
            · simp only [hmax, decide_false, if_false]
              rw [ih _ hrest his' (by omega), List.append_assoc]
              rfl
          · obtain ⟨is', hget⟩ := getUnsigned_overflow h (Nat.not_lt.mp hm) his
            simp [readLoop, hget, readable_overflow (Nat.not_lt.mp hm)]

theorem listing_lines (data : List UInt32) :
    Listing (lines data) (data.map fun x => (x.toNat : Int)) := by
  induction data with
  | nil => exact .nil blank_nil
  | cons x data ih =>
      have hrest : Listing ('\n' :: lines data) (data.map fun x => (x.toNat : Int)) :=
        ih.blank (blank_singleton (by decide))
      have hcons := Listing.cons blank_nil (numeral_decimal x.toNat) (noDigit_cons (by decide)) hrest
      simpa [lines] using hcons

/-! ## The runs of the program -/

/-- What `bench` leaves when it gets to its end. -/
def outputs (files : Files) (data : List UInt32) : Files :=
  Function.update (Function.update (Function.update files
    "bitmap_sorted.txt" (some (lines (stdSortV data))))
    "std_sorted.txt" (some (lines (stdSortV data))))
    "problem1_sorted.txt" (some (lines (stdSortV data)))

structure Opens (host : Host) : Prop where
  bitmap : host.opens "bitmap_sorted.txt" = true
  std : host.opens "std_sorted.txt" = true
  problem1 : host.opens "problem1_sorted.txt" = true

/-- A list that increases is the sorted input exactly where the input repeats nothing. -/
theorem eq_stdSortV_iff {out input : List UInt32} (hsorted : out.Pairwise (· < ·))
    (hmem : ∀ x, x ∈ out ↔ x ∈ input) : out = stdSortV input ↔ input.Nodup := by
  have hperm : (stdSortV input).Perm input := List.mergeSort_perm input _
  have hnodup : out.Nodup := hsorted.imp fun hab => UInt32.ne_of_lt hab
  constructor
  · exact fun heq => hperm.nodup_iff.mp (heq ▸ hnodup)
  · intro hin
    have hsame : out.Perm (stdSortV input) :=
      ((List.perm_ext_iff_of_nodup hnodup hin).mpr hmem).trans hperm.symm
    have hle : out.Pairwise (· ≤ ·) := hsorted.imp fun hab => UInt32.le_of_lt hab
    exact hsame.eq_of_pairwise (fun _ _ _ _ => UInt32.le_antisymm) hle (pairwise_stdSortV input)

variable {host : Host} {files : Files} {name filename : String} {text : List Char}
  {ns : List Int}

theorem readInputFile_listing (hfile : files filename = some text) (h : Listing text ns) :
    (readInputFile filename).run files =
      match (readable ns).find? (maxValue ≤ ·) with
      | some x => .error (.inputOutOfRange x) files
      | none => .ok (readable ns) files := by
  have hloop := readLoop_listing [] h (.inl rfl) (Nat.lt_succ_self text.length)
  have hrun : (readInputFile filename).run files =
      (readInputFile.liftExcept (readLoop (text.length + 1) [] (.of text))).run files := by
    simp only [readInputFile, EStateM.run_bind, EStateM.run_get, hfile]
  rw [hrun, hloop]
  cases (readable ns).find? (maxValue ≤ ·) <;> rfl

theorem bench_sorted {data : List UInt32} (hopens : Opens host)
    (hread : (readInputFile filename).run files = .ok data files)
    (hrange : ∀ x ∈ data, x < maxValue) : (bench host filename).run files =
      if data.Nodup then .ok () (outputs files data) else .error .bitmapMismatch files := by
  obtain ⟨out, hsort, hsorted, hmem⟩ := sortBits_spec maxValue hrange
  have hbitmap : bitmapSort data = .ok out := hsort
  have hmy : mySort data = .ok out := by
    simp only [mySort, hbitmap]
  have heq := eq_stdSortV_iff hsorted hmem
  have htimed : ∀ {f : List UInt32 → Except BitVector.Fault (List UInt32)} {res},
      f data = .ok res → (timedRun f data).run files = .ok res files := by
    intro f res hf
    rw [timedRun, hf]
    rfl
  have hstd : (timedRun (fun input => .ok (stdSortV input)) data).run files =
      .ok (stdSortV data) files := htimed rfl
  have hwrite : ∀ {output : String} {files : Files} {res}, host.opens output = true →
      (writeOutputFile host output res).run files =
        .ok () (Function.update files output (some (lines res))) := by
    intro output files res hopen
    rw [writeOutputFile, if_pos hopen]
    rfl
  simp only [bench, EStateM.run_bind, hread, htimed hbitmap, hstd, htimed hmy]
  by_cases hnodup : data.Nodup
  · have hsame : out = stdSortV data := heq.mpr hnodup
    simp only [hsame, ne_eq, not_true_eq_false, if_false, hnodup, if_true,
      EStateM.run_bind, hwrite hopens.bitmap, hwrite hopens.std, hwrite hopens.problem1]
    rfl
  · have hother : out ≠ stdSortV data := fun hsame => hnodup (heq.mp hsame)
    simp only [hother, ne_eq, not_false_eq_true, if_true, hnodup, if_false]
    rfl

theorem runMode_bench (hopens : Opens host) (hfile : files filename = some text)
    (h : Listing text ns) : (runMode host "--bench" filename).run files =
      match (readable ns).find? (maxValue ≤ ·) with
      | some x => .error (.inputOutOfRange x) files
      | none =>
          if (readable ns).Nodup then .ok () (outputs files (readable ns))
          else .error .bitmapMismatch files := by
  have hread := readInputFile_listing hfile h
  rw [runMode, if_neg (by decide), if_neg (not_not_intro rfl)]
  cases hfind : (readable ns).find? (maxValue ≤ ·) with
  | some x =>
      rw [hfind] at hread
      simp only [bench, EStateM.run_bind, hread]
  | none =>
      rw [hfind] at hread
      have hrange : ∀ x ∈ readable ns, x < maxValue := by
        intro x hx
        have hnot := List.find?_eq_none.mp hfind x hx
        rwa [decide_eq_true_eq, UInt32.not_le] at hnot
      exact bench_sorted hopens hread hrange

/-- All that `--bench` does with a file of numbers. -/
theorem main_bench (hopens : Opens host) (hfile : files filename = some text)
    (h : Listing text ns) : main host [name, "--bench", filename] files =
      match (readable ns).find? (maxValue ≤ ·) with
      | some x => (1, "Error: Input value out of range: " ++ toString x ++ "\n", files)
      | none =>
          if (readable ns).Nodup then (0, "", outputs files (readable ns))
          else (1, "Error: bitmap_sort output does not match std::sort output\n", files) := by
  rw [main, runMode_bench hopens hfile h]
  cases (readable ns).find? (maxValue ≤ ·) with
  | some x => rfl
  | none =>
      by_cases hnodup : (readable ns).Nodup
      · simp only [if_pos hnodup]
      · simp only [if_neg hnodup]
        rfl

theorem main_bench_overflow : main ⟨fun _ => true, []⟩ ["sort_bitmap", "--bench", "in.txt"]
    (fun _ => some "7 4294967296 7".toList) = (0, "", outputs
      (fun _ => some "7 4294967296 7".toList) [7]) := by
  have hseven : Numeral ['7'] 7 := .unsigned (by decide) (List.all_eq_true.mp rfl)
  have hlarge : Numeral "4294967296".toList 4294967296 := .unsigned (by decide) (List.all_eq_true.mp rfl)
  have hlast : Listing " 7".toList [7] :=
    .cons (blank_singleton (by decide)) hseven (fun c hc => nomatch hc) (.nil blank_nil)
  have hrest : Listing " 4294967296 7".toList [4294967296, 7] :=
    .cons (blank_singleton (by decide)) hlarge (noDigit_cons (by decide)) hlast
  have hlisting : Listing "7 4294967296 7".toList [7, 4294967296, 7] :=
    .cons blank_nil hseven (noDigit_cons (by decide)) hrest
  exact main_bench ⟨rfl, rfl, rfl⟩ rfl hlisting

/-! ## Generated files -/

def outputNames : List String := ["bitmap_sorted.txt", "std_sorted.txt", "problem1_sorted.txt"]

theorem outputs_apply (data : List UInt32) (output : String) : outputs files data output =
    if output ∈ outputNames then some (lines (stdSortV data)) else files output := by
  simp only [outputs, outputNames, Function.update_apply, List.mem_cons, List.not_mem_nil, or_false]
  by_cases hproblem1 : output = "problem1_sorted.txt"
  · simp [hproblem1]
  · by_cases hstd : output = "std_sorted.txt"
    · simp [hstd]
    · simp [hproblem1, hstd]

theorem stdSortV_of_sorted {data : List UInt32} (h : data.Pairwise (· ≤ ·)) :
    stdSortV data = data :=
  (List.mergeSort_perm data _).eq_of_pairwise (fun _ _ _ _ => UInt32.le_antisymm)
    (pairwise_stdSortV data) h

/-- To sort what has been sorted changes no file. -/
theorem outputs_again (data : List UInt32) :
    outputs (outputs files data) (stdSortV data) = outputs files data := by
  funext output
  rw [outputs_apply, outputs_apply, stdSortV_of_sorted (pairwise_stdSortV data)]
  by_cases hmem : output ∈ outputNames
  · rw [if_pos hmem, if_pos hmem]
  · rw [if_neg hmem, if_neg hmem]

theorem main_bench_lines {data : List UInt32} (hopens : Opens host)
    (hfile : files filename = some (lines data)) (hrange : ∀ x ∈ data, x < maxValue)
    (hnodup : data.Nodup) :
    main host [name, "--bench", filename] files = (0, "", outputs files data) := by
  have hfind : data.find? (maxValue ≤ ·) = none := by
    rw [List.find?_eq_none]
    intro x hx
    rw [decide_eq_true_eq, UInt32.not_le]
    exact hrange x hx
  have hrun := runMode_bench hopens hfile (listing_lines data)
  rw [readable_toNat, hfind, if_pos hnodup] at hrun
  rw [main, hrun]

/-- What is generated can be sorted, and what is written then can be sorted again. -/
theorem generate_bench (hopens : Opens host) (hopen : host.opens filename = true)
    (hshuffled : host.shuffled.Perm (indices maxValue)) (files : Files) :
    ∃ files' files'' data, main host [name, "--generate", filename] files = (0, "", files') ∧
      main host [name, "--bench", filename] files' = (0, "", files'') ∧
      data.Pairwise (· < ·) ∧ data.length = inputCount ∧ (∀ x ∈ data, x < maxValue) ∧
      (∀ output ∈ outputNames, files'' output = some (lines data) ∧
        main host [name, "--bench", output] files'' = (0, "", files'')) ∧
      ∀ output ∉ filename :: outputNames, files'' output = files output := by
  let input := host.shuffled.take inputCount
  have hmem : ∀ x ∈ input, x < maxValue := fun x hx =>
    mem_indices.mp (hshuffled.mem_iff.mp (List.mem_of_mem_take hx))
  have hnodup : input.Nodup := by
    have hall : (indices maxValue).Nodup := (pairwise_indices _).imp UInt32.ne_of_lt
    exact (hshuffled.nodup_iff.mpr hall).sublist (List.take_sublist _ _)
  have hlength : input.length = inputCount := by
    rw [List.length_take, hshuffled.length_eq, indices, List.length_map, List.length_range]
    rfl
  have hperm : (stdSortV input).Perm input := List.mergeSort_perm input _
  have hsorted : ∀ x ∈ stdSortV input, x < maxValue := fun x hx => hmem x (hperm.mem_iff.mp hx)
  let files' := Function.update files filename (some (lines input))
  have hfiles' : files' filename = some (lines input) := Function.update_self ..
  have hbench : main host [name, "--bench", filename] files' = (0, "", outputs files' input) :=
    main_bench_lines hopens hfiles' hmem hnodup
  refine ⟨files', _, stdSortV input, ?_, hbench, ?_, ?_, hsorted, ?_, ?_⟩
  · have hgenerate : (runMode host "--generate" filename).run files = .ok () files' := by
      rw [runMode, if_pos rfl, generateInputFile, if_pos hopen]
      rfl
    rw [main, hgenerate]
  · have hne := hperm.nodup_iff.mpr hnodup
    exact (pairwise_stdSortV input).imp₂ (fun a b hle hab => UInt32.lt_of_le_of_ne hle hab) hne
  · rw [hperm.length_eq, hlength]
  · intro output houtput
    have hwritten : outputs files' input output = some (lines (stdSortV input)) := by
      rw [outputs_apply, if_pos houtput]
    refine ⟨hwritten, ?_⟩
    rw [main_bench_lines hopens hwritten hsorted (hperm.nodup_iff.mpr hnodup), outputs_again]
  · intro output houtput
    have hother : output ≠ filename := List.ne_of_not_mem_cons houtput
    have hnone : output ∉ outputNames := List.not_mem_of_not_mem_cons houtput
    rw [outputs_apply, if_neg hnone]
    exact Function.update_of_ne hother ..

theorem generate_bench_unshuffled : ∃ host files' files'' data,
    main host ["sort_bitmap", "--generate", "in.txt"] (fun _ => none) = (0, "", files') ∧
    main host ["sort_bitmap", "--bench", "in.txt"] files' = (0, "", files'') ∧
    data.Pairwise (· < ·) ∧ data.length = inputCount ∧ (∀ x ∈ data, x < maxValue) ∧
    (∀ output ∈ outputNames, files'' output = some (lines data) ∧
      main host ["sort_bitmap", "--bench", output] files'' = (0, "", files'')) ∧
    ∀ output ∉ "in.txt" :: outputNames, files'' output = none := by
  have hopens : Opens ⟨fun _ => true, indices maxValue⟩ := ⟨rfl, rfl, rfl⟩
  have hshuffled : ∀ all, (⟨fun _ => true, all⟩ : Host).shuffled.Perm all := fun all => .refl all
  exact ⟨_, generate_bench hopens rfl (hshuffled _) fun _ => none⟩

end SortBitmap

namespace One

open Extraction BitVector

/-- `MAXV`. -/
def maxV : Int32 := 10000000

/-- What is printed. -/
structure Output where
  cout : List Char
  cerr : List Char
deriving DecidableEq

/-- An `int` where a `size_t` is expected. -/
def toSize (x : Int32) : UInt64 := .ofInt x.toInt

/-- The line for an `x` that is out of range. -/
def complaint (x : Int) : List Char := "value out of range: ".toList ++ decimal x ++ ['\n']

/-- `while (std::cin >> x)`, with the largest number, fuel for so many characters and what was
printed before. -/
def readLoop (n : Int32) : Nat → List Char → IStream → Call (List Char)
  | 0, cerr, _ => return cerr
  | fuel + 1, cerr, is =>
      match getInt is with
      | (none, _) => return cerr
      | (some x, is') =>
          if x < 0 ∨ n < x then readLoop n fuel (cerr ++ complaint x.toInt) is'
          else do
            BitVector.set (toSize x)
            readLoop n fuel cerr is'

/-- A turn of the loop over the bits. -/
def printBit (cout : List Char) (i : Int32) : Call (List Char) := do
  if ← test (toSize i) then
    return cout ++ (decimal i.toInt ++ [' '])
  else
    return cout

/-- `i = 0, 1, ..., n`. -/
def upTo (n : Int32) : List Int32 := (List.range (n.toInt.toNat + 1)).map Int32.ofNat

/-- The body of `main`, with the largest number. -/
def sortInput (n : Int32) (text : List Char) : Except Fault Output :=
  let calls : Call Output := do
    let cerr ← readLoop n (text.length + 1) [] (.of text)
    let cout ← (upTo n).foldlM printBit []
    return ⟨cout, cerr⟩
  match calls.run (make (toSize (n + 1))) with
  | .ok output _ => .ok output
  | .error fault _ => .error fault

def main (text : List Char) : Except Fault Output := sortInput maxV text

/-! ## Reading -/

/-- What is read: it ends at the first number that has no `int`. -/
def legible (ns : List Int) : List Int := ns.takeWhile fun m => -2 ^ 31 ≤ m ∧ m < 2 ^ 31

/-- The numbers read that are out of range. -/
def outside (n : Int) (ns : List Int) : List Int :=
  (legible ns).filter fun m => ¬(0 ≤ m ∧ m ≤ n)

section Legible

variable {m n : Int} {ns : List Int}

theorem legible_cons (hm : -2 ^ 31 ≤ m ∧ m < 2 ^ 31) : legible (m :: ns) = m :: legible ns := by
  simp only [legible, List.takeWhile_cons, hm, and_self, decide_true, if_true]

theorem legible_overflow (hm : ¬(-2 ^ 31 ≤ m ∧ m < 2 ^ 31)) : legible (m :: ns) = [] := by
  simp only [legible, List.takeWhile_cons, hm, decide_false, Bool.false_eq_true, if_false]

theorem outside_cons (hm : -2 ^ 31 ≤ m ∧ m < 2 ^ 31) : outside n (m :: ns) =
    if 0 ≤ m ∧ m ≤ n then outside n ns else m :: outside n ns := by
  rw [outside, legible_cons hm, List.filter_cons]
  by_cases hrange : 0 ≤ m ∧ m ≤ n
  · rw [if_pos hrange, if_neg (by simp only [hrange, and_self, not_true]; decide), outside]
  · rw [if_neg hrange, if_pos (by simp only [hrange, not_false_eq_true, decide_true]), outside]

end Legible

variable {b : BitVector} {n x : Int32} {text : List Char} {ns out : List Int} {is : IStream}

theorem toNat_toSize (hx : 0 ≤ x.toInt) : (toSize x).toNat = x.toInt.toNat := by
  have hlt := x.toInt_lt
  have hmod : x.toInt % 2 ^ 64 = x.toInt := Int.emod_eq_of_lt hx (by omega)
  rw [toSize, UInt64.ofInt, hmod, UInt64.toNat_ofNat_of_lt']
  have hsize : UInt64.size = 2 ^ 64 := rfl
  omega

/-- Every number in range has its bit. -/
def Covers (b : BitVector) (n : Int32) : Prop :=
  ∀ x : Int32, 0 ≤ x.toInt → x.toInt ≤ n.toInt → toSize x < b.nbits

/-- What a number in range does to the bits. -/
theorem set_number (hb : Sized b) (hn : Covers b n) (hx : 0 ≤ x.toInt ∧ x.toInt ≤ n.toInt) :
    ∃ b', (BitVector.set (toSize x)).run b = .ok () b' ∧ b'.nbits = b.nbits ∧ Sized b' ∧
      ∀ j : Nat, j ∈ members b' ↔ (j : Int) = x.toInt ∨ j ∈ members b := by
  obtain ⟨b', hset, hsame, hb', hmembers⟩ := set_spec hb (hn x hx.1 hx.2)
  refine ⟨b', hset, hsame, hb', fun j => ?_⟩
  rw [hmembers, Finset.mem_insert, toNat_toSize hx.1]
  exact or_congr_left (by omega)

theorem readLoop_spec {fuel : Nat} (cerr : List Char) (h : Listing text ns)
    (his : Follows is text) (hfuel : text.length < fuel) (hb : Sized b) (hn : Covers b n) :
    ∃ b', (readLoop n fuel cerr is).run b =
        .ok (cerr ++ (outside n.toInt ns).flatMap complaint) b' ∧
      b'.nbits = b.nbits ∧ Sized b' ∧ ∀ j : Nat, j ∈ members b' ↔
        j ∈ members b ∨ (j : Int) ∈ legible ns ∧ (j : Int) ≤ n.toInt := by
  induction fuel generalizing text ns is cerr b with
  | zero => exact absurd hfuel (Nat.not_lt_zero _)
  | succ fuel ih =>
      cases ns with
      | nil =>
          obtain ⟨is', hget⟩ : ∃ is', getInt is = (none, is') := extract_nil h his
          refine ⟨b, ?_, rfl, hb, by simp [legible]⟩
          simp [readLoop, hget, outside, legible]
      | cons m ns =>
          by_cases hint : -2 ^ 31 ≤ m ∧ m < 2 ^ 31
          · obtain ⟨is', rest, hget, his', hrest, hless⟩ := getInt_cons h hint.1 hint.2 his
            obtain ⟨x, rfl⟩ : ∃ x : Int32, m = x.toInt :=
              ⟨.ofInt m, (Int32.toInt_ofInt_of_le hint.1 hint.2).symm⟩
            rw [Int32.ofInt_toInt] at hget
            have hcond : (x < 0 ∨ n < x) ↔ ¬(0 ≤ x.toInt ∧ x.toInt ≤ n.toInt) := by
              rw [Int32.lt_iff_toInt_lt, Int32.lt_iff_toInt_lt, Int32.toInt_zero]
              omega
            rw [readLoop, hget, legible_cons hint, outside_cons hint]
            by_cases hrange : 0 ≤ x.toInt ∧ x.toInt ≤ n.toInt
            · obtain ⟨mid, hset, hsame, hmid, hmembers⟩ := set_number hb hn hrange
              obtain ⟨b', hrun, hsame', hb', hall⟩ := ih cerr hrest his' (by omega) hmid
                fun x hlow hhigh => hsame ▸ hn x hlow hhigh
              refine ⟨b', ?_, hsame'.trans hsame, hb', fun j => ?_⟩
              · simp only [if_neg (mt hcond.mp (not_not_intro hrange)), EStateM.run_bind, hset,
                  hrun, if_pos hrange]
              · rw [hall, hmembers, List.mem_cons]
                constructor
                · rintro ((heq | hold) | ⟨hmem, hle⟩)
                  · exact .inr ⟨.inl heq, heq ▸ hrange.2⟩
                  · exact .inl hold
                  · exact .inr ⟨.inr hmem, hle⟩
                · rintro (hold | ⟨heq | hmem, hle⟩)
                  · exact .inl (.inr hold)
                  · exact .inl (.inl heq)
                  · exact .inr ⟨hmem, hle⟩
            · obtain ⟨b', hrun, hsame, hb', hall⟩ :=
                ih (cerr ++ complaint x.toInt) hrest his' (by omega) hb hn
              refine ⟨b', ?_, hsame, hb', fun j => ?_⟩
              · simp only [if_pos (hcond.mpr hrange), hrun, List.append_assoc, if_neg hrange,
                  List.flatMap_cons]
              · rw [hall, List.mem_cons]
                have hne : (j : Int) ≤ n.toInt → (j : Int) ≠ x.toInt := by omega
                exact or_congr_right ⟨fun ⟨hmem, hle⟩ => ⟨.inr hmem, hle⟩,
                  fun ⟨hmem, hle⟩ => ⟨hmem.resolve_left (hne hle), hle⟩⟩
          · obtain ⟨is', hget⟩ := getInt_overflow h hint his
            refine ⟨b, ?_, rfl, hb, fun j => by simp [legible_overflow hint]⟩
            simp [readLoop, hget, outside, legible_overflow hint]

/-! ## Printing -/

def shown (out : List Int) : List Char := out.flatMap fun m => decimal m ++ [' ']

theorem listing_shown (out : List Int) : Listing (shown out) out := by
  induction out with
  | nil => exact .nil blank_nil
  | cons m out ih =>
      have hrest : Listing (' ' :: shown out) out := ih.blank (blank_singleton (by decide))
      have hcons := Listing.cons blank_nil (numeral_decimal m) (noDigit_cons (by decide)) hrest
      simpa [shown] using hcons

theorem foldlM_printBit (cout : List Char) (hb : Sized b) (hn : Covers b n) {l : List Int32}
    (hl : ∀ i ∈ l, 0 ≤ i.toInt ∧ i.toInt ≤ n.toInt) : (l.foldlM printBit cout).run b =
      .ok (cout ++ shown ((l.map Int32.toInt).filter fun m => m.toNat ∈ members b)) b := by
  induction l generalizing cout with
  | nil => rw [List.map_nil, List.filter_nil, shown, List.flatMap_nil, List.append_nil]; rfl
  | cons i l ih =>
      obtain ⟨hi, hrest⟩ := List.forall_mem_cons.mp hl
      have htest := test_spec hb (hn i hi.1 hi.2)
      rw [toNat_toSize hi.1] at htest
      rw [List.foldlM_cons, EStateM.run_bind, printBit, EStateM.run_bind, htest]
      by_cases hmem : i.toInt.toNat ∈ members b
      · simp only [hmem, decide_true, if_true, EStateM.run_pure, List.map_cons, List.filter_cons,
          ih _ hrest, shown, List.flatMap_cons, List.append_assoc]
      · simp only [hmem, decide_false, Bool.false_eq_true, if_false, EStateM.run_pure,
          List.map_cons, List.filter_cons, ih _ hrest]

theorem map_upTo (hn : 0 ≤ n.toInt) :
    (upTo n).map Int32.toInt = (List.range (n.toInt.toNat + 1)).map Int.ofNat := by
  rw [upTo, List.map_map]
  refine List.map_congr_left fun k hk => ?_
  have hlt := n.toInt_lt
  have hle := List.mem_range.mp hk
  exact Int32.toInt_ofNat_of_lt (by omega)

theorem mem_upTo (hn : 0 ≤ n.toInt) {i : Int32} (hi : i ∈ upTo n) :
    0 ≤ i.toInt ∧ i.toInt ≤ n.toInt := by
  have hmem : i.toInt ∈ (upTo n).map Int32.toInt := List.mem_map_of_mem hi
  rw [map_upTo hn] at hmem
  obtain ⟨k, hk, heq⟩ := List.mem_map.mp hmem
  have hle := List.mem_range.mp hk
  have hcast : Int.ofNat k = k := rfl
  omega

/-! ## The run of the program -/

theorem toInt_add_one (hn : 0 ≤ n.toInt) (hlast : n.toInt < 2 ^ 31 - 1) :
    (n + 1).toInt = n.toInt + 1 := by
  rw [Int32.toInt_add, Int32.toInt_one, Int.bmod_eq_of_le (by omega) (by omega)]

theorem covers_make (hn : 0 ≤ n.toInt) (hlast : n.toInt < 2 ^ 31 - 1) :
    Sized (make (toSize (n + 1))) ∧ Covers (make (toSize (n + 1))) n := by
  have hnext := toInt_add_one hn hlast
  have hsize : (toSize (n + 1)).toNat = n.toInt.toNat + 1 := by
    rw [toNat_toSize (by omega), hnext]
    omega
  refine ⟨sized_make (by omega), fun x hlow hhigh => ?_⟩
  change toSize x < toSize (n + 1)
  rw [UInt64.lt_iff_toNat_lt, hsize, toNat_toSize hlow]
  omega

theorem sortInput_spec (hn : 0 ≤ n.toInt) (hlast : n.toInt < 2 ^ 31 - 1) (h : Listing text ns) :
    ∃ out : List Int,
      sortInput n text = .ok ⟨shown out, (outside n.toInt ns).flatMap complaint⟩ ∧
      out.Pairwise (· < ·) ∧ ∀ m, m ∈ out ↔ m ∈ legible ns ∧ 0 ≤ m ∧ m ≤ n.toInt := by
  obtain ⟨hsized, hcovers⟩ := covers_make hn hlast
  obtain ⟨b, hread, hsame, hb, hmembers⟩ :=
    readLoop_spec [] h (.inl rfl) (Nat.lt_succ_self text.length) hsized hcovers
  have hbits : Covers b n := fun x hlow hhigh => hsame ▸ hcovers x hlow hhigh
  have hprint := foldlM_printBit [] hb hbits fun i hi => mem_upTo hn hi
  rw [map_upTo hn] at hprint
  let out := ((List.range (n.toInt.toNat + 1)).map Int.ofNat).filter fun m => m.toNat ∈ members b
  refine ⟨out, ?_, ?_, fun m => ?_⟩
  · rw [sortInput, EStateM.run_bind, hread]
    simp only [EStateM.run_bind, hprint, EStateM.run_pure, List.nil_append, out]
  · exact (List.pairwise_map.mpr (List.pairwise_lt_range.imp Int.ofNat_lt.mpr)).filter _
  · rw [List.mem_filter, decide_eq_true_eq, hmembers, members_make, List.mem_map]
    constructor
    · rintro ⟨⟨k, hk, rfl⟩, hnone | ⟨hmem, hle⟩⟩
      · exact absurd hnone (Finset.notMem_empty _)
      · exact ⟨hmem, Int.natCast_nonneg k, hle⟩
    · rintro ⟨hmem, hlow, hhigh⟩
      have hcast : ((m.toNat : Nat) : Int) = m := Int.toNat_of_nonneg hlow
      refine ⟨⟨m.toNat, List.mem_range.mpr (by omega), hcast⟩, .inr ?_⟩
      rw [hcast]
      exact ⟨hmem, hhigh⟩

/-- What has been sorted is printed again as it is. -/
theorem sortInput_shown (hn : 0 ≤ n.toInt) (hlast : n.toInt < 2 ^ 31 - 1)
    (hsorted : out.Pairwise (· < ·)) (hrange : ∀ m ∈ out, 0 ≤ m ∧ m ≤ n.toInt) :
    sortInput n (shown out) = .ok ⟨shown out, []⟩ := by
  obtain ⟨out', hrun, hsorted', hmem'⟩ := sortInput_spec hn hlast (listing_shown out)
  have hlt := n.toInt_lt
  have hlegible : legible out = out := by
    refine List.takeWhile_eq_self_iff.mpr fun m hm => decide_eq_true ?_
    obtain ⟨hlow, hhigh⟩ := hrange m hm
    omega
  have hout : outside n.toInt out = [] := by
    rw [outside, hlegible, List.filter_eq_nil_iff]
    exact fun m hm hnot => of_decide_eq_true hnot (hrange m hm)
  have hsame : out' = out := by
    have hmem : ∀ m, m ∈ out' ↔ m ∈ out := fun m => by
      rw [hmem', hlegible]
      exact and_iff_left_of_imp (hrange m)
    have hperm := (List.perm_ext_iff_of_nodup (hsorted'.imp Int.ne_of_lt)
      (hsorted.imp Int.ne_of_lt)).mpr hmem
    exact hperm.eq_of_pairwise (fun _ _ _ _ hab hba => absurd hba (Int.lt_asymm hab)) hsorted'
      hsorted
  rw [hrun, hout, hsame, List.flatMap_nil]

/-- All that the program does with numbers on `cin`. -/
theorem main_sorts (h : Listing text ns) : ∃ out : List Int,
    main text = .ok ⟨shown out, (outside 10000000 ns).flatMap complaint⟩ ∧
    out.Pairwise (· < ·) ∧ (∀ m, m ∈ out ↔ m ∈ legible ns ∧ 0 ≤ m ∧ m ≤ 10000000) ∧
    main (shown out) = .ok ⟨shown out, []⟩ := by
  have hmax : maxV.toInt = 10000000 := by decide
  have hn : 0 ≤ maxV.toInt := by omega
  have hlast : maxV.toInt < 2 ^ 31 - 1 := by omega
  obtain ⟨out, hrun, hsorted, hmem⟩ := sortInput_spec hn hlast h
  have hagain := sortInput_shown hn hlast hsorted fun m hm => ((hmem m).mp hm).2
  rw [hmax] at hrun hmem
  exact ⟨out, hrun, hsorted, hmem, hagain⟩

theorem main_sorts_four : ∃ out : List Int,
    main "7 -1 10000001 7".toList =
      .ok ⟨shown out, (outside 10000000 [7, -1, 10000001, 7]).flatMap complaint⟩ ∧
    out.Pairwise (· < ·) ∧
    (∀ m, m ∈ out ↔ m ∈ legible [7, -1, 10000001, 7] ∧ 0 ≤ m ∧ m ≤ 10000000) ∧
    main (shown out) = .ok ⟨shown out, []⟩ := by
  have hseven : Numeral ['7'] 7 := .unsigned (by decide) (List.all_eq_true.mp rfl)
  have hminus : Numeral ['-', '1'] (-1) := .minus (by decide) (List.all_eq_true.mp rfl)
  have hlarge : Numeral "10000001".toList 10000001 := .unsigned (by decide) (List.all_eq_true.mp rfl)
  have hspace : Blank [' '] := blank_singleton (by decide)
  have hlast : Listing " 7".toList [7] :=
    .cons hspace hseven (fun c hc => nomatch hc) (.nil blank_nil)
  have hthree : Listing " 10000001 7".toList [10000001, 7] :=
    .cons hspace hlarge (noDigit_cons (by decide)) hlast
  have hrest : Listing " -1 10000001 7".toList [-1, 10000001, 7] :=
    .cons hspace hminus (noDigit_cons (by decide)) hthree
  have hall : Listing "7 -1 10000001 7".toList [7, -1, 10000001, 7] :=
    .cons blank_nil hseven (noDigit_cons (by decide)) hrest
  exact main_sorts hall

end One

end MoreCpp
