import Mathlib.Algebra.Ring.Int.Defs
import Mathlib.Algebra.Ring.Nat
import Mathlib.Data.List.TakeWhile

/-!
Input streams of characters, with what is extracted from them one thing after the other. The
names of the operations are those of `std::istream`; the locale is the classic one, and the
base of numbers is ten.
-/

namespace MoreCpp.Library

/-- The characters that are left to be read, and the state. -/
structure IStream where
  rest : List Char
  eofbit : Bool
  failbit : Bool
deriving DecidableEq

namespace IStream

/-- A stream with nothing read of it. -/
def of (text : List Char) : IStream := ⟨text, false, false⟩

def good (is : IStream) : Bool := !is.eofbit && !is.failbit

/-- `is.setstate(failbit)`. -/
def setFail (is : IStream) : IStream := { is with failbit := true }

/-- At the end of the file. -/
def ended : IStream := ⟨[], true, true⟩

theorem exists_of_good {is : IStream} (h : is.good = true) : ∃ text, is = of text := by
  obtain ⟨rest, eofbit, failbit⟩ := is
  cases eofbit
  · cases failbit
    · exact ⟨rest, rfl⟩
    · cases h
  · cases h

end IStream

/-- What is extracted, or nothing where that fails, and the stream after it. -/
def Extraction (α : Type) := IStream → Option α × IStream

namespace Extraction

variable {α β : Type} {is is' : IStream}

instance : Monad Extraction where
  pure a := fun is => (some a, is)
  bind x f := fun is =>
    match x is with
    | (some a, is') => f a is'
    | (none, is') => (none, is')

theorem pure_eq_some {a b : α} :
    (pure a : Extraction α) is = (some b, is') ↔ a = b ∧ is = is' := by
  change (some a, is) = (some b, is') ↔ _
  rw [Prod.mk.injEq, Option.some_inj]

theorem bind_eq_some {x : Extraction α} {f : α → Extraction β} {b : β} :
    (x >>= f) is = (some b, is') ↔ ∃ a mid, x is = (some a, mid) ∧ f a mid = (some b, is') := by
  change (match x is with
    | (some a, is') => f a is'
    | (none, is') => (none, is')) = (some b, is') ↔ _
  obtain ⟨_ | a, mid⟩ := x is
  · simp
  · constructor
    · exact fun h => ⟨a, mid, rfl, h⟩
    · rintro ⟨_, _, ⟨rfl⟩, h⟩
      exact h

theorem bind_of_none {x : Extraction α} (f : α → Extraction β) (h : x is = (none, is')) :
    (x >>= f) is = (none, is') := by
  change (match x is with
    | (some a, is') => f a is'
    | (none, is') => (none, is')) = _
  rw [h]

theorem bind_of_some {x : Extraction α} {a : α} {f : α → Extraction β} (h : x is = (some a, is')) :
    (x >>= f) is = f a is' := by
  change (match x is with
    | (some a, is') => f a is'
    | (none, is') => (none, is')) = _
  rw [h]

def fail : Extraction α := fun is => (none, is)

/-- `is.get(c)`. -/
def get : Extraction Char := fun is =>
  if is.good then
    match is.rest with
    | [] => (none, .ended)
    | c :: rest => (some c, { is with rest })
  else (none, is.setFail)

/-- What `isspace` holds of. -/
def isSpace (c : Char) : Bool := c == ' ' || (9 ≤ c.toNat && c.toNat ≤ 13)

theorem isSpace_of_gt {c : Char} (hc : 32 < c.toNat) : isSpace c = false := by
  have hne : c ≠ ' ' := by
    rintro rfl
    exact absurd hc (by decide)
  simp [isSpace, hne]
  omega

/-- The sentry of the formatted extractions. -/
def skipWs : Extraction Unit := fun is =>
  if is.good then
    match is.rest.dropWhile isSpace with
    | [] => (none, .ended)
    | c :: rest => (some (), { is with rest := c :: rest })
  else (none, is.setFail)

/-- `is >> c`. -/
def getChar : Extraction Char := do
  skipWs
  get

/-- `is >> c && c == x`. -/
def eat (x : Char) : Extraction Unit := do
  let c ← getChar
  if c = x then pure ()
  else fail

/-- `while (is.get(c) && c != stop) s += c`, with fuel for so many characters. -/
def appendUntil (stop : Char) : Nat → List Char → Extraction (List Char)
  | 0, _ => fail
  | fuel + 1, s => do
      let c ← get
      if c ≠ stop then appendUntil stop fuel (s ++ [c])
      else return s

def getUntil (stop : Char) : Extraction (List Char) := fun is =>
  appendUntil stop (is.rest.length + 1) [] is

/-- The sign of a number, if it has one: whether it is negative, and what follows. -/
def sign : List Char → Bool × List Char
  | '-' :: rest => (true, rest)
  | '+' :: rest => (false, rest)
  | rest => (false, rest)

def number (negative : Bool) (digits : List Char) : Int :=
  if negative then -Nat.ofDigitChars 10 digits 0 else Nat.ofDigitChars 10 digits 0

/-- All the digits that there are, whether or not an `int` can have their value. -/
def getDigits : Extraction Int32 := fun is =>
  let (negative, text) := sign is.rest
  let digits := text.takeWhile Char.isDigit
  let rest := text.dropWhile Char.isDigit
  let n := number negative digits
  if digits ≠ [] ∧ -2 ^ 31 ≤ n ∧ n < 2 ^ 31 then (some (Int32.ofInt n), ⟨rest, rest.isEmpty, false⟩)
  else (none, ⟨rest, rest.isEmpty, true⟩)

/-- `is >> number` for an `int`. -/
def getInt : Extraction Int32 := do
  skipWs
  getDigits

/-- The same for a `uint32_t`, of which a negative number is taken modulo 2^32. -/
def getUnsignedDigits : Extraction UInt32 := fun is =>
  let (negative, text) := sign is.rest
  let digits := text.takeWhile Char.isDigit
  let rest := text.dropWhile Char.isDigit
  let n := number negative digits
  if digits ≠ [] ∧ n.natAbs < 2 ^ 32 then (some (UInt32.ofInt n), ⟨rest, rest.isEmpty, false⟩)
  else (none, ⟨rest, rest.isEmpty, true⟩)

/-- `is >> number` for a `uint32_t`. -/
def getUnsigned : Extraction UInt32 := do
  skipWs
  getUnsignedDigits

/-- All the characters up to the next blank. -/
def getBlack : Extraction (List Char) := fun is =>
  let rest := is.rest.dropWhile fun c => !isSpace c
  (some (is.rest.takeWhile fun c => !isSpace c), ⟨rest, rest.isEmpty, false⟩)

/-- `is >> str`. -/
def getString : Extraction (List Char) := do
  skipWs
  getBlack

/-! ## What is read -/

def Blank (w : List Char) : Prop := ∀ c ∈ w, isSpace c = true

/-- Some digits, with or without a sign before them. -/
inductive Numeral : List Char → Int → Prop
  | unsigned {digits : List Char} (hne : digits ≠ []) (hall : ∀ c ∈ digits, c.isDigit = true) :
      Numeral digits (number false digits)
  | plus {digits : List Char} (hne : digits ≠ []) (hall : ∀ c ∈ digits, c.isDigit = true) :
      Numeral ('+' :: digits) (number false digits)
  | minus {digits : List Char} (hne : digits ≠ []) (hall : ∀ c ∈ digits, c.isDigit = true) :
      Numeral ('-' :: digits) (number true digits)

theorem blank_nil : Blank [] := fun _ hc => absurd hc List.not_mem_nil

theorem blank_singleton {c : Char} (hc : isSpace c = true) : Blank [c] := by
  intro d hd
  rw [List.mem_singleton.mp hd]
  exact hc

theorem get_eq_some {c : Char} :
    get is = (some c, is') ↔ ∃ rest, is = .of (c :: rest) ∧ is' = .of rest := by
  constructor
  · intro h
    obtain hgood | hgood := Bool.eq_false_or_eq_true is.good
    · obtain ⟨text, rfl⟩ := IStream.exists_of_good hgood
      cases text with
      | nil => cases h
      | cons d rest =>
          cases h
          exact ⟨rest, rfl, rfl⟩
    · rw [get, if_neg (Bool.not_eq_true _ ▸ hgood)] at h
      cases h
  · rintro ⟨rest, rfl, rfl⟩
    rfl

/-- A text has something in it that is not blank, or has not. -/
theorem blank_or (text : List Char) : Blank text ∨
    ∃ w c rest, Blank w ∧ isSpace c = false ∧ text = w ++ c :: rest := by
  induction text with
  | nil => exact .inl fun c hc => absurd hc List.not_mem_nil
  | cons c text ih =>
      obtain hspace | hspace := Bool.eq_false_or_eq_true (isSpace c)
      · obtain hblank | ⟨w, d, rest, hw, hd, rfl⟩ := ih
        · exact .inl (List.forall_mem_cons.mpr ⟨hspace, hblank⟩)
        · exact .inr ⟨c :: w, d, rest, List.forall_mem_cons.mpr ⟨hspace, hw⟩, hd, rfl⟩
      · exact .inr ⟨[], c, text, fun d hd => absurd hd List.not_mem_nil, hspace, rfl⟩

theorem skipWs_blank {w rest : List Char} {c : Char} (hw : Blank w) (hc : isSpace c = false) :
    skipWs (.of (w ++ c :: rest)) = (some (), .of (c :: rest)) := by
  have hdrop : (w ++ c :: rest).dropWhile isSpace = c :: rest := by
    rw [List.dropWhile_append_of_pos hw, List.dropWhile_cons_of_neg (by rw [hc]; decide)]
  simp [skipWs, IStream.of, IStream.good, hdrop]

theorem skipWs_end {w : List Char} (hw : Blank w) : skipWs (.of w) = (none, .ended) := by
  have hdrop : w.dropWhile isSpace = [] := List.dropWhile_eq_nil_iff.mpr hw
  simp [skipWs, IStream.of, IStream.good, hdrop]

theorem skipWs_eq_some {u : Unit} : skipWs is = (some u, is') ↔ ∃ w c rest, Blank w ∧
    isSpace c = false ∧ is = .of (w ++ c :: rest) ∧ is' = .of (c :: rest) := by
  constructor
  · intro h
    obtain hgood | hgood := Bool.eq_false_or_eq_true is.good
    · obtain ⟨text, rfl⟩ := IStream.exists_of_good hgood
      obtain hblank | ⟨w, c, rest, hw, hc, rfl⟩ := blank_or text
      · cases (skipWs_end hblank).symm.trans h
      · cases (skipWs_blank hw hc).symm.trans h
        exact ⟨w, c, rest, hw, hc, rfl, rfl⟩
    · rw [skipWs, if_neg (Bool.not_eq_true _ ▸ hgood)] at h
      cases h
  · rintro ⟨w, c, rest, hw, hc, rfl, rfl⟩
    exact skipWs_blank hw hc

theorem getChar_eq_some {c : Char} : getChar is = (some c, is') ↔ ∃ w rest, Blank w ∧
    isSpace c = false ∧ is = .of (w ++ c :: rest) ∧ is' = .of rest := by
  simp only [getChar, bind_eq_some, skipWs_eq_some, get_eq_some]
  constructor
  · rintro ⟨-, mid, ⟨w, d, rest, hw, hd, rfl, rfl⟩, rest', hmid, rfl⟩
    cases hmid
    exact ⟨w, _, hw, hd, rfl, rfl⟩
  · rintro ⟨w, rest, hw, hc, rfl, rfl⟩
    exact ⟨(), _, ⟨w, c, rest, hw, hc, rfl, rfl⟩, rest, rfl, rfl⟩

theorem eat_eq_some {x : Char} {u : Unit} (hx : isSpace x = false) :
    eat x is = (some u, is') ↔ ∃ w rest, Blank w ∧ is = .of (w ++ x :: rest) ∧ is' = .of rest := by
  simp only [eat, bind_eq_some, getChar_eq_some]
  constructor
  · rintro ⟨c, mid, ⟨w, rest, hw, -, rfl, rfl⟩, h⟩
    by_cases heq : c = x
    · rw [if_pos heq] at h
      cases h
      exact ⟨w, rest, hw, by rw [heq], rfl⟩
    · rw [if_neg heq] at h
      cases h
  · rintro ⟨w, rest, hw, rfl, rfl⟩
    exact ⟨x, _, ⟨w, rest, hw, hx, rfl, rfl⟩, by rw [if_pos rfl]; rfl⟩

theorem appendUntil_eq_some {stop : Char} {fuel : Nat} {s s' : List Char}
    (hfuel : is.rest.length < fuel) :
    appendUntil stop fuel s is = (some s', is') ↔ ∃ t rest, stop ∉ t ∧ s' = s ++ t ∧
      is = .of (t ++ stop :: rest) ∧ is' = .of rest := by
  induction fuel generalizing s is with
  | zero => exact absurd hfuel (Nat.not_lt_zero _)
  | succ fuel ih =>
      simp only [appendUntil, bind_eq_some, get_eq_some]
      constructor
      · rintro ⟨c, mid, ⟨rest, rfl, rfl⟩, h⟩
        by_cases hne : c ≠ stop
        · have hless : (IStream.of rest).rest.length < fuel := Nat.lt_of_succ_lt_succ hfuel
          rw [if_pos hne, ih hless] at h
          obtain ⟨t, rest', ht, rfl, hrest, rfl⟩ := h
          cases hrest
          refine ⟨c :: t, rest', ?_, by simp, rfl, rfl⟩
          exact List.not_mem_cons_of_ne_of_not_mem (Ne.symm hne) ht
        · rw [if_neg hne] at h
          cases h
          exact ⟨[], rest, List.not_mem_nil, by simp, by rw [not_not.mp hne]; rfl, rfl⟩
      · rintro ⟨t, rest, ht, rfl, rfl, rfl⟩
        cases t with
        | nil =>
            refine ⟨stop, _, ⟨rest, rfl, rfl⟩, ?_⟩
            rw [if_neg (not_not_intro rfl), List.append_nil]
            rfl
        | cons c t =>
            have hne : c ≠ stop := fun heq => ht (heq ▸ List.mem_cons_self)
            have hless : (IStream.of (t ++ stop :: rest)).rest.length < fuel :=
              Nat.lt_of_succ_lt_succ hfuel
            refine ⟨c, _, ⟨t ++ stop :: rest, rfl, rfl⟩, ?_⟩
            rw [if_pos hne, ih hless]
            exact ⟨t, rest, fun hmem => ht (List.mem_cons_of_mem c hmem), by simp, rfl, rfl⟩

/-- What comes before the first `stop`. -/
theorem getUntil_eq_some {stop : Char} {s : List Char} : getUntil stop is = (some s, is') ↔
    ∃ rest, stop ∉ s ∧ is = .of (s ++ stop :: rest) ∧ is' = .of rest := by
  rw [getUntil, appendUntil_eq_some (Nat.lt_succ_self _)]
  constructor
  · rintro ⟨t, rest, ht, rfl, his, his'⟩
    exact ⟨rest, ht, his, his'⟩
  · rintro ⟨rest, hs, his, his'⟩
    exact ⟨s, rest, hs, rfl, his, his'⟩

/-- What comes after a number. -/
def NoDigit (rest : List Char) : Prop := ∀ c ∈ rest.head?, c.isDigit = false

variable {digits text rest : List Char} {n : Int}

theorem takeWhile_digits (hall : ∀ c ∈ digits, c.isDigit = true) (hrest : NoDigit rest) :
    (digits ++ rest).takeWhile Char.isDigit = digits ∧
      (digits ++ rest).dropWhile Char.isDigit = rest := by
  rw [List.takeWhile_append_of_pos hall, List.dropWhile_append_of_pos hall]
  cases rest with
  | nil => exact ⟨List.append_nil digits, rfl⟩
  | cons c rest =>
      have hc : c.isDigit = false := hrest c rfl
      simp [hc]

theorem noDigit_dropWhile (text : List Char) : NoDigit (text.dropWhile Char.isDigit) := by
  intro c hc
  have hhead := List.head?_dropWhile_not Char.isDigit text
  rw [Option.mem_def.mp hc] at hhead
  exact hhead

/-- A digit is neither a sign nor whitespace. -/
theorem digit_ne {c : Char} (hc : c.isDigit = true) :
    c ≠ '-' ∧ c ≠ '+' ∧ isSpace c = false := by
  refine ⟨?_, ?_, ?_⟩
  · rintro rfl
    cases hc
  · rintro rfl
    cases hc
  · obtain ⟨hlow, hhigh⟩ := Char.isDigit_iff_toNat.mp hc
    have hlow' : 48 ≤ c.toNat := hlow
    have hspace : c ≠ ' ' := by
      rintro rfl
      cases hc
    simp [isSpace, hspace]
    omega

theorem noDigit_cons {c : Char} (hc : c.isDigit = false) : NoDigit (c :: rest) := by
  intro d hd
  obtain rfl : c = d := Option.some.inj hd
  exact hc

theorem noDigit_blank {w : List Char} {c : Char} (hw : Blank w) (hc : c.isDigit = false) :
    NoDigit (w ++ c :: rest) := by
  intro d hd
  cases w with
  | nil =>
      obtain rfl : c = d := Option.some.inj hd
      exact hc
  | cons b w =>
      obtain rfl : b = d := Option.some.inj hd
      obtain hdigit | hdigit := Bool.eq_false_or_eq_true b.isDigit
      · cases (digit_ne hdigit).2.2.symm.trans (hw b List.mem_cons_self)
      · exact hdigit

theorem sign_digits (hne : digits ≠ []) (hall : ∀ c ∈ digits, c.isDigit = true) :
    sign (digits ++ rest) = (false, digits ++ rest) := by
  cases digits with
  | nil => exact absurd rfl hne
  | cons c digits =>
      obtain ⟨hminus, hplus, -⟩ := digit_ne (hall c List.mem_cons_self)
      rw [List.cons_append, sign]
      · exact fun _ heq => hminus (List.cons.inj heq).1
      · exact fun _ heq => hplus (List.cons.inj heq).1

/-- A numeral has its sign, its digits, and what comes after them. -/
theorem Numeral.split (h : Numeral digits n) (hrest : NoDigit rest) : ∃ negative text ds,
    sign (digits ++ rest) = (negative, text) ∧ text.takeWhile Char.isDigit = ds ∧
      text.dropWhile Char.isDigit = rest ∧ ds ≠ [] ∧ number negative ds = n := by
  cases h with
  | unsigned hne hall =>
      obtain ⟨htake, hdrop⟩ := takeWhile_digits hall hrest
      exact ⟨_, _, _, sign_digits hne hall, htake, hdrop, hne, rfl⟩
  | plus hne hall =>
      obtain ⟨htake, hdrop⟩ := takeWhile_digits hall hrest
      exact ⟨_, _, _, rfl, htake, hdrop, hne, rfl⟩
  | minus hne hall =>
      obtain ⟨htake, hdrop⟩ := takeWhile_digits hall hrest
      exact ⟨_, _, _, rfl, htake, hdrop, hne, rfl⟩

theorem getDigits_numeral (h : Numeral digits n) (hlow : -2 ^ 31 ≤ n) (hhigh : n < 2 ^ 31)
    (hrest : NoDigit rest) :
    getDigits (.of (digits ++ rest)) = (some (Int32.ofInt n), ⟨rest, rest.isEmpty, false⟩) := by
  obtain ⟨negative, text, ds, hsign, htake, hdrop, hne, rfl⟩ := h.split hrest
  simp only [getDigits, IStream.of, hsign, htake, hdrop]
  exact if_pos ⟨hne, hlow, hhigh⟩

theorem getDigits_overflow (h : Numeral digits n) (hn : ¬(-2 ^ 31 ≤ n ∧ n < 2 ^ 31))
    (hrest : NoDigit rest) :
    getDigits (.of (digits ++ rest)) = (none, ⟨rest, rest.isEmpty, true⟩) := by
  obtain ⟨negative, text, ds, hsign, htake, hdrop, -, rfl⟩ := h.split hrest
  simp only [getDigits, IStream.of, hsign, htake, hdrop]
  exact if_neg fun hok => hn hok.2

theorem getUnsignedDigits_numeral (h : Numeral digits n) (hn : n.natAbs < 2 ^ 32)
    (hrest : NoDigit rest) : getUnsignedDigits (.of (digits ++ rest)) =
      (some (UInt32.ofInt n), ⟨rest, rest.isEmpty, false⟩) := by
  obtain ⟨negative, text, ds, hsign, htake, hdrop, hne, rfl⟩ := h.split hrest
  simp only [getUnsignedDigits, IStream.of, hsign, htake, hdrop]
  exact if_pos ⟨hne, hn⟩

theorem getUnsignedDigits_overflow (h : Numeral digits n) (hn : 2 ^ 32 ≤ n.natAbs)
    (hrest : NoDigit rest) : getUnsignedDigits (.of (digits ++ rest)) =
      (none, ⟨rest, rest.isEmpty, true⟩) := by
  obtain ⟨negative, text, ds, hsign, htake, hdrop, -, rfl⟩ := h.split hrest
  simp only [getUnsignedDigits, IStream.of, hsign, htake, hdrop]
  exact if_neg fun hok => absurd hok.2 (Nat.not_lt.mpr hn)

/-- The sign and the digits are a numeral. -/
theorem exists_numeral (text : List Char)
    (hne : (sign text).2.takeWhile Char.isDigit ≠ []) : ∃ digits,
    Numeral digits (number (sign text).1 ((sign text).2.takeWhile Char.isDigit)) ∧
      text = digits ++ (sign text).2.dropWhile Char.isDigit := by
  have hall : ∀ t : List Char, ∀ c ∈ t.takeWhile Char.isDigit, c.isDigit = true :=
    fun t c hc => List.mem_takeWhile_imp hc
  unfold sign at hne ⊢
  split at hne
  · rename_i t
    refine ⟨_, .minus hne (hall t), ?_⟩
    rw [List.cons_append, List.takeWhile_append_dropWhile]
  · rename_i t
    refine ⟨_, .plus hne (hall t), ?_⟩
    rw [List.cons_append, List.takeWhile_append_dropWhile]
  · refine ⟨_, .unsigned hne (hall text), ?_⟩
    rw [List.takeWhile_append_dropWhile]

theorem of_getDigits {m : Int32} (h : getDigits (.of text) = (some m, is')) :
    ∃ digits rest, Numeral digits m.toInt ∧ NoDigit rest ∧ text = digits ++ rest ∧
      is' = ⟨rest, rest.isEmpty, false⟩ := by
  dsimp only [getDigits, IStream.of] at h
  split at h
  case isTrue hok =>
    obtain ⟨hne, hlow, hhigh⟩ := hok
    cases h
    obtain ⟨digits, hnumeral, htext⟩ := exists_numeral text hne
    refine ⟨digits, _, ?_, noDigit_dropWhile _, htext, rfl⟩
    rwa [Int32.toInt_ofInt_of_le hlow hhigh]
  case isFalse => cases h

/-- A number is not blank where it begins. -/
theorem Numeral.head (h : Numeral digits n) :
    ∃ c rest, digits = c :: rest ∧ isSpace c = false := by
  cases h with
  | unsigned hne hall =>
      obtain ⟨c, rest, rfl⟩ := List.exists_cons_of_ne_nil hne
      exact ⟨c, rest, rfl, (digit_ne (hall c List.mem_cons_self)).2.2⟩
  | plus hne hall => exact ⟨_, _, rfl, by decide⟩
  | minus hne hall => exact ⟨_, _, rfl, by decide⟩

theorem getInt_eq_some {m : Int32} : getInt is = (some m, is') ↔ ∃ w digits rest, Blank w ∧
    Numeral digits m.toInt ∧ NoDigit rest ∧ is = .of (w ++ (digits ++ rest)) ∧
      is' = ⟨rest, rest.isEmpty, false⟩ := by
  simp only [getInt, bind_eq_some, skipWs_eq_some]
  constructor
  · rintro ⟨-, mid, ⟨w, c, text, hw, -, rfl, rfl⟩, h⟩
    obtain ⟨digits, rest, hnumeral, hrest, htext, rfl⟩ := of_getDigits h
    exact ⟨w, digits, rest, hw, hnumeral, hrest, by rw [htext], rfl⟩
  · rintro ⟨w, digits, rest, hw, hnumeral, hrest, rfl, rfl⟩
    obtain ⟨c, digits', hdigits, hc⟩ := hnumeral.head
    have hread := getDigits_numeral hnumeral m.le_toInt m.toInt_lt hrest
    rw [Int32.ofInt_toInt] at hread
    refine ⟨(), _, ⟨w, c, digits' ++ rest, hw, hc, ?_, rfl⟩, ?_⟩
    · rw [hdigits, List.cons_append]
    · rw [← List.cons_append, ← hdigits]
      exact hread

theorem getString_end {w : List Char} (hw : Blank w) : getString (.of w) = (none, .ended) :=
  bind_of_none _ (skipWs_end hw)

/-- A string is what stands between two blanks. -/
theorem getString_word {w word : List Char} {c : Char} (hw : Blank w) (hne : word ≠ [])
    (hword : ∀ c ∈ word, isSpace c = false) (hc : isSpace c = true) :
    getString (.of (w ++ (word ++ c :: rest))) = (some word, .of (c :: rest)) := by
  obtain ⟨d, word', rfl⟩ := List.exists_cons_of_ne_nil hne
  have hblack : ∀ e ∈ d :: word', (!isSpace e) = true := fun e he => by rw [hword e he]; rfl
  have hskip : skipWs (.of (w ++ d :: (word' ++ c :: rest))) =
      (some (), .of (d :: (word' ++ c :: rest))) := skipWs_blank hw (hword d List.mem_cons_self)
  refine (bind_of_some hskip).trans ?_
  have htake : (d :: (word' ++ c :: rest)).takeWhile (fun c => !isSpace c) = d :: word' := by
    rw [← List.cons_append, List.takeWhile_append_of_pos hblack, List.takeWhile_cons, hc]
    exact List.append_nil _
  have hdrop : (d :: (word' ++ c :: rest)).dropWhile (fun c => !isSpace c) = c :: rest := by
    rw [← List.cons_append, List.dropWhile_append_of_pos hblack, List.dropWhile_cons, hc]
    rfl
  simp only [getBlack, IStream.of, htake, hdrop]
  rfl

/-- The first word, and what comes after it. -/
def firstWord (text : List Char) : List Char := text.takeWhile fun c => !isSpace c

def afterWord (text : List Char) : List Char := text.dropWhile fun c => !isSpace c

theorem space_afterWord : ∀ d ∈ (afterWord text).head?, isSpace d = true := by
  intro d hd
  have hhead := List.head?_dropWhile_not (fun c => !isSpace c) text
  have hd' : (text.dropWhile fun c => !isSpace c).head? = some d := hd
  rw [hd'] at hhead
  simpa using hhead

theorem getString_nonblank {w : List Char} {c : Char} (hw : Blank w) (hc : isSpace c = false) :
    getString (.of (w ++ c :: text)) = (some (firstWord (c :: text)),
      ⟨afterWord (c :: text), (afterWord (c :: text)).isEmpty, false⟩) :=
  bind_of_some (skipWs_blank hw hc)

theorem length_afterWord_lt {c : Char} (hc : isSpace c = false) :
    (afterWord (c :: text)).length < (c :: text).length := by
  rw [afterWord, List.dropWhile_cons, hc]
  exact Nat.lt_succ_of_le (List.length_dropWhile_le _ text)

/-! ## What is written -/

/-- `os << number`. -/
def decimal (n : Int) : List Char :=
  if n < 0 then '-' :: Nat.toDigits 10 n.natAbs else Nat.toDigits 10 n.natAbs

theorem numeral_decimal (n : Int) : Numeral (decimal n) n := by
  have hne : Nat.toDigits 10 n.natAbs ≠ [] := Nat.toDigits_ne_nil
  have hall : ∀ c ∈ Nat.toDigits 10 n.natAbs, c.isDigit = true := fun c hc =>
    Nat.isDigit_of_mem_toDigits (by decide) (by decide) hc
  have hvalue : (Nat.ofDigitChars 10 (Nat.toDigits 10 n.natAbs) 0 : Int) = n.natAbs := by
    rw [Nat.ofDigitChars_ten_toDigits]
  unfold decimal
  split
  case isTrue hneg =>
    have hminus := Numeral.minus hne hall
    rwa [number, if_pos rfl, hvalue, ← Int.eq_neg_natAbs_of_nonpos (Int.le_of_lt hneg)] at hminus
  case isFalse hpos =>
    have hunsigned := Numeral.unsigned hne hall
    rwa [number, if_neg Bool.false_ne_true, hvalue, Int.natAbs_of_nonneg (Int.not_lt.mp hpos)]
      at hunsigned

/-! ## Several numbers -/

/-- Numbers one after the other, each up to where its digits end. -/
inductive Listing : List Char → List Int → Prop
  | nil {w : List Char} (hw : Blank w) : Listing w []
  | cons {w digits rest : List Char} {n : Int} {ns : List Int} (hw : Blank w)
      (hdigits : Numeral digits n) (hrest : NoDigit rest) (h : Listing rest ns) :
      Listing (w ++ (digits ++ rest)) (n :: ns)

theorem Listing.blank {w text : List Char} {ns : List Int} (hw : Blank w) (h : Listing text ns) :
    Listing (w ++ text) ns := by
  have hboth : ∀ {w'}, Blank w' → Blank (w ++ w') := fun hw' c hc =>
    (List.mem_append.mp hc).elim (hw c) (hw' c)
  cases h with
  | nil hw' => exact .nil (hboth hw')
  | cons hw' hdigits hrest h =>
      rw [← List.append_assoc]
      exact .cons (hboth hw') hdigits hrest h

/-- What follows the numbers already read. -/
def Follows (is : IStream) (text : List Char) : Prop :=
  is = .of text ∨ text = [] ∧ is = ⟨[], true, false⟩

theorem follows_rest (rest : List Char) : Follows ⟨rest, rest.isEmpty, false⟩ rest := by
  cases rest with
  | nil => exact .inr ⟨rfl, rfl⟩
  | cons => exact .inl rfl

section Extract

variable {ns : List Int} {x : Extraction α}

theorem extract_nil (h : Listing text []) (his : Follows is text) :
    ∃ is', (skipWs >>= fun _ => x) is = (none, is') := by
  cases h with
  | nil hw =>
      rcases his with rfl | ⟨-, rfl⟩
      · exact ⟨.ended, bind_of_none _ (skipWs_end hw)⟩
      · exact ⟨_, rfl⟩

/-- What the digits give up to which blanks are skipped. -/
theorem extract_cons (h : Listing text (n :: ns)) (his : Follows is text) :
    ∃ digits rest, Numeral digits n ∧ NoDigit rest ∧ Listing rest ns ∧ rest.length < text.length ∧
      (skipWs >>= fun _ => x) is = x (.of (digits ++ rest)) := by
  cases h with
  | @cons w digits rest _ _ hw hdigits hrest h =>
      obtain ⟨c, digits', rfl, hc⟩ := hdigits.head
      refine ⟨c :: digits', rest, hdigits, hrest, h, ?_, ?_⟩
      · simp only [List.length_append, List.length_cons]
        omega
      · rcases his with rfl | ⟨hnil, -⟩
        · exact bind_of_some (skipWs_blank hw hc)
        · simp at hnil

theorem getUnsigned_cons (h : Listing text (n :: ns)) (hn : n.natAbs < 2 ^ 32)
    (his : Follows is text) : ∃ is' rest, getUnsigned is = (some (UInt32.ofInt n), is') ∧
      Follows is' rest ∧ Listing rest ns ∧ rest.length < text.length := by
  obtain ⟨digits, rest, hdigits, hrest, hns, hless, hget⟩ := extract_cons h his
  exact ⟨_, rest, hget.trans (getUnsignedDigits_numeral hdigits hn hrest), follows_rest rest, hns,
    hless⟩

/-- A number that is too large is not extracted. -/
theorem getUnsigned_overflow (h : Listing text (n :: ns)) (hn : 2 ^ 32 ≤ n.natAbs)
    (his : Follows is text) : ∃ is', getUnsigned is = (none, is') := by
  obtain ⟨digits, rest, hdigits, hrest, -, -, hget⟩ := extract_cons h his
  exact ⟨_, hget.trans (getUnsignedDigits_overflow hdigits hn hrest)⟩

theorem getInt_cons (h : Listing text (n :: ns)) (hlow : -2 ^ 31 ≤ n) (hhigh : n < 2 ^ 31)
    (his : Follows is text) : ∃ is' rest, getInt is = (some (Int32.ofInt n), is') ∧
      Follows is' rest ∧ Listing rest ns ∧ rest.length < text.length := by
  obtain ⟨digits, rest, hdigits, hrest, hns, hless, hget⟩ := extract_cons h his
  exact ⟨_, rest, hget.trans (getDigits_numeral hdigits hlow hhigh hrest), follows_rest rest, hns,
    hless⟩

theorem getInt_overflow (h : Listing text (n :: ns)) (hn : ¬(-2 ^ 31 ≤ n ∧ n < 2 ^ 31))
    (his : Follows is text) : ∃ is', getInt is = (none, is') := by
  obtain ⟨digits, rest, hdigits, hrest, -, -, hget⟩ := extract_cons h his
  exact ⟨_, hget.trans (getDigits_overflow hdigits hn hrest)⟩

end Extract

end Extraction

end MoreCpp.Library
