import MoreCpp.Library.CharStream
import Mathlib.Data.List.Basic

/-!
`Entry` of `atorus/inout.cpp`, with its `operator<<` and `operator>>`, and `read_ints` with a
terminator.
-/

namespace MoreCpp

open Library Extraction

namespace Inout

structure Entry where
  name : List Char
  number : Int32
deriving DecidableEq

/-- The characters that `operator<<` writes. -/
def writeEntry (e : Entry) : List Char :=
  ['{', '"'] ++ e.name ++ ['"', ',', ' '] ++ decimal e.number.toInt ++ ['}']

/-- The conditions of `operator>>`, and the loop over the name, one after the other. -/
def extractEntry : Extraction Entry := do
  eat '{'
  eat '"'
  let name ← getUntil '"'
  eat ','
  let number ← getInt
  eat '}'
  return ⟨name, number⟩

/-- `operator>>`: where a condition does not hold, `e` is left as it is. -/
def readEntry (is : IStream) (e : Entry) : IStream × Entry :=
  match extractEntry is with
  | (some e', is) => (is, e')
  | (none, is) => (is.setFail, e)

/-- `for (; is >> e;) res.push_back(e)`, for so many entries at most. -/
def readUpTo : Nat → IStream → Entry → List Entry
  | 0, _, _ => []
  | fuel + 1, is, e =>
      let (is, e) := readEntry is e
      if is.failbit then [] else e :: readUpTo fuel is e

def readAll (is : IStream) (e : Entry) : List Entry := readUpTo (is.rest.length + 1) is e

/-- The text of an entry, with `gap` between the comma and the number. -/
def Layout (gap text : List Char) (e : Entry) (rest : List Char) : Prop :=
  ∃ w₁ w₂ w₃ w₄ digits, Blank w₁ ∧ Blank w₂ ∧ '"' ∉ e.name ∧ Blank w₃ ∧
    Numeral digits e.number.toInt ∧ Blank w₄ ∧
    text = w₁ ++ '{' :: (w₂ ++ '"' :: (e.name ++ '"' :: (w₃ ++ ',' ::
      (gap ++ (digits ++ (w₄ ++ '}' :: rest))))))

/-- The texts that begin with an entry. -/
def Form (text : List Char) (e : Entry) (rest : List Char) : Prop :=
  ∃ gap, Blank gap ∧ Layout gap text e rest

variable {is is' : IStream} {text rest : List Char} {e e₀ : Entry} {es : List Entry}

theorem extractEntry_eq_some : extractEntry is = (some e, is') ↔
    ∃ text rest, Form text e rest ∧ is = .of text ∧ is' = .of rest := by
  have hspace : isSpace '{' = false ∧ isSpace '"' = false ∧ isSpace ',' = false ∧
      isSpace '}' = false := by decide
  obtain ⟨hopen, hquote, hcomma, hclose⟩ := hspace
  simp only [extractEntry, bind_eq_some, eat_eq_some hopen, eat_eq_some hquote,
    eat_eq_some hcomma, eat_eq_some hclose, getUntil_eq_some, getInt_eq_some, pure_eq_some]
  constructor
  · rintro ⟨-, _, ⟨w₁, t₁, hw₁, rfl, rfl⟩, -, _, ⟨w₂, t₂, hw₂, ht₁, rfl⟩, name, _,
      ⟨t₃, hname, ht₂, rfl⟩, -, _, ⟨w₃, t₄, hw₃, ht₃, rfl⟩, number, _,
      ⟨gap, digits, t₅, hgap, hnumeral, hrest, ht₄, rfl⟩, -, _, ⟨w₄, t₆, hw₄, ht₅, rfl⟩, rfl, rfl⟩
    cases ht₁
    cases ht₂
    cases ht₃
    cases ht₄
    obtain rfl : t₅ = w₄ ++ '}' :: t₆ := congrArg IStream.rest ht₅
    exact ⟨_, t₆, ⟨gap, hgap, w₁, w₂, w₃, w₄, digits, hw₁, hw₂, hname, hw₃, hnumeral, hw₄, rfl⟩,
      rfl, rfl⟩
  · rintro ⟨_, rest, ⟨gap, hgap, w₁, w₂, w₃, w₄, digits, hw₁, hw₂, hname, hw₃, hnumeral, hw₄, rfl⟩,
      rfl, rfl⟩
    have hstate : (⟨w₄ ++ '}' :: rest, (w₄ ++ '}' :: rest).isEmpty, false⟩ : IStream) =
        .of (w₄ ++ '}' :: rest) := by cases w₄ <;> rfl
    exact ⟨(), _, ⟨w₁, _, hw₁, rfl, rfl⟩, (), _, ⟨w₂, _, hw₂, rfl, rfl⟩, e.name, _,
      ⟨_, hname, rfl, rfl⟩, (), _, ⟨w₃, _, hw₃, rfl, rfl⟩, e.number, _,
      ⟨gap, digits, _, hgap, hnumeral, noDigit_blank hw₄ (by decide), rfl, rfl⟩, (), _,
      ⟨w₄, rest, hw₄, hstate, rfl⟩, rfl, rfl⟩

theorem extractEntry_of : extractEntry (.of text) = (some e, is') ↔
    ∃ rest, Form text e rest ∧ is' = .of rest := by
  rw [extractEntry_eq_some]
  constructor
  · rintro ⟨text', rest, hform, htext, his'⟩
    obtain rfl : text = text' := congrArg IStream.rest htext
    exact ⟨rest, hform, his'⟩
  · rintro ⟨rest, hform, his'⟩
    exact ⟨text, rest, hform, rfl, his'⟩

/-- Either an entry is read, or the stream has failed and `e` is as it was. -/
theorem readEntry_cases (text : List Char) (e₀ : Entry) :
    (∃ e rest, Form text e rest ∧ readEntry (.of text) e₀ = (.of rest, e)) ∨
      (∀ e rest, ¬Form text e rest) ∧
        ∃ is, is.failbit = true ∧ readEntry (.of text) e₀ = (is, e₀) := by
  unfold readEntry
  cases hread : extractEntry (.of text) with
  | mk result is =>
      cases result with
      | none =>
          refine .inr ⟨fun e rest hform => ?_, is.setFail, rfl, rfl⟩
          cases hread.symm.trans (extractEntry_of.mpr ⟨rest, hform, rfl⟩)
      | some e =>
          obtain ⟨rest, hform, rfl⟩ := extractEntry_of.mp hread
          exact .inl ⟨e, rest, hform, rfl⟩

theorem readEntry_of (h : Form text e rest) : readEntry (.of text) e₀ = (.of rest, e) := by
  rw [readEntry, extractEntry_of.mpr ⟨rest, h, rfl⟩]

/-- An entry is read if and only if the text begins with one; otherwise the stream has failed
and `e` is as it was. -/
theorem readEntry_iff (text : List Char) (e₀ : Entry) :
    (∀ e rest, readEntry (.of text) e₀ = (.of rest, e) ↔ Form text e rest) ∧
      ((∀ e rest, ¬Form text e rest) →
        ∃ is, is.failbit = true ∧ readEntry (.of text) e₀ = (is, e₀)) := by
  refine ⟨fun e rest => ⟨fun hread => ?_, readEntry_of⟩, fun hno => ?_⟩
  · obtain ⟨e', rest', hform, hread'⟩ | ⟨-, is, hfail, hread'⟩ := readEntry_cases text e₀
    · cases hread.symm.trans hread'
      exact hform
    · cases hread.symm.trans hread'
      cases hfail
  · obtain ⟨e, rest, hform, -⟩ | ⟨-, hfailed⟩ := readEntry_cases text e₀
    · exact absurd hform (hno e rest)
    · exact hfailed

/-- The blank that `operator<<` writes before the number is read as well. -/
theorem readEntry_blank :
    readEntry (.of ['{', '"', 'a', '"', ',', ' ', '5', '}']) ⟨[], 0⟩ = (.of [], ⟨['a'], 5⟩) ∧
      ¬∃ e rest, Layout [] ['{', '"', 'a', '"', ',', ' ', '5', '}'] e rest := by
  refine ⟨by decide, ?_⟩
  rintro ⟨e, rest, w₁, w₂, w₃, w₄, digits, -, -, -, -, hnumeral, -, htext⟩
  have hcomma : ['{', '"', 'a', '"'] ++ ',' :: [' ', '5', '}'] =
      (w₁ ++ '{' :: (w₂ ++ '"' :: (e.name ++ '"' :: w₃))) ++
        ',' :: (digits ++ (w₄ ++ '}' :: rest)) := by
    simpa using htext
  obtain ⟨c, digits', rfl, hc⟩ := hnumeral.head
  obtain ⟨-, -, hnumber⟩ := (List.append_cons_inj_of_notMem (by decide) (by decide)).mp hcomma
  obtain rfl : ' ' = c := (List.cons.inj hnumber).1
  cases hc

/-! ## Writing and reading back -/

theorem form_writeEntry (hname : '"' ∉ e.name) (rest : List Char) :
    Form (writeEntry e ++ rest) e rest := by
  have hnone : Blank [] := fun c hc => absurd hc List.not_mem_nil
  have hgap : Blank [' '] := List.forall_mem_singleton.mpr rfl
  refine ⟨[' '], hgap, [], [], [], [], _, hnone, hnone, hname, hnone,
    numeral_decimal e.number.toInt, hnone, ?_⟩
  simp [writeEntry]

theorem not_mem_of_form (h : Form text e rest) : '"' ∉ e.name := by
  obtain ⟨-, -, -, -, -, -, -, -, -, hname, -⟩ := h
  exact hname

theorem readEntry_writeEntry (hname : '"' ∉ e.name) (rest : List Char) (e₀ : Entry) :
    readEntry (.of (writeEntry e ++ rest)) e₀ = (.of rest, e) :=
  readEntry_of (form_writeEntry hname rest)

theorem not_mem_of_readEntry (hread : readEntry is e₀ = (is', e)) (hok : is'.failbit = false) :
    '"' ∉ e.name := by
  unfold readEntry at hread
  split at hread
  case h_1 e' mid hextract =>
    cases hread
    obtain ⟨text, rest, hform, -⟩ := extractEntry_eq_some.mp hextract
    exact not_mem_of_form hform
  case h_2 mid hextract =>
    cases hread
    cases hok

/-- No name that is read has a quote in it. -/
theorem not_mem_of_readUpTo {fuel : Nat} (he : e ∈ readUpTo fuel is e₀) : '"' ∉ e.name := by
  induction fuel generalizing is e₀ with
  | zero => exact absurd he List.not_mem_nil
  | succ fuel ih =>
      rw [readUpTo] at he
      cases hread : readEntry is e₀ with
      | mk is' e' =>
          simp only [hread] at he
          cases hfail : is'.failbit with
          | true =>
              rw [if_pos hfail] at he
              exact absurd he List.not_mem_nil
          | false =>
              rw [if_neg (by rw [hfail]; decide)] at he
              obtain rfl | he := List.mem_cons.mp he
              · exact not_mem_of_readEntry hread hfail
              · exact ih he

theorem readUpTo_end (fuel : Nat) (e₀ : Entry) : readUpTo fuel (.of []) e₀ = [] := by
  cases fuel with
  | zero => rfl
  | succ fuel => rfl

/-- One entry is read after the other. -/
theorem readUpTo_writeEntry {fuel : Nat} (hnames : ∀ e ∈ es, '"' ∉ e.name)
    (hfuel : es.length ≤ fuel) : readUpTo fuel (.of (es.flatMap writeEntry)) e₀ = es := by
  induction es generalizing fuel e₀ with
  | nil => exact readUpTo_end fuel e₀
  | cons e es ih =>
      obtain ⟨hname, hnames⟩ := List.forall_mem_cons.mp hnames
      obtain ⟨fuel, rfl⟩ := Nat.exists_eq_add_of_le' (Nat.one_le_of_lt hfuel)
      rw [List.flatMap_cons, readUpTo, readEntry_writeEntry hname]
      exact congrArg (e :: ·) (ih hnames (Nat.le_of_succ_le_succ hfuel))

theorem length_le_flatMap (es : List Entry) : es.length ≤ (es.flatMap writeEntry).length := by
  induction es with
  | nil => exact Nat.zero_le _
  | cons e es ih =>
      rw [List.flatMap_cons, List.length_append, List.length_cons]
      have hsome : 1 ≤ (writeEntry e).length := by simp [writeEntry]
      omega

/-- An entry is read back, and so are entries written one after the other, if and only if there
is no quote in a name. -/
theorem readEntry_writeEntry_iff :
    (∀ e e₀, (∃ is, is.good = true ∧ readEntry (.of (writeEntry e)) e₀ = (is, e)) ↔
        '"' ∉ e.name) ∧
      ∀ es e₀, readAll (.of (es.flatMap writeEntry)) e₀ = es ↔ ∀ e ∈ es, '"' ∉ e.name := by
  refine ⟨fun e e₀ => ⟨?_, fun hname => ?_⟩, fun es e₀ => ⟨fun hread e he => ?_, fun hnames => ?_⟩⟩
  · rintro ⟨is, hgood, hread⟩
    obtain ⟨rest, rfl⟩ := IStream.exists_of_good hgood
    exact not_mem_of_readEntry hread rfl
  · have hread := readEntry_writeEntry hname [] e₀
    rw [List.append_nil] at hread
    exact ⟨_, rfl, hread⟩
  · rw [← hread] at he
    exact not_mem_of_readUpTo he
  · exact readUpTo_writeEntry hnames (Nat.le_succ_of_le (length_le_flatMap es))

/-- The name `a", 5}`, after which the rest of the text is left. -/
theorem readEntry_quote :
    ∃ rest, readEntry (.of (writeEntry ⟨['a', '"', ',', ' ', '5', '}'], 1⟩)) ⟨[], 0⟩ =
      (.of rest, ⟨['a'], 5⟩) :=
  ⟨_, rfl⟩

/-! ## Numbers up to a terminator -/

/-- `std::cin`, with what has been read of it, the last character first. -/
structure Input where
  past : List Char
  is : IStream
deriving DecidableEq

namespace Input

/-- What is extracted, and the characters that it takes. -/
def extract {α : Type} (x : Extraction α) (i : Input) : Option α × Input :=
  let (a, is) := x i.is
  (a, ⟨(i.is.rest.take (i.is.rest.length - is.rest.length)).reverse ++ i.past, is⟩)

/-- `is.clear()`. -/
def clear (i : Input) : Input := { i with is := .of i.is.rest }

/-- `is.unget()`. Where there is nothing to put back, `badbit` is set, for which `failbit`
stands. -/
def unget (i : Input) : Input :=
  match i.past with
  | c :: past => ⟨past, { i.is with rest := c :: i.is.rest }⟩
  | [] => { i with is := i.is.setFail }

def setFail (i : Input) : Input := { i with is := i.is.setFail }

theorem failed (i : Input) : i.setFail.is.failbit ≠ false :=
  fun h => Bool.false_ne_true h.symm

end Input

/-- `for (int i; is>>i;) res.push_back(i)`, with fuel for so many characters. -/
def readIntsLoop : Nat → List Int32 → Input → List Int32 × Input
  | 0, res, i => (res, i)
  | fuel + 1, res, i =>
      match i.extract getInt with
      | (none, i') => (res, i')
      | (some n, i') => readIntsLoop fuel (res ++ [n]) i'

/-- What comes after the loop. -/
def readTerminator (terminator : List Char) (res : List Int32) (i : Input) : List Int32 × Input :=
  if i.is.eofbit then (res, i)
  else if i.is.failbit then
    match i.clear.unget.extract getString with
    | (some s, i') => if s = terminator then (res, i') else (res, i'.setFail)
    | (none, i') => (res, i'.setFail)
  else (res, i)

/-- `read_ints` with a terminator, where `is` is `std::cin`. -/
def readInts (terminator : List Char) (i : Input) : List Int32 × Input :=
  let (res, i) := readIntsLoop (i.is.rest.length + 1) [] i
  readTerminator terminator res i

/-- Numbers one after the other, up to where the rest begins. -/
inductive UpTo (rest : List Char) : List Char → List Int32 → Prop
  | nil {w : List Char} (hw : Blank w) : UpTo rest (w ++ rest) []
  | cons {w digits text : List Char} {n : Int32} {ns : List Int32} (hw : Blank w)
      (hdigits : Numeral digits n.toInt) (htext : NoDigit text) (h : UpTo rest text ns) :
      UpTo rest (w ++ (digits ++ text)) (n :: ns)

/-- No number begins here, and it is not blank. -/
structure Stops (rest : List Char) : Prop where
  ne : rest ≠ []
  solid : ∀ c ∈ rest.head?, isSpace c = false
  noDigit : NoDigit rest
  unsigned : ∀ c ∈ rest.head?, c ≠ '-' ∧ c ≠ '+'

variable {before terminator : List Char} {ns : List Int32}

theorem getInt_stops {w : List Char} (hw : Blank w) (hrest : Stops rest) :
    getInt (.of (w ++ rest)) = (none, ⟨rest, false, true⟩) := by
  obtain ⟨c, t, rfl⟩ := List.exists_cons_of_ne_nil hrest.ne
  have hdigit : c.isDigit = false := hrest.noDigit c rfl
  obtain ⟨hminus, hplus⟩ := hrest.unsigned c rfl
  have hsign : sign (c :: t) = (false, c :: t) := by
    rw [sign]
    · exact fun _ heq => hminus (List.cons.inj heq).1
    · exact fun _ heq => hplus (List.cons.inj heq).1
  refine (bind_of_some (skipWs_blank hw (hrest.solid c rfl))).trans ?_
  simp [getDigits, IStream.of, hsign, hdigit]

/-- The last character of a number is a digit. -/
theorem last_digit {digits : List Char} {n : Int} (h : Numeral digits n) :
    ∃ ds c, digits = ds ++ [c] ∧ c.isDigit = true := by
  have hlast : ∀ ds : List Char, ds ≠ [] → (∀ c ∈ ds, c.isDigit = true) →
      ∃ ds' c, ds = ds' ++ [c] ∧ c.isDigit = true := fun ds hne hall =>
    ⟨ds.dropLast, ds.getLast hne, (List.dropLast_append_getLast hne).symm,
      hall _ (List.getLast_mem hne)⟩
  cases h with
  | unsigned hne hall => exact hlast _ hne hall
  | plus hne hall =>
      obtain ⟨ds, c, rfl, hc⟩ := hlast _ hne hall
      exact ⟨'+' :: ds, c, rfl, hc⟩
  | minus hne hall =>
      obtain ⟨ds, c, rfl, hc⟩ := hlast _ hne hall
      exact ⟨'-' :: ds, c, rfl, hc⟩

theorem extract_of {α : Type} {x : Extraction α} {a : Option α} {is' : IStream}
    (before past : List Char) (hx : x is = (a, is')) (hrest : is.rest = before ++ is'.rest) :
    Input.extract x ⟨past, is⟩ = (a, ⟨before.reverse ++ past, is'⟩) := by
  have hlength : is.rest.length - is'.rest.length = before.length := by
    rw [hrest, List.length_append, Nat.add_sub_cancel]
  simp only [Input.extract, hx, hlength]
  rw [hrest, List.take_left]

/-- Nothing was read, or the last character was a blank or a digit. -/
def Ends (before : List Char) : Prop :=
  before = [] ∨ ∃ b c, before = b ++ [c] ∧ (isSpace c = true ∨ c.isDigit = true)

theorem ends_blank (hw : Blank before) : Ends before := by
  rcases List.eq_nil_or_concat before with hnil | ⟨b, c, heq⟩
  · exact .inl hnil
  · rw [List.concat_eq_append] at heq
    exact .inr ⟨b, c, heq, .inl (hw c (by rw [heq]; exact List.mem_append_right b (by simp)))⟩

theorem readIntsLoop_spec {fuel : Nat} (res : List Int32) (past : List Char) (h : UpTo rest text ns)
    (hrest : Stops rest) (his : Follows is text) (hfuel : text.length < fuel) :
    ∃ before, text = before ++ rest ∧ Ends before ∧
      readIntsLoop fuel res ⟨past, is⟩ =
        (res ++ ns, ⟨before.reverse ++ past, ⟨rest, false, true⟩⟩) := by
  induction h generalizing fuel res past is with
  | @nil w hw =>
      obtain ⟨fuel, rfl⟩ := Nat.exists_eq_succ_of_ne_zero (Nat.ne_zero_of_lt hfuel)
      have his' : is = .of (w ++ rest) := his.resolve_right fun hend =>
        hrest.ne (List.append_eq_nil_iff.mp hend.1).2
      have hread := extract_of w past (getInt_stops hw hrest) rfl
      refine ⟨w, rfl, ends_blank hw, ?_⟩
      rw [readIntsLoop, his', hread, List.append_nil]
  | @cons w digits text n ns hw hdigits htext h ih =>
      obtain ⟨fuel, rfl⟩ := Nat.exists_eq_succ_of_ne_zero (Nat.ne_zero_of_lt hfuel)
      obtain ⟨ds, d, hlast, hd⟩ := last_digit hdigits
      have his' : is = .of (w ++ (digits ++ text)) := his.resolve_right fun hend => by
        rw [hlast] at hend
        simp at hend
      have hget : getInt is = (some n, ⟨text, text.isEmpty, false⟩) :=
        getInt_eq_some.mpr ⟨w, digits, text, hw, hdigits, htext, his', rfl⟩
      have htaken : is.rest = (w ++ digits) ++ text := by
        rw [his', List.append_assoc]
        rfl
      have hless : text.length < fuel := by
        rw [hlast] at hfuel
        simp only [List.length_append, List.length_singleton] at hfuel
        omega
      obtain ⟨before, rfl, hends, hrun⟩ :=
        ih (res ++ [n]) ((w ++ digits).reverse ++ past) (follows_rest text) hless
      refine ⟨w ++ digits ++ before, by simp, ?_, ?_⟩
      · rcases hends with rfl | ⟨b, c, rfl, hc⟩
        · exact .inr ⟨w ++ ds, d, by simp [hlast], .inr hd⟩
        · exact .inr ⟨w ++ digits ++ b, c, by simp, hc⟩
      · rw [readIntsLoop, extract_of (w ++ digits) past hget htaken]
        simp only [hrun]
        simp

/-- The character before the rest is put back, and the word is read from there. -/
theorem readTerminator_spec (hrest : Stops rest) (hends : Ends before)
    (hterm : NoDigit terminator) :
    ∃ i, readTerminator terminator ns ⟨before.reverse, ⟨rest, false, true⟩⟩ = (ns, i) ∧
      (i.is.failbit = false ↔ firstWord rest = terminator ∧
        ∃ b c, before = b ++ [c] ∧ isSpace c = true) ∧
      (i.is.failbit = false → i.is.rest = afterWord rest) := by
  obtain ⟨d, t, rfl⟩ := List.exists_cons_of_ne_nil hrest.ne
  have hsolid : isSpace d = false := hrest.solid d rfl
  rcases hends with rfl | ⟨b, c, rfl, hc⟩
  · -- There is nothing to put back.
    refine ⟨_, rfl, ⟨fun h => absurd h (Input.failed _), ?_⟩,
      fun h => absurd h (Input.failed _)⟩
    rintro ⟨-, b, c, heq, -⟩
    simp at heq
  · rw [List.reverse_append, List.reverse_singleton, List.singleton_append]
    simp only [readTerminator, Bool.false_eq_true, if_false, if_true, Input.clear, Input.unget,
      IStream.of]
    obtain hspace | hspace := Bool.eq_false_or_eq_true (isSpace c)
    · have hget := @getString_nonblank t [c] d (blank_singleton hspace) hsolid
      have hread := extract_of (c :: firstWord (d :: t)) b.reverse hget
        (congrArg (c :: ·) List.takeWhile_append_dropWhile.symm)
      simp only [IStream.of, List.singleton_append] at hread
      rw [hread]
      by_cases hword : firstWord (d :: t) = terminator
      · exact ⟨_, if_pos hword, ⟨fun _ => ⟨hword, b, c, rfl, hspace⟩, fun _ => rfl⟩, fun _ => rfl⟩
      · exact ⟨_, if_neg hword, ⟨fun h => absurd h (Input.failed _), fun h => absurd h.1 hword⟩,
          fun h => absurd h (Input.failed _)⟩
    · have hdigit : c.isDigit = true := hc.resolve_left (by rw [hspace]; exact Bool.false_ne_true)
      have hget := @getString_nonblank (d :: t) [] c blank_nil hspace
      have hread := extract_of (firstWord (c :: d :: t)) b.reverse hget
        List.takeWhile_append_dropWhile.symm
      simp only [IStream.of, List.nil_append] at hread
      have hword : firstWord (c :: d :: t) ≠ terminator := by
        rintro rfl
        have hhead : (firstWord (c :: d :: t)).head? = some c := by
          simp [firstWord, hspace]
        exact Bool.false_ne_true ((hterm c hhead).symm.trans hdigit)
      rw [hread]
      refine ⟨_, if_neg hword, ⟨fun h => absurd h (Input.failed _), ?_⟩,
        fun h => absurd h (Input.failed _)⟩
      rintro ⟨-, b', c', heq, hspace'⟩
      obtain ⟨-, hlast⟩ := List.append_inj' heq rfl
      cases hlast
      cases hspace.symm.trans hspace'

end Inout

end MoreCpp
