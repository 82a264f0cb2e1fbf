import MoreCpp.Strings.SssString.Model

/-!
What a string holds, apart from where it is, and what the calls make of it.
-/

namespace MoreCpp.SssString

open Library

/-- The cells end where `ch` or the array does, and a terminator is among those up to
the size: the one that was written last, or a character. -/
structure Value where
  size : Nat
  cells : List Cell
  room : if size ≤ shortMax then cells.length = shortMax + 1 else size < cells.length
  terminated : ∃ chars, cString 0 cells = some chars ∧ chars.length ≤ size

/-- The cells after `ptr[n] = c; ptr[n + 1] = 0`. -/
def pushed (cells : List Cell) (n : Nat) (c : UInt8) : List Cell :=
  (cells.set n (some c)).set (n + 1) (some 0)

section Pushed

variable {cells : List Cell} {n i : Nat} {c : UInt8} {chars : List UInt8}

@[simp] theorem pushed_length : (pushed cells n c).length = cells.length := by
  simp [pushed]

theorem pushed_getElem?_of_lt (hi : i < n) : (pushed cells n c)[i]? = cells[i]? := by
  rw [pushed, List.getElem?_set_ne (by omega), List.getElem?_set_ne (by omega)]

theorem pushed_getElem?_self (hn : n < cells.length) : (pushed cells n c)[n]? = some (some c) := by
  rw [pushed, List.getElem?_set_ne (by omega), List.getElem?_set_self hn]

theorem pushed_terminated (h : cString 0 cells = some chars) (hle : chars.length ≤ n)
    (hroom : n + 1 < cells.length) :
    ∃ chars', cString 0 (pushed cells n c) = some chars' ∧ chars'.length ≤ n + 1 := by
  rcases Nat.lt_or_eq_of_le hle with hlt | rfl
  · exact ⟨chars, cString_set (cString_set h hlt) (by omega), by omega⟩
  · refine ⟨_, cString_push h c hroom, ?_⟩
    split
    · exact Nat.le_succ _
    · exact Nat.le_of_eq (List.length_append ..)

end Pushed

namespace Value

variable (v : Value) {chars : List UInt8}

theorem size_lt : v.size < v.cells.length := by
  have hroom := v.room
  split at hroom <;> omega

/-- The cells when one more character is to be stored: those of a new array if there
is no room for it. -/
def grown : List Cell :=
  if v.cells.length = v.size + 1 then strcpyNew 0 (v.size + v.size + 2) v.cells else v.cells

theorem grown_length : v.grown.length =
    if v.cells.length = v.size + 1 then v.size + v.size + 2 else v.cells.length := by
  obtain ⟨chars, hchars, hle⟩ := v.terminated
  rw [grown]
  split
  · exact strcpyNew_length hchars (by omega)
  · rfl

theorem cString_grown (h : cString 0 v.cells = some chars) (hle : chars.length ≤ v.size) :
    cString 0 v.grown = some chars := by
  rw [grown]
  split
  · exact cString_strcpyNew h (by omega)
  · exact h

theorem size_lt_grown : v.size + 1 < v.grown.length := by
  have hsize := v.size_lt
  rw [grown_length]
  split <;> omega

def append (c : UInt8) : Value where
  size := v.size + 1
  cells := pushed v.grown v.size c
  room := by
    have hroom := v.room
    have hgrown := v.size_lt_grown
    have hlength := v.grown_length
    rw [pushed_length]
    split
    · rename_i hsmall
      rw [if_pos (by omega)] at hroom
      rw [hlength, if_neg (by omega), hroom]
    · exact hgrown
  terminated := by
    obtain ⟨chars, hchars, hle⟩ := v.terminated
    exact pushed_terminated (v.cString_grown hchars hle) hle v.size_lt_grown

theorem append_cells_of_full {v : Value} {c : UInt8} (hfull : v.cells.length = v.size + 1) :
    (v.append c).cells = pushed (strcpyNew 0 (v.size + v.size + 2) v.cells) v.size c := by
  show pushed v.grown v.size c = _
  rw [grown, if_pos hfull]

theorem append_cells_of_room {v : Value} {c : UInt8} (hroom : v.cells.length ≠ v.size + 1) :
    (v.append c).cells = pushed v.cells v.size c := by
  show pushed v.grown v.size c = _
  rw [grown, if_neg hroom]

def copied : List Cell :=
  if v.size ≤ shortMax then v.cells else strcpyNew 0 (v.size + 1) v.cells

theorem copied_length : v.copied.length =
    if v.size ≤ shortMax then v.cells.length else v.size + 1 := by
  obtain ⟨chars, hchars, hle⟩ := v.terminated
  rw [copied]
  split
  · rfl
  · exact strcpyNew_length hchars (by omega)

theorem cString_copied (h : cString 0 v.cells = some chars) (hle : chars.length ≤ v.size) :
    cString 0 v.copied = some chars := by
  rw [copied]
  split
  · exact h
  · exact cString_strcpyNew h (by omega)

def copy : Value where
  size := v.size
  cells := v.copied
  room := by
    have hroom := v.room
    rw [copied_length]
    split
    · rename_i hsmall
      rwa [if_pos hsmall] at hroom
    · omega
  terminated := by
    obtain ⟨chars, hchars, hle⟩ := v.terminated
    exact ⟨chars, v.cString_copied hchars hle, hle⟩

def empty : Value where
  size := 0
  cells := noChars.set 0 (some 0)
  room := rfl
  terminated := ⟨[], rfl, Nat.le_refl 0⟩

/-- What is left of a value that is moved. -/
def moved : Value := if v.size ≤ shortMax then v else empty

end Value

/-- What `p` points to. -/
def pointed (p : List UInt8) : List Cell := p.map some ++ [some 0]

theorem cString_pointed (p : List UInt8) :
    cString 0 (pointed p) = some (p.takeWhile (· ≠ 0)) := by
  induction p with
  | nil => rfl
  | cons c p ih =>
      rw [pointed, List.map_cons, List.cons_append, cString, ← pointed, ih, List.takeWhile_cons]
      by_cases hc : c = 0 <;> simp [hc]

namespace Value

def ofCString (p : List UInt8) : Value where
  size := (p.takeWhile (· ≠ 0)).length
  cells :=
    strcpyNew 0 (max (shortMax + 1) ((p.takeWhile (· ≠ 0)).length + 1)) (pointed p)
  room := by
    rw [strcpyNew_length (cString_pointed p) (by omega)]
    split <;> omega
  terminated := ⟨_, cString_strcpyNew (cString_pointed p) (by omega), Nat.le_refl _⟩

/-- The only terminator up to the size is the one after the characters. -/
def Clean (v : Value) : Prop := ∃ chars, cString 0 v.cells = some chars ∧ chars.length = v.size

theorem Clean.terminator {v : Value} (h : v.Clean) : v.cells[v.size]? = some (some 0) := by
  obtain ⟨chars, hchars, hsize⟩ := h
  rw [← hsize]
  exact cString_terminator hchars

theorem clean_empty : Clean empty := ⟨[], rfl, rfl⟩

theorem clean_ofCString (p : List UInt8) : (ofCString p).Clean :=
  ⟨_, cString_strcpyNew (cString_pointed p) (by omega), rfl⟩

theorem Clean.copy {v : Value} (h : v.Clean) : v.copy.Clean := by
  obtain ⟨chars, hchars, hsize⟩ := h
  exact ⟨chars, v.cString_copied hchars (Nat.le_of_eq hsize), hsize⟩

theorem Clean.moved {v : Value} (h : v.Clean) : v.moved.Clean := by
  rw [Value.moved]
  split
  · exact h
  · exact clean_empty

theorem Clean.append {v : Value} (h : v.Clean) {c : UInt8} (hc : c ≠ 0) : (v.append c).Clean := by
  obtain ⟨chars, hchars, hsize⟩ := h
  have hroom := v.size_lt_grown
  rw [← hsize] at hroom
  have hpush := cString_push (v.cString_grown hchars (Nat.le_of_eq hsize)) c hroom
  rw [if_neg hc, hsize] at hpush
  refine ⟨chars ++ [c], hpush, ?_⟩
  rw [List.length_append, List.length_singleton, hsize, Value.append]

end Value

abbrev Values := Nat → Option Value

namespace Values

variable (values : Values)

def copy (self x : Nat) : Values := Function.update values self ((values x).map Value.copy)

def move (self x : Nat) : Values :=
  Function.update (Function.update values x ((values x).map Value.moved)) self (values x)

/-- What a call means for the values. -/
def apply : Op → Values
  | .default self => Function.update values self (some .empty)
  | .fromCString self p => Function.update values self (some (.ofCString p))
  | .copy self x => values.copy self x
  | .move self x => values.move self x
  | .copyAssign self x => if self = x then values else values.copy self x
  | .moveAssign self x => if self = x then values else values.move self x
  | .append self c => Function.update values self ((values self).map (·.append c))
  | .destroy self => Function.update values self none

end Values

end MoreCpp.SssString
