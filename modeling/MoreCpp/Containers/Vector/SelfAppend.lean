import MoreCpp.Containers.Vector.Append

/-!
Appending an element of a `learning::Vector` to the vector itself. The new element is
constructed before the old ones are relocated, so that it has the value the element
had, also when the vector has to grow.
-/

namespace MoreCpp.Vector

open Library

variable {V : Type*}

/-- Copying and moving make the value of their source, unless they throw. Copying leaves
the source as it is, and moving leaves it moved from. -/
structure Element.KeepsValues (T : Element V) (movedFrom : V → V) : Prop where
  copy_value : ∀ time v made, (T.copy time v).1 = some made → made = v
  copy_source : ∀ time v, (T.copy time v).2 = v
  move_value : ∀ time v made, (T.move time v).1 = some made → made = v
  move_source : ∀ time v made, (T.move time v).1 = some made → (T.move time v).2 = movedFrom v

theorem Element.KeepsValues.relocate_value {T : Element V} {movedFrom : V → V}
    (h : T.KeepsValues movedFrom) {time : Nat} {v made : V}
    (hmade : (T.relocate time v).1 = some made) : made = v := by
  unfold Element.relocate at hmade
  split at hmade
  · exact h.copy_value time v made hmade
  · exact h.move_value time v made hmade

namespace State

open Memory

variable {A : Allocator} {T : Element V} {s s' : State V} {movedFrom : V → V} {i : Nat} {v : V}

theorem Valid.contents_length (h : s.Valid A) : s.contents.length = s.size :=
  length_elements h.element?_isSome

theorem Valid.getElem?_contents (h : s.Valid A) {j : Nat} (hj : j < s.size) :
    s.contents[j]? = s.memory.element? s.data j :=
  getElem?_elements h.element?_isSome hj

/-- A vector with one element more, by the values in its slots. -/
theorem Valid.contents_append (h : s.Valid A) (h' : s'.Valid A) (hi : i < s.size) {left : V}
    (hsize : s'.size = s.size + 1)
    (hself : s'.memory.element? s'.data i = some left)
    (hothers : ∀ j < s.size, j ≠ i →
      s'.memory.element? s'.data j = s.memory.element? s.data j)
    (hlast : s'.memory.element? s'.data s.size = some v) :
    s'.contents = s.contents.set i left ++ [v] := by
  have hlength := h.contents_length
  have hlength' := h'.contents_length
  apply List.ext_getElem?
  intro j
  rcases Nat.lt_trichotomy j s.size with hj | rfl | hj
  · rw [List.getElem?_append_left (by simpa [hlength] using hj),
      h'.getElem?_contents (by omega)]
    rcases eq_or_ne j i with rfl | hne
    · rw [hself, List.getElem?_set_self (by omega)]
    · rw [hothers j hj hne, List.getElem?_set_ne (Ne.symm hne), h.getElem?_contents hj]
  · rw [h'.getElem?_contents (by omega), hlast,
      List.getElem?_append_right (by simp [hlength])]
    simp [hlength]
  · rw [List.getElem?_eq_none (by omega), List.getElem?_eq_none]
    simp only [List.length_append, List.length_set, List.length_singleton]
    omega

/-- What constructing from an element of the vector is handed. -/
theorem from_own {construction : Nat → V → Option V × V} {time : Nat} {elements : List V}
    (hv : elements[i]? = some v) :
    (Reference.own i).from construction time elements = ((construction time v).1,
      fun j w => if j = i then (construction time v).2 else w) := by
  simp only [Reference.from, hv]

theorem Valid.emplaceBack_own (h : s.Valid A) (hvalues : T.KeepsValues movedFrom)
    (hv : s.contents[i]? = some v) {construction : Nat → V → Option V × V} {left : V}
    (hleft : ∀ time made, (construction time v).1 = some made →
      made = v ∧ (construction time v).2 = left)
    {position : Nat} (hok : s.emplaceBack A T ((Reference.own i).from construction) =
      (.ok position, s')) :
    s'.contents = s.contents.set i left ++ [v] := by
  have hi : i < s.size := by
    rw [← h.contents_length]
    exact (List.getElem?_eq_some_iff.mp hv).1
  have hown : s.memory.element? s.data i = some v := (h.getElem?_contents hi).symm.trans hv
  have h' : s'.Valid A := by
    have hvalid := h.emplaceBack T ((Reference.own i).from construction)
    rwa [hok] at hvalid
  have hends : Appends A T ((Reference.own i).from construction) s (.ok position, s') :=
    hok ▸ h.emplaceBack_cases T _
  cases hends with
  | inPlace m hroom hmade =>
      obtain ⟨block, hblock⟩ := h.data_of_pos (by omega)
      rw [hblock] at hmade hown
      obtain ⟨value, change, hargs, hm⟩ := constructFrom_true hmade
      rw [← hblock, ← contents, from_own hv] at hargs
      obtain ⟨hsome, rfl⟩ := Prod.mk.inj hargs
      obtain ⟨rfl, hsource⟩ := hleft _ _ hsome
      rw [hsource] at hm
      have hbelow : ∀ j < s.size, m.element? (some block) j = (s.memory.touch (some block) s.size
          fun j w => if j = i then left else w).element? (some block) j := fun j hj =>
        hm ▸ element?_of_slots (Storage.construct_slots_of_ne (below_ne_last hj))
      apply h.contents_append h' hi rfl
      · change m.element? s.data i = some left
        rw [hblock, hbelow i hi, element?_touch hi, hown]
        simp
      · intro j hj hne
        change m.element? s.data j = s.memory.element? s.data j
        rw [hblock, hbelow j hj, element?_touch_of_ne hne]
      · change m.element? s.data s.size = some value
        rw [hblock, hm]
        simp [element?, Storage.value?, h.construct_end hblock hroom]
  | grown target m m' m'' hfull hlimit hslots hobjects hbeside hmade hbeside' hrelocated =>
      have hne := hbeside.target_ne
      have hroom := grownCapacity_gt h.capacity_le hlimit
      have hsame : m.element? s.data = s.memory.element? s.data := element?_congr hslots s.data
      obtain ⟨value, change, hargs, hm'⟩ := constructFrom_true hmade
      rw [elements_congr hslots, ← contents, from_own hv] at hargs
      obtain ⟨hsome, rfl⟩ := Prod.mk.inj hargs
      obtain ⟨rfl, hsource⟩ := hleft _ _ hsome
      rw [hsource] at hm'
      have hlast : m'.element? (some target) s.size = some value :=
        hm' ▸ element?_construct_self _ _ _ hne hbeside.blocks_target (by omega)
          (hbeside.slots_target not_false)
      have hdata : ∀ j, m'.element? s.data j = (m.touch s.data s.size fun j w =>
          if j = i then left else w).element? s.data j := fun j =>
        hm' ▸ element?_construct_of_ne _ _ _ hne
      obtain ⟨-, hmoved, hothers⟩ := relocate_true hne hbeside'.blocks_target (by omega)
        (fun j _ hj => hbeside'.slots_target (below_ne_last (by omega))) hrelocated
      -- The relocated elements have the values that the old ones had after the construction.
      have hkept : ∀ j, (({ s with memory := m'' } : State V).install target (s.size + 1)
          (grownCapacity A s.capacity)).memory.element? (some target) j =
            m''.element? (some target) j :=
        (install_kept (s := { s with memory := m'' }) hne _ _).1
      have hnew : ∀ j < s.size, (({ s with memory := m'' } : State V).install target (s.size + 1)
          (grownCapacity A s.capacity)).memory.element? (some target) j =
            (m.touch s.data s.size fun j w => if j = i then left else w).element? s.data j := by
        intro j hj
        obtain ⟨time, old, made, hold, hmade, hnew⟩ := hmoved j (Nat.zero_le j) (by omega)
        obtain rfl := hvalues.relocate_value hmade
        rw [hkept, hnew, ← hold, hdata]
      apply h.contents_append h' hi rfl
      · refine (hnew i hi).trans ?_
        rw [element?_touch hi, hsame, hown]
        simp
      · intro j hj hji
        refine (hnew j hj).trans ?_
        rw [element?_touch_of_ne hji, hsame]
      · refine (hkept s.size).trans ?_
        rw [hothers s.size (.inr (by omega)), hlast]

/-- A call of `push_back` or `emplace_back` returns unless it is hindered, and leaves the
given elements when it returns. -/
def AppendLeaves (A : Allocator) (T : Element V) (s : State V) (op : Op V) (left : List V) :
    Prop :=
  ∃ args, op.arguments T = some args ∧
    (¬ s.Hindered A T args → (s.perform A T op).1 = .ok ()) ∧
    ((s.perform A T op).1 = .ok () → (s.perform A T op).2.contents = left)

theorem Valid.appendLeaves (h : s.Valid A) (hvalues : T.KeepsValues movedFrom)
    (hv : s.contents[i]? = some v) {construction : Nat → V → Option V × V} {left : V}
    (hleft : ∀ time made, (construction time v).1 = some made →
      made = v ∧ (construction time v).2 = left) {op : Op V}
    (hargs : op.arguments T = some ((Reference.own i).from construction))
    (hop : s.perform A T op = (s.emplaceBack A T ((Reference.own i).from construction)).map
      (·.map fun _ => ()) id) :
    AppendLeaves A T s op (s.contents.set i left ++ [v]) := by
  refine ⟨_, hargs, fun hfree => ?_, fun hok => ?_⟩
  · have hends := h.emplaceBack_cases T ((Reference.own i).from construction)
    rw [hop]
    generalize s.emplaceBack A T ((Reference.own i).from construction) = result at hends
    cases hends with
    | inPlace => rfl
    | grown => rfl
    | limited hfull hlimit => exact absurd (.inr ⟨hfull, .inl hlimit⟩) hfree
    | threw _ _ _ hwhy => exact absurd hwhy hfree
  · rw [hop] at hok ⊢
    generalize hrun : s.emplaceBack A T ((Reference.own i).from construction) = result at hok
    obtain ⟨position | position, s'⟩ := result
    · cases hok
    · exact h.emplaceBack_own hvalues hv hleft hrun

/-- Whatever a vector has been through, appending an element of its own by copying
appends the value of the element, and appending it by moving leaves the element moved
from, whether or not the vector grows and however it relocates. -/
theorem append_own (A : Allocator) (T : Element V) (hvalues : T.KeepsValues movedFrom)
    (initialCapacity time : Nat) (hmade : (make A initialCapacity ⟨.empty V, time⟩).1 = .ok ())
    (history : List (Op V))
    (hs : (make A initialCapacity ⟨.empty V, time⟩).2.run A T history = s)
    (hv : s.contents[i]? = some v) :
    AppendLeaves A T s (.pushBackCopy (.own i)) (s.contents ++ [v]) ∧
    AppendLeaves A T s (.emplaceBack ((Reference.own i).from T.copy)) (s.contents ++ [v]) ∧
    AppendLeaves A T s (.pushBackMove (.own i)) (s.contents.set i (movedFrom v) ++ [v]) := by
  have h : s.Valid A := by
    rcases make_cases (V := V) A initialCapacity time with ⟨-, hvalid⟩ | ⟨herror, -⟩
    · exact hs ▸ hvalid.run T history
    · rw [hmade] at herror
      cases herror
  have hset : s.contents.set i v = s.contents := by
    obtain ⟨hi, rfl⟩ := List.getElem?_eq_some_iff.mp hv
    exact List.set_getElem_self hi
  have hcopy : ∀ time made, (T.copy time v).1 = some made →
      made = v ∧ (T.copy time v).2 = v := fun time made hmade =>
    ⟨hvalues.copy_value time v made hmade, hvalues.copy_source time v⟩
  have hmove : ∀ time made, (T.move time v).1 = some made →
      made = v ∧ (T.move time v).2 = movedFrom v := fun time made hmade =>
    ⟨hvalues.move_value time v made hmade, hvalues.move_source time v made hmade⟩
  refine ⟨?_, ?_, h.appendLeaves hvalues hv hmove rfl rfl⟩
  · exact hset ▸ h.appendLeaves hvalues hv hcopy rfl rfl
  · exact hset ▸ h.appendLeaves hvalues hv hcopy rfl rfl

/-- Elements that are moved when the vector grows, and that are zero when moved from. -/
def movedElement : Element Nat where
  copyConstructible := true
  moveConstructible := true
  nothrowMove := true
  copy _ v := (some v, v)
  move _ v := (some v, 0)
  nothrow _ _ _ := rfl

/-- The only element of a full vector is moved to its end. -/
theorem append_own_full :
    (make hundredSlots 1 ⟨.empty Nat, 0⟩).1 = .ok () ∧
    AppendLeaves hundredSlots movedElement
      ((make hundredSlots 1 ⟨.empty Nat, 0⟩).2.run hundredSlots movedElement
        [.pushBackCopy (.other 7)]) (.pushBackMove (.own 0)) [0, 7] := by
  have hvalues : movedElement.KeepsValues fun _ => 0 :=
    ⟨fun _ _ _ hmade => (Option.some.inj hmade).symm, fun _ _ => rfl,
      fun _ _ _ hmade => (Option.some.inj hmade).symm, fun _ _ _ _ => rfl⟩
  exact ⟨rfl, (append_own hundredSlots movedElement hvalues 1 0 rfl [.pushBackCopy (.other 7)]
    rfl rfl).2.2⟩

end State

end MoreCpp.Vector
