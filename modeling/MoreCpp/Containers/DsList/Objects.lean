import MoreCpp.Containers.DsList.Relink

/-!
Making, filling, assigning and ending list objects. A loop that fills a list
from another one has pushed a prefix of its elements when it is thrown out of.
-/

namespace MoreCpp.DsList

open Library

variable {V Alloc : Type}

namespace Spec

/-- Two lists changed twice. -/
theorem set_pair (σ : Spec V Alloc) {list other : ListId} (hne : list ≠ other) (a b a' b' : Alloc)
    (cells cells' cells₁ cells₁' : List (Nat × V)) :
    (((σ.set list a cells).set other b cells').set list a' cells₁).set other b' cells₁' =
      (σ.set list a' cells₁).set other b' cells₁' := by
  simp only [set]
  rw [Function.update_comm hne.symm, Function.update_idem, Function.update_idem]

theorem set_drop (σ : Spec V Alloc) (list : ListId) (a : Alloc) (cells : List (Nat × V)) :
    (σ.set list a cells).drop list = σ.drop list :=
  Function.update_idem ..

theorem drop_eq_self {σ : Spec V Alloc} {list : ListId} (hlist : σ list = none) :
    σ.drop list = σ :=
  Function.update_eq_self_iff.mpr hlist.symm

variable {σ : Spec V Alloc} {list : ListId} {a : Alloc} {cells : List (Nat × V)} {n : Nat}

theorem owns_self (hlist : σ list = some ⟨a, cells⟩) : σ.Owns list n ↔ n ∈ nodesOf cells := by
  constructor
  · rintro ⟨q, hq, hn⟩
    obtain rfl := Option.some.inj (hlist.symm.trans hq)
    exact hn
  · exact fun hn => ⟨_, hlist, hn⟩

end Spec

namespace Represents

variable {h : Heap V Alloc} {σ : Spec V Alloc} {list other : ListId} {a b : Alloc}
  {cells cells' pre post : List (Nat × V)}

/-- A list object is made. -/
theorem newList (hrep : Represents h σ) (hlist : σ list = none) (a : Alloc) :
    ∃ h', h.newList list a = some h' ∧ h'.made = h.made ∧
      Represents h' (σ.set list a []) := by
  have hnew : h.newList list a = some { h with
      next := Function.update h.next (.sentinel list) (some (.sentinel list))
      prev := Function.update h.prev (.sentinel list) (some (.sentinel list))
      list := Function.update h.list list (some ⟨0, a⟩) } :=
    if_pos (by rw [hrep.absent list hlist]; rfl)
  refine ⟨_, hnew, rfl, hrep.changeOne (q := ⟨a, []⟩) ?_ ?_ nofun ?_ hrep.made⟩
  · intro l hl
    exact ⟨Function.update_of_ne hl _ _,
      fun p hp => Function.update_of_ne (hrep.into_ne hp (.inl rfl) hl) _ _,
      fun p hp => Function.update_of_ne (hrep.into_ne hp (.inl rfl) hl) _ _,
      fun _ _ => rfl, fun _ _ => rfl⟩
  · exact ⟨Function.update_self .., .nil (Function.update_self ..) (Function.update_self ..),
      nofun, nofun⟩
  · intro n hn
    obtain ⟨l, hl⟩ := hrep.owned n hn
    refine .inr ⟨l, ?_, hl⟩
    rintro rfl
    obtain ⟨q, hq, -⟩ := hl
    rw [hlist] at hq
    cases hq

/-- An empty list object goes. -/
theorem dropList (hrep : Represents h σ) (hlist : σ list = some ⟨a, []⟩) :
    Represents (h.dropList list) (σ.drop list) := by
  have hgone : σ.drop list list = none := Function.update_self ..
  have hempty : ∀ n, ¬ σ.Owns list n := fun n hn => by
    rw [Spec.owns_self hlist] at hn
    cases hn
  refine hrep.change (· = list) ?_ ?_ ?_ ?_ ?_ ?_ hrep.made
  · intro l hl
    exact ⟨Function.update_of_ne hl _ _, Function.update_of_ne hl _ _,
      fun p hp => Function.update_of_ne (hrep.into_ne hp (.inl rfl) hl) _ _,
      fun p hp => Function.update_of_ne (hrep.into_ne hp (.inl rfl) hl) _ _,
      fun _ _ => rfl, fun _ _ => rfl⟩
  · rintro l q rfl hq
    rw [hgone] at hq
    cases hq
  · rintro l rfl -
    exact Function.update_self ..
  · rintro l n rfl ⟨q, hq, -⟩
    rw [hgone] at hq
    cases hq
  · rintro l l' n rfl rfl - -
    rfl
  · intro n hn
    obtain ⟨l, hl⟩ := hrep.owned n hn
    refine .inr ⟨l, ?_, hl⟩
    rintro rfl
    exact hempty n hl

/-- An empty list gets another allocator. -/
theorem setAlloc (hrep : Represents h σ) (hlist : σ list = some ⟨a, []⟩) (b : Alloc) :
    ∃ h', h.setAlloc list b = some h' ∧ Represents h' (σ.set list b []) := by
  have hset : h.setAlloc list b =
      some { h with list := Function.update h.list list (some ⟨0, b⟩) } := by
    rw [Heap.setAlloc, hrep.header hlist]
    rfl
  refine ⟨_, hset, hrep.changeOne (q := ⟨b, []⟩) ?_ ?_ (List.forall_mem_nil _) ?_ hrep.made⟩
  · intro l hl
    exact ⟨Function.update_of_ne hl _ _, fun _ _ => rfl, fun _ _ => rfl, fun _ _ => rfl,
      fun _ _ => rfl⟩
  · exact ⟨Function.update_self .., (hrep.present list _ hlist).ring, List.forall_mem_nil _,
      List.forall_mem_nil _⟩
  · exact fun n hn => hrep.here_or_elsewhere hlist hn

/-- An element is assigned to. -/
theorem setValue (hrep : Represents h σ) {n : Nat} {v : V}
    (hlist : σ list = some ⟨a, pre ++ (n, v) :: post⟩) (w : V) :
    Represents (h.setValue n w) (σ.set list a (pre ++ (n, w) :: post)) := by
  have hat := hrep.present list _ hlist
  have hnodes : nodesOf (pre ++ (n, w) :: post) = nodesOf (pre ++ (n, v) :: post) := by
    simp [nodesOf]
  have hptrs : ptrsOf (pre ++ (n, w) :: post) = ptrsOf (pre ++ (n, v) :: post) := by
    simp [ptrsOf]
  have hown : σ.Owns list n := ⟨_, hlist, by simp [nodesOf]⟩
  have hnodup : n ∉ nodesOf pre ∧ n ∉ nodesOf post := by
    have hall := nodup_nodesOf (List.nodup_cons.mp hat.ring.nodup).2
    rw [nodesOf_append] at hall
    have hmiddle := List.nodup_middle.mp hall
    have hnot := (List.nodup_cons.mp hmiddle).1
    exact ⟨fun hmem => hnot (List.mem_append_left _ hmem),
      fun hmem => hnot (List.mem_append_right _ hmem)⟩
  have hcells : ∀ cell ∈ pre ++ (n, w) :: post,
      cell = (n, w) ∨ cell ∈ pre ++ (n, v) :: post ∧ cell.1 ≠ n := by
    intro cell hcell
    rcases List.mem_append.mp hcell with hpre | hrest
    · refine .inr ⟨List.mem_append_left _ hpre, ?_⟩
      rintro rfl
      exact hnodup.1 (mem_nodesOf hpre)
    · rcases List.mem_cons.mp hrest with rfl | hpost
      · exact .inl rfl
      · refine .inr ⟨List.mem_append_right _ (.tail _ hpost), ?_⟩
        rintro rfl
        exact hnodup.2 (mem_nodesOf hpost)
  refine hrep.changeOne (q := ⟨a, pre ++ (n, w) :: post⟩) ?_ ?_ ?_ ?_ hrep.made
  · intro l hl
    exact ⟨rfl, fun _ _ => rfl, fun _ _ => rfl,
      fun m hm => Function.update_of_ne (hrep.owns_ne hm hown hl) _ _, fun _ _ => rfl⟩
  · refine ⟨?_, by rw [hptrs]; exact hat.ring, fun cell hcell => ?_, fun cell hcell => ?_⟩
    · have hlength : (pre ++ (n, w) :: post).length = (pre ++ (n, v) :: post).length := by simp
      rw [hlength]
      exact hat.header
    · rcases hcells cell hcell with rfl | ⟨hold, hne⟩
      · exact Function.update_self ..
      · exact (Function.update_of_ne hne _ _).trans (hat.value cell hold)
    · rcases hcells cell hcell with rfl | ⟨hold, -⟩
      · exact hat.storage (n, v) (by simp)
      · exact hat.storage cell hold
  · intro m hm
    rw [hnodes] at hm
    exact .inl ((Spec.owns_self hlist).mpr hm)
  · intro m hm
    rw [hnodes]
    rcases eq_or_ne m n with rfl | hne
    · exact .inl ((Spec.owns_self hlist).mp hown)
    · apply hrep.here_or_elsewhere hlist
      rwa [← Function.update_of_ne hne (some w) h.value]

theorem moveConstruct (hrep : Represents h σ) (hlist : σ list = none)
    (hother : σ other = some ⟨b, cells'⟩) :
    ∃ h', h.moveConstruct list other = some h' ∧
      Represents h' ((σ.set list b cells').set other b []) := by
  have hne : list ≠ other := by
    rintro rfl
    rw [hlist] at hother
    cases hother
  obtain ⟨h₁, hnew, -, hrep₁⟩ := hrep.newList hlist b
  obtain ⟨h', hsteal, hrep'⟩ := hrep₁.steal hne (Spec.set_self ..)
    ((Spec.set_of_ne _ _ _ hne.symm).trans hother)
  rw [Spec.set_set] at hrep'
  exact ⟨h', by simp [Heap.moveConstruct, hrep.header hother, hnew, hsteal], hrep'⟩

variable [DecidableEq Alloc] (E : Setting V Alloc)

theorem pushBack (hrep : Represents h σ) (hlist : σ list = some ⟨a, cells⟩) (v : V) :
    (∃ e h', h.pushBack E list v = some (.error e, h') ∧ Represents h' σ) ∨
    ∃ h', h.pushBack E list v = some (.ok (some (.node h.made)), h') ∧ h'.made = h.made + 1 ∧
      Represents h' (σ.set list a (cells ++ [(h.made, v)])) :=
  hrep.emplace E (show σ list = some ⟨a, cells ++ []⟩ by rwa [List.append_nil]) v

/-- What a construction may leave of an element it was given. -/
def Passed (left : Bool → V → V) (cell cell' : Nat × V) : Prop :=
  cell'.1 = cell.1 ∧ (cell'.2 = cell.2 ∨ ∃ finished, cell'.2 = left finished cell.2)

theorem Passed.nodesOf_eq {left : Bool → V → V} {cells cells' : List (Nat × V)}
    (hpassed : List.Forall₂ (Passed left) cells cells') : nodesOf cells' = nodesOf cells := by
  induction hpassed with
  | nil => rfl
  | cons hcell _ ih => exact congrArg₂ List.cons hcell.1 ih

theorem Passed.refl (left : Bool → V → V) (cells : List (Nat × V)) :
    List.Forall₂ (Passed left) cells cells :=
  List.forall₂_same.mpr fun _ _ => ⟨rfl, .inl rfl⟩

/-- The loop pushes the rest of another list, or a prefix of it and throws. -/
theorem pushEach (left : Bool → V → V) (rest : List (Nat × V)) (hrep : Represents h σ)
    (hne : list ≠ other) (hlist : σ list = some ⟨a, cells⟩)
    (hother : σ other = some ⟨b, pre ++ rest⟩) {fuel : Nat} (hfuel : rest.length < fuel) :
    ∃ result h' new rest',
      Heap.pushEach E left list (.sentinel other) fuel (iteratorAt other rest) h =
        some (result, h') ∧
      h.MadeSince new ∧ valuesOf new <+: valuesOf rest ∧
      (result = .ok () → valuesOf new = valuesOf rest) ∧ List.Forall₂ (Passed left) rest rest' ∧
      Represents h' ((σ.set list a (cells ++ new)).set other b (pre ++ rest')) := by
  induction rest generalizing h σ cells pre fuel with
  | nil =>
      obtain ⟨fuel, rfl⟩ := Nat.exists_eq_add_of_lt hfuel
      refine ⟨.ok (), h, [], [], by simp [Heap.pushEach, iteratorAt, ptrsOf], .nil h,
        List.nil_prefix, fun _ => rfl, .nil, ?_⟩
      rw [List.append_nil, Spec.set_eq_self hlist, Spec.set_eq_self hother]
      exact hrep
  | cons cell rest ih =>
      obtain ⟨m, v⟩ := cell
      obtain ⟨fuel, rfl⟩ := Nat.exists_eq_add_of_lt hfuel
      have hvalue : h.value m = some v :=
        (hrep.present other _ hother).value (m, v) (by simp)
      change ∃ result h' new rest', Heap.pushEach E left list (.sentinel other) _ (.node m) h =
        some (result, h') ∧ _
      have hnot : (.node m : Ptr) ≠ .sentinel other := by
        rintro ⟨⟩
      have hall : List.Forall₂ (Passed left) rest rest := Passed.refl left rest
      rcases hrep.pushBack E hlist v with ⟨e, h₁, hpush, hrep₁⟩ | ⟨h₁, hpush, hcount, hrep₁⟩
      · have hthrew : ∃ h' v', Heap.pushEach E left list (.sentinel other)
            (((m, v) :: rest).length + fuel + 1) (.node m) h = some (.error e, h') ∧
            (v' = v ∨ ∃ finished, v' = left finished v) ∧
            Represents h' (σ.set other b (pre ++ (m, v') :: rest)) := by
          rw [Heap.pushEach, if_neg hnot]
          simp only [Ptr.node?, hvalue, hpush, Option.bind_eq_bind, Option.bind_some]
          cases e with
          | element => exact ⟨_, left false v, rfl, .inr ⟨false, rfl⟩, hrep₁.setValue hother _⟩
          | badAlloc => exact ⟨h₁, v, rfl, .inl rfl, by rwa [Spec.set_eq_self hother]⟩
          | outOfRange => exact ⟨h₁, v, rfl, .inl rfl, by rwa [Spec.set_eq_self hother]⟩
        obtain ⟨h', v', hloop, hpassed, hrep'⟩ := hthrew
        refine ⟨.error e, h', [], (m, v') :: rest, hloop, .nil h, List.nil_prefix, ?_,
          .cons ⟨rfl, hpassed⟩ hall, ?_⟩
        · rintro ⟨⟩
        · rwa [List.append_nil, Spec.set_eq_self hlist]
      · have hother₁ : (σ.set list a (cells ++ [(h.made, v)])) other =
            some ⟨b, pre ++ (m, v) :: rest⟩ :=
          (Spec.set_of_ne _ _ _ hne.symm).trans hother
        have hrep₂ := hrep₁.setValue hother₁ (left true v)
        generalize hσ₂ : (σ.set list a (cells ++ [(h.made, v)])).set other b
          (pre ++ (m, left true v) :: rest) = σ₂ at hrep₂
        have hlist₂ : σ₂ list = some ⟨a, cells ++ [(h.made, v)]⟩ := by
          rw [← hσ₂, Spec.set_of_ne _ _ _ hne, Spec.set_self]
        have hother₂ : σ₂ other = some ⟨b, pre ++ [(m, left true v)] ++ rest⟩ := by
          rw [← hσ₂, Spec.set_self, List.append_assoc]
          rfl
        have hnext :
            (h₁.setValue m (left true v)).next (.node m) = some (iteratorAt other rest) := by
          have hring := (hrep₂.present other _ hother₂).ring
          rw [List.append_assoc, ptrsOf_append] at hring
          exact hring.links_of_mem.2
        have henough : rest.length < ((m, v) :: rest).length + fuel := by
          rw [List.length_cons]
          omega
        obtain ⟨result, h', new, rest', hloop, hsince, hprefix, hdone, hpassed, hrep'⟩ :=
          ih hrep₂ hlist₂ hother₂ henough
        refine ⟨result, h', (h.made, v) :: new, (m, left true v) :: rest', ?_,
          hsince.cons hcount,
          List.cons_prefix_cons.mpr ⟨rfl, hprefix⟩, fun hok => congrArg (v :: ·) (hdone hok),
          .cons ⟨rfl, .inr ⟨true, rfl⟩⟩ hpassed, ?_⟩
        · rw [Heap.pushEach, if_neg hnot]
          simp only [Ptr.node?, hvalue, hpush, Option.bind_eq_bind, Option.bind_some]
          rw [hnext, Option.bind_some, hloop]
        · rw [← hσ₂, Spec.set_pair _ hne, List.append_assoc, List.append_assoc] at hrep'
          exact hrep'

/-- The loop over the values of an initializer list. -/
theorem pushValues (values : List V) (hrep : Represents h σ) (hlist : σ list = some ⟨a, cells⟩) :
    ∃ result h' new, h.pushValues E list values = some (result, h') ∧
      h.MadeSince new ∧ (result = .ok () → valuesOf new = values) ∧
      Represents h' (σ.set list a (cells ++ new)) := by
  induction values generalizing h σ cells with
  | nil =>
      refine ⟨.ok (), h, [], rfl, .nil h, fun _ => rfl, ?_⟩
      rwa [List.append_nil, Spec.set_eq_self hlist]
  | cons v values ih =>
      rcases hrep.pushBack E hlist v with ⟨e, h₁, hpush, hrep₁⟩ | ⟨h₁, hpush, hcount, hrep₁⟩
      · refine ⟨.error e, h₁, [], by simp [Heap.pushValues, hpush], .nil h, nofun, ?_⟩
        rwa [List.append_nil, Spec.set_eq_self hlist]
      · obtain ⟨result, h', new, hloop, hsince, hdone, hrep'⟩ := ih hrep₁ (Spec.set_self ..)
        refine ⟨result, h', (h.made, v) :: new, by simp [Heap.pushValues, hpush, hloop],
          hsince.cons hcount, fun hok => congrArg (v :: ·) (hdone hok), ?_⟩
        rwa [Spec.set_set, List.append_assoc] at hrep'

theorem destruct (hrep : Represents h σ) (hlist : σ list = some ⟨a, cells⟩) :
    ∃ h', h.destruct list = some h' ∧ Represents h' (σ.drop list) := by
  obtain ⟨h', hclear, -, hrep'⟩ := hrep.clear hlist
  refine ⟨h'.dropList list, by simp [Heap.destruct, hclear], ?_⟩
  have hdropped := hrep'.dropList (Spec.set_self ..)
  rwa [Spec.set_drop] at hdropped

/-- A list is made of the values, or the object is gone again. -/
theorem constructFrom (hrep : Represents h σ) (hlist : σ list = none) (values : List V)
    (a : Alloc) :
    (∃ e h', h.constructFrom E list values a = some (.error e, h') ∧ Represents h' σ) ∨
    ∃ new h', h.constructFrom E list values a = some (.ok (), h') ∧ σ.Fresh new ∧
      valuesOf new = values ∧ Represents h' (σ.set list a new) := by
  obtain ⟨h₁, hnew, hcount, hrep₁⟩ := hrep.newList hlist a
  obtain ⟨result, h₂, new, hloop, hsince, hdone, hrep₂⟩ :=
    hrep₁.pushValues E values (Spec.set_self ..)
  rw [List.nil_append, Spec.set_set] at hrep₂
  cases result with
  | ok =>
      refine .inr ⟨new, h₂, by simp [Heap.constructFrom, hnew, hloop],
        hrep.fresh_of_madeSince (hsince.mono hcount.ge), hdone rfl, hrep₂⟩
  | error e =>
      obtain ⟨h₃, hclear, -, hrep₃⟩ := hrep₂.clear (Spec.set_self ..)
      obtain ⟨h₄, hdestruct, hrep₄⟩ := hrep₃.destruct (Spec.set_self ..)
      rw [Spec.set_drop, Spec.set_drop, Spec.drop_eq_self hlist] at hrep₄
      exact .inl ⟨e, h₄, by simp [Heap.constructFrom, hnew, hloop, hclear, hdestruct], hrep₄⟩

/-- The loop that copies a list into a new one, which has its elements then, or
a prefix of them when it is thrown out of; the list copied stays as it is. -/
theorem copyEach (hrep : Represents h σ) (hlist : σ list = none)
    (hother : σ other = some ⟨b, cells'⟩) (a : Alloc) :
    ∃ h₁, h.newList list a = some h₁ ∧
      h₁.next (.sentinel other) = some (iteratorAt other cells') ∧
      ∃ result h' new, Heap.pushEach E (fun _ v => v) list (.sentinel other) (cells'.length + 1)
        (iteratorAt other cells') h₁ = some (result, h') ∧ σ.Fresh new ∧
      (result = .ok () → valuesOf new = valuesOf cells') ∧ Represents h' (σ.set list a new) := by
  have hne : list ≠ other := by
    rintro rfl
    rw [hlist] at hother
    cases hother
  obtain ⟨h₁, hnew, hcount, hrep₁⟩ := hrep.newList hlist a
  have hother₁ : σ.set list a [] other = some ⟨b, [] ++ cells'⟩ :=
    (Spec.set_of_ne _ _ _ hne.symm).trans hother
  have hnext := (hrep₁.present other _ hother₁).ring.next_sentinel
  obtain ⟨result, h', new, rest', hloop, hsince, -, hdone, hpassed, hrep'⟩ :=
    hrep₁.pushEach E (fun _ v => v) cells' hne (Spec.set_self ..) hother₁ (Nat.lt_succ_self _)
  obtain rfl : cells' = rest' := by
    apply List.forall₂_eq_eq_eq ▸ hpassed.imp
    intro cell cell' hpass
    rcases hpass with ⟨hnode, hvalue | ⟨_, hvalue⟩⟩
    · exact (Prod.ext hnode hvalue).symm
    · exact (Prod.ext hnode hvalue).symm
  refine ⟨h₁, hnew, hnext, result, h', new, hloop,
    hrep.fresh_of_madeSince (hsince.mono hcount.ge), hdone, ?_⟩
  rw [List.nil_append, List.nil_append, Spec.set_set] at hrep'
  rwa [Spec.set_eq_self ((Spec.set_of_ne _ _ _ hne.symm).trans hother)] at hrep'

/-- The new list has equal elements, or is gone again. -/
theorem copyConstruct (hrep : Represents h σ) (hlist : σ list = none)
    (hother : σ other = some ⟨b, cells'⟩) :
    (∃ e h', h.copyConstruct E list other = some (.error e, h') ∧ Represents h' σ) ∨
    ∃ new h', h.copyConstruct E list other = some (.ok (), h') ∧ σ.Fresh new ∧
      valuesOf new = valuesOf cells' ∧
      Represents h' (σ.set list (E.selectOnCopyConstruction b) new) := by
  obtain ⟨h₁, hnew, hnext, result, h₂, new, hloop, hfresh, hdone, hrep₂⟩ :=
    hrep.copyEach E hlist hother (E.selectOnCopyConstruction b)
  have hheader := hrep.header hother
  cases result with
  | ok =>
      exact .inr ⟨new, h₂, by simp [Heap.copyConstruct, hheader, hnew, hnext, hloop], hfresh,
        hdone rfl, hrep₂⟩
  | error e =>
      obtain ⟨h₃, hclear, -, hrep₃⟩ := hrep₂.clear (Spec.set_self ..)
      have hrep₄ := hrep₃.dropList (Spec.set_self ..)
      rw [Spec.set_drop, Spec.set_drop, Spec.drop_eq_self hlist] at hrep₄
      exact .inl ⟨e, h₃.dropList list,
        by simp [Heap.copyConstruct, hheader, hnew, hnext, hloop, hclear], hrep₄⟩

/-- The list assigned to gets equal elements, or stays as it is. -/
theorem copyAssign (hrep : Represents h σ) (htemp : σ .temp = none) (hne : list ≠ other)
    (hlist : σ list = some ⟨a, cells⟩) (hother : σ other = some ⟨b, cells'⟩) :
    (∃ e h', h.copyAssign E list other = some (.error e, h') ∧ Represents h' σ) ∨
    ∃ new h', h.copyAssign E list other = some (.ok (), h') ∧ σ.Fresh new ∧
      valuesOf new = valuesOf cells' ∧
      Represents h' (σ.set list (if E.propagateOnCopyAssignment then b else a) new) := by
  have htempList : ListId.temp ≠ list := by
    rintro rfl
    rw [hlist] at htemp
    cases htemp
  generalize ha' : (if E.propagateOnCopyAssignment then b else a) = a'
  obtain ⟨h₁, hnew, hnext, result, h₂, new, hloop, hfresh, hdone, hrep₂⟩ :=
    hrep.copyEach E htemp hother a'
  have hheader := hrep.header hlist
  have hheader' := hrep.header hother
  cases result with
  | error e =>
      obtain ⟨h₃, hdestruct, hrep₃⟩ := hrep₂.destruct (Spec.set_self ..)
      rw [Spec.set_drop, Spec.drop_eq_self htemp] at hrep₃
      exact .inl ⟨e, h₃, by
        simp [Heap.copyAssign, hne, hheader, hheader', ha', hnew, hnext, hloop, hdestruct], hrep₃⟩
  | ok =>
      have hlist₂ : σ.set .temp a' new list = some ⟨a, cells⟩ :=
        (Spec.set_of_ne _ _ _ htempList.symm).trans hlist
      obtain ⟨h₃, hclear, -, hrep₃⟩ := hrep₂.clear hlist₂
      have hset : ∃ h₄, (if E.propagateOnCopyAssignment = true then h₃.setAlloc list b
          else some h₃) = some h₄ ∧ Represents h₄ ((σ.set .temp a' new).set list a' []) := by
        cases hpropagate : E.propagateOnCopyAssignment with
        | true =>
            obtain ⟨h₄, hset, hrep₄⟩ := hrep₃.setAlloc (Spec.set_self ..) b
            rw [hpropagate, if_pos rfl] at ha'
            rw [Spec.set_set, ← ha'] at hrep₄
            exact ⟨h₄, hset, ha' ▸ hrep₄⟩
        | false =>
            rw [hpropagate, if_neg nofun] at ha'
            exact ⟨h₃, rfl, ha' ▸ hrep₃⟩
      obtain ⟨h₄, hset, hrep₄⟩ := hset
      obtain ⟨h₅, hsteal, hrep₅⟩ := hrep₄.steal htempList.symm (Spec.set_self ..)
        ((Spec.set_of_ne _ _ _ htempList).trans (Spec.set_self ..))
      obtain ⟨h₆, hdestruct, hrep₆⟩ := hrep₅.destruct (Spec.set_self ..)
      have hfinal : (((((σ.set .temp a' new).set list a' []).set list a' new).set .temp a' []).drop
          .temp) = σ.set list a' new := by
        rw [Spec.set_drop, Spec.set_set, Spec.set, Spec.set, Spec.drop,
          Function.update_comm htempList, Function.update_idem, ← Function.update_comm htempList]
        exact congrArg (fun τ => Spec.set τ list a' new) (Spec.drop_eq_self htemp)
      rw [hfinal] at hrep₆
      refine .inr ⟨new, h₆, ?_, hfresh, hdone rfl, hrep₆⟩
      cases hpropagate : E.propagateOnCopyAssignment with
      | true =>
          rw [hpropagate, if_pos rfl] at ha' hset
          subst ha'
          simp [Heap.copyAssign, hne, hheader, hheader', hpropagate, hnew, hnext, hloop, hclear,
            hset, hsteal, hdestruct]
      | false =>
          rw [hpropagate, if_neg nofun] at ha' hset
          subst ha'
          obtain rfl := Option.some.inj hset
          simp [Heap.copyAssign, hne, hheader, hheader', hpropagate, hnew, hnext, hloop, hclear,
            hsteal, hdestruct]

/-- The list assigned to takes the nodes over. -/
theorem moveAssign_steal (hrep : Represents h σ) (hne : list ≠ other)
    (hlist : σ list = some ⟨a, cells⟩) (hother : σ other = some ⟨b, cells'⟩)
    (hsame : E.propagateOnMoveAssignment = true ∨ a = b) :
    ∃ h', h.moveAssign E list other = some (.ok (), h') ∧
      Represents h' ((σ.set list b cells').set other b []) := by
  obtain ⟨h₁, hclear, -, hrep₁⟩ := hrep.clear hlist
  have hother₁ : σ.set list a [] other = some ⟨b, cells'⟩ :=
    (Spec.set_of_ne _ _ _ hne.symm).trans hother
  have hheader := hrep₁.header (Spec.set_self ..)
  have hheader' := hrep₁.header hother₁
  cases hpropagate : E.propagateOnMoveAssignment with
  | true =>
      obtain ⟨h₂, hset, hrep₂⟩ := hrep₁.setAlloc (Spec.set_self ..) b
      rw [Spec.set_set] at hrep₂
      obtain ⟨h', hsteal, hrep'⟩ := hrep₂.steal hne (Spec.set_self ..)
        ((Spec.set_of_ne _ _ _ hne.symm).trans hother)
      rw [Spec.set_set] at hrep'
      exact ⟨h', by
        simp [Heap.moveAssign, hne, hclear, hheader, hheader', hpropagate, hset, hsteal], hrep'⟩
  | false =>
      obtain rfl : a = b := hsame.resolve_left (by simp [hpropagate])
      obtain ⟨h', hsteal, hrep'⟩ := hrep₁.steal hne (Spec.set_self ..) hother₁
      rw [Spec.set_set] at hrep'
      exact ⟨h', by simp [Heap.moveAssign, hne, hclear, hheader, hheader', hpropagate, hsteal],
        hrep'⟩

/-- The elements are moved to new nodes, all of them, or a prefix of them until one throws. -/
theorem moveAssign_each (hrep : Represents h σ) (hne : list ≠ other)
    (hlist : σ list = some ⟨a, cells⟩) (hother : σ other = some ⟨b, cells'⟩)
    (hkept : E.propagateOnMoveAssignment = false) (hdiffer : a ≠ b) :
    (∃ e new left h', h.moveAssign E list other = some (.error e, h') ∧ σ.Fresh new ∧
      valuesOf new <+: valuesOf cells' ∧ nodesOf left = nodesOf cells' ∧
      Represents h' ((σ.set list a new).set other b left)) ∨
    ∃ new h', h.moveAssign E list other = some (.ok (), h') ∧ σ.Fresh new ∧
      valuesOf new = valuesOf cells' ∧ Represents h' ((σ.set list a new).set other b []) := by
  obtain ⟨h₁, hclear, hcount, hrep₁⟩ := hrep.clear hlist
  have hother₁ : σ.set list a [] other = some ⟨b, [] ++ cells'⟩ :=
    (Spec.set_of_ne _ _ _ hne.symm).trans hother
  have hheader := hrep₁.header (Spec.set_self ..)
  have hheader' := hrep₁.header hother₁
  have hnext : h₁.next (.sentinel other) = some (iteratorAt other cells') :=
    (hrep₁.present other _ hother₁).ring.next_sentinel
  have hdistinct : ¬ E.isAlwaysEqual = true := fun heq => hdiffer (E.eq_of_isAlwaysEqual heq a b)
  obtain ⟨result, h₂, new, left, hloop, hsince, hprefix, hdone, hpassed, hrep₂⟩ :=
    hrep₁.pushEach E E.movedFrom cells' hne (Spec.set_self ..) hother₁ (Nat.lt_succ_self _)
  have hfresh := hrep.fresh_of_madeSince (hsince.mono hcount.ge)
  rw [List.nil_append, List.nil_append, Spec.set_set] at hrep₂
  cases result with
  | error e =>
      exact .inl ⟨e, new, left, h₂, by simp [Heap.moveAssign, hne, hclear, hheader, hheader',
        hkept, hdistinct, hdiffer, hnext, hloop], hfresh, hprefix, Passed.nodesOf_eq hpassed, hrep₂⟩
  | ok =>
      obtain ⟨h', hclear', -, hrep'⟩ := hrep₂.clear (Spec.set_self ..)
      rw [Spec.set_set] at hrep'
      exact .inr ⟨new, h', by simp [Heap.moveAssign, hne, hclear, hheader, hheader', hkept,
        hdistinct, hdiffer, hnext, hloop, hclear'], hfresh, hdone rfl, hrep'⟩

end Represents

end MoreCpp.DsList
