import Mathlib.Data.List.Induction

/-!
Loops and recursion with fuel. The body of a loop goes on from one state to another
or ends with a result, and may fail; `fuel` bounds the rounds of a loop, or how deep
a recursion is.
-/

namespace MoreCpp.Library

variable {S R : Type*}

def loop (body : S → Option (S ⊕ R)) : Nat → S → Option R
  | 0, _ => none
  | fuel + 1, s => (body s).bind fun
      | .inl s' => loop body fuel s'
      | .inr result => some result

/-- The body goes on for so many rounds. -/
def Leads (body : S → Option (S ⊕ R)) : Nat → S → S → Prop
  | 0, s, s' => s = s'
  | rounds + 1, s, s' => ∃ mid, body s = some (.inl mid) ∧ Leads body rounds mid s'

namespace Leads

variable {body : S → Option (S ⊕ R)} {s mid s' : S} {m n fuel : Nat} {result : R}

theorem refl (s : S) : Leads body 0 s s := rfl

theorem head (hbody : body s = some (.inl mid)) (h : Leads body n mid s') :
    Leads body (n + 1) s s' := ⟨mid, hbody, h⟩

theorem single (hbody : body s = some (.inl s')) : Leads body 1 s s' := head hbody (refl s')

theorem trans (hfirst : Leads body m s mid) (hrest : Leads body n mid s') :
    Leads body (m + n) s s' := by
  induction m generalizing s with
  | zero =>
      obtain rfl : s = mid := hfirst
      rwa [Nat.zero_add]
  | succ m ih =>
      obtain ⟨next, hbody, hfirst⟩ := hfirst
      rw [Nat.succ_add]
      exact head hbody (ih hfirst)

/-- A sequence of states that the body goes through. -/
theorem sequence (states : Nat → S)
    (hnext : ∀ k < n, body (states k) = some (.inl (states (k + 1)))) :
    Leads body n (states 0) (states n) := by
  induction n with
  | zero => exact refl _
  | succ n ih =>
      have hbefore := ih fun k hk => hnext k (Nat.lt_succ_of_lt hk)
      exact hbefore.trans (single (hnext n (Nat.lt_succ_self n)))

/-- The loop ends where its body does, with more fuel than rounds before that. -/
theorem loop_eq (h : Leads body n s s') (hend : body s' = some (.inr result))
    (hfuel : n < fuel) : loop body fuel s = some result := by
  induction n generalizing s fuel with
  | zero =>
      obtain rfl : s = s' := h
      obtain ⟨fuel, rfl⟩ := Nat.exists_eq_add_of_lt hfuel
      simp [loop, hend]
  | succ n ih =>
      obtain ⟨next, hbody, h⟩ := h
      cases fuel with
      | zero => exact absurd hfuel (Nat.not_lt_zero _)
      | succ fuel =>
          rw [loop, hbody]
          exact ih h (Nat.lt_of_succ_lt_succ hfuel)

end Leads

/-- What the body keeps holds in every state that it leads to. -/
theorem Leads.invariant {body : S → Option (S ⊕ R)} (Inv : S → Prop) {s s' : S} {n : Nat}
    (hkeep : ∀ s s', Inv s → body s = some (.inl s') → Inv s') (h : Leads body n s s')
    (hinv : Inv s) : Inv s' := by
  induction n generalizing s with
  | zero =>
      obtain rfl : s = s' := h
      exact hinv
  | succ n ih =>
      obtain ⟨mid, hbody, hrest⟩ := h
      exact ih hrest (hkeep s mid hinv hbody)

/-- A loop whose body keeps an invariant while a measure falls ends as its body does. -/
theorem loop_total {body : S → Option (S ⊕ R)} (Inv : S → Prop) (size : S → Nat)
    {Post : R → Prop} {s : S} {fuel : Nat}
    (hround : ∀ s, Inv s → (∃ result, body s = some (.inr result) ∧ Post result) ∨
      ∃ s', body s = some (.inl s') ∧ Inv s' ∧ size s' < size s)
    (hinv : Inv s) (hfuel : size s < fuel) :
    ∃ result, loop body fuel s = some result ∧ Post result := by
  induction fuel generalizing s with
  | zero => exact absurd hfuel (Nat.not_lt_zero _)
  | succ fuel ih =>
      obtain ⟨result, hbody, hpost⟩ | ⟨s', hbody, hinv', hless⟩ := hround s hinv
      · exact ⟨result, by rw [loop, hbody]; rfl, hpost⟩
      · obtain ⟨result, hloop, hpost⟩ := ih hinv' (by omega)
        exact ⟨result, by rw [loop, hbody]; exact hloop, hpost⟩

/-- What the body keeps and ends with, where the loop does end. -/
theorem loop_invariant {body : S → Option (S ⊕ R)} (Inv : S → Prop) (Post : R → Prop) {s : S}
    {fuel : Nat} {result : R} (hkeep : ∀ s s', Inv s → body s = some (.inl s') → Inv s')
    (hend : ∀ s result, Inv s → body s = some (.inr result) → Post result) (hinv : Inv s)
    (hloop : loop body fuel s = some result) : Post result := by
  induction fuel generalizing s with
  | zero => cases hloop
  | succ fuel ih =>
      rw [loop] at hloop
      obtain ⟨next, hbody, hrest⟩ := Option.bind_eq_some_iff.mp hloop
      cases next with
      | inl s' => exact ih (hkeep s s' hinv hbody) hrest
      | inr result' =>
          rw [← Option.some.inj hrest]
          exact hend s result' hinv hbody

theorem loop_mono {body : S → Option (S ⊕ R)} {s : S} {fuel fuel' : Nat} {result : R}
    (hloop : loop body fuel s = some result) (hle : fuel ≤ fuel') :
    loop body fuel' s = some result := by
  induction fuel generalizing s fuel' with
  | zero => cases hloop
  | succ fuel ih =>
      obtain ⟨fuel', rfl⟩ := Nat.exists_eq_add_of_le' (Nat.lt_of_lt_of_le (Nat.succ_pos fuel) hle)
      rw [loop] at hloop ⊢
      obtain ⟨next, hbody, hrest⟩ := Option.bind_eq_some_iff.mp hloop
      rw [hbody, Option.bind_some]
      cases next with
      | inl s' => exact ih hrest (Nat.le_of_succ_le_succ hle)
      | inr result' => exact hrest

/-- The result does not depend on the fuel, where there is one. -/
theorem loop_unique {body : S → Option (S ⊕ R)} {s : S} {fuel fuel' : Nat} {result result' : R}
    (hloop : loop body fuel s = some result) (hloop' : loop body fuel' s = some result') :
    result = result' := by
  have hboth := loop_mono hloop (Nat.le_max_left fuel fuel')
  have hboth' := loop_mono hloop' (Nat.le_max_right fuel fuel')
  exact Option.some.inj (hboth.symm.trans hboth')

/-! ## Counting -/

/-- `for (i = lo; i < hi; i++)`. -/
def forRange (lo hi : Nat) (body : Nat → S → Option S) (s : S) : Option S :=
  (List.range' lo (hi - lo)).foldlM (fun s i => body i s) s

/-- What each turn hands on to the next holds at the end. -/
theorem forRange_rule {body : Nat → S → Option S} (Inv : Nat → S → Prop) {lo hi : Nat} {s : S}
    (hstart : Inv lo s) (hturn : ∀ i s, lo ≤ i → i < hi → Inv i s →
      ∃ s', body i s = some s' ∧ Inv (i + 1) s') :
    ∃ s', forRange lo hi body s = some s' ∧ Inv (max lo hi) s' := by
  unfold forRange
  generalize hcount : hi - lo = count
  induction count generalizing lo s with
  | zero =>
      have hend : max lo hi = lo := by omega
      exact ⟨s, rfl, by rwa [hend]⟩
  | succ count ih =>
      obtain ⟨s', hbody, hinv⟩ := hturn lo s (Nat.le_refl _) (by omega) hstart
      obtain ⟨s'', hrest, hlast⟩ := ih hinv (fun i s hi => hturn i s (by omega)) (by omega)
      have hend : max lo hi = max (lo + 1) hi := by omega
      refine ⟨s'', ?_, by rwa [hend]⟩
      rw [List.range'_succ, List.foldlM_cons, hbody]
      exact hrest

/-- Where a turn fails if and only if something does not hold of it, so does the loop. -/
theorem forRange_checked {body : Nat → S → Option S} (Inv : Nat → S → Prop) (Ok : Nat → Prop)
    {lo hi : Nat} {s : S} (hstart : Inv lo s)
    (hturn : ∀ i s, lo ≤ i → i < hi → Inv i s →
      (Ok i ∧ ∃ s', body i s = some s' ∧ Inv (i + 1) s') ∨ (¬Ok i ∧ body i s = none)) :
    ((∀ i, lo ≤ i → i < hi → Ok i) ∧
        ∃ s', forRange lo hi body s = some s' ∧ Inv (max lo hi) s') ∨
      (¬(∀ i, lo ≤ i → i < hi → Ok i) ∧ forRange lo hi body s = none) := by
  unfold forRange
  generalize hcount : hi - lo = count
  induction count generalizing lo s with
  | zero =>
      have hend : max lo hi = lo := by omega
      exact .inl ⟨fun i hlo hhi => by omega, s, rfl, by rwa [hend]⟩
  | succ count ih =>
      rw [List.range'_succ, List.foldlM_cons]
      obtain ⟨hok, s', hbody, hinv⟩ | ⟨hfail, hbody⟩ :=
        hturn lo s (Nat.le_refl _) (by omega) hstart
      · have hend : max lo hi = max (lo + 1) hi := by omega
        have hall : (∀ i, lo ≤ i → i < hi → Ok i) ↔ ∀ i, lo + 1 ≤ i → i < hi → Ok i :=
          ⟨fun h i hlo => h i (by omega), fun h i hlo hhi =>
            (Nat.eq_or_lt_of_le hlo).elim (fun heq => heq ▸ hok) fun hlt => h i hlt hhi⟩
        rw [hbody, hend, hall]
        exact ih hinv (fun i s hlo => hturn i s (by omega)) (by omega)
      · rw [hbody]
        exact .inr ⟨fun h => hfail (h lo (Nat.le_refl _) (by omega)), rfl⟩

/-- What each turn keeps holds at the end, if there is an end. -/
theorem forRange_invariant {body : Nat → S → Option S} (Inv : Nat → S → Prop) {lo hi : Nat}
    {s s' : S} (hinv : Inv lo s) (hkeep : ∀ i s s', lo ≤ i → i < hi → Inv i s →
      body i s = some s' → Inv (i + 1) s') (hrun : forRange lo hi body s = some s') :
    Inv (max lo hi) s' := by
  unfold forRange at hrun
  generalize hcount : hi - lo = count at hrun
  induction count generalizing lo s with
  | zero =>
      obtain rfl : s = s' := Option.some.inj hrun
      rwa [Nat.max_eq_left (by omega)]
  | succ count ih =>
      rw [List.range'_succ, List.foldlM_cons] at hrun
      obtain ⟨mid, hbody, hrest⟩ := Option.bind_eq_some_iff.mp hrun
      have hend : max lo hi = max (lo + 1) hi := by omega
      rw [hend]
      exact ih (hkeep lo s mid (Nat.le_refl lo) (by omega) hinv hbody)
        (fun i s s' hlo => hkeep i s s' (by omega)) (by omega) hrest

theorem forRange_eq_none {body : Nat → S → Option S} {lo hi i : Nat} {s : S} (hlo : lo ≤ i)
    (hhi : i < hi) (hbody : ∀ s, body i s = none) : forRange lo hi body s = none := by
  have hmem : i ∈ List.range' lo (hi - lo) := List.mem_range'_1.mpr ⟨hlo, by omega⟩
  obtain ⟨before, after, hsplit⟩ := List.append_of_mem hmem
  rw [forRange, hsplit, List.foldlM_append]
  simp [hbody]

/-- `for (i = hi - 1; i >= lo; i--)`. -/
def forDown (lo hi : Nat) (body : Nat → S → Option S) (s : S) : Option S :=
  (List.range' lo (hi - lo)).reverse.foldlM (fun s i => body i s) s

theorem forDown_rule {body : Nat → S → Option S} (Inv : Nat → S → Prop) {lo hi : Nat} {s : S}
    (hstart : Inv hi s) (hturn : ∀ i s, lo ≤ i → i < hi → Inv (i + 1) s →
      ∃ s', body i s = some s' ∧ Inv i s') :
    ∃ s', forDown lo hi body s = some s' ∧ Inv (min lo hi) s' := by
  unfold forDown
  generalize hcount : hi - lo = count
  induction count generalizing hi s with
  | zero =>
      have hend : min lo hi = hi := by omega
      exact ⟨s, rfl, by rwa [hend]⟩
  | succ count ih =>
      have htop : hi - 1 + 1 = hi := by omega
      obtain ⟨s', hbody, hinv⟩ := hturn (hi - 1) s (by omega) (by omega) (by rwa [htop])
      obtain ⟨s'', hrest, hlast⟩ := ih hinv (fun i s hi hi' => hturn i s hi (by omega)) (by omega)
      have hend : min lo hi = min lo (hi - 1) := by omega
      have hfirst : lo + count = hi - 1 := by omega
      refine ⟨s'', ?_, by rwa [hend]⟩
      rw [List.range'_concat, List.reverse_append, Nat.one_mul, hfirst]
      simp only [List.reverse_cons, List.reverse_nil, List.nil_append, List.cons_append,
        List.foldlM_cons, hbody]
      exact hrest

/-- A loop over a list: what each turn hands on holds of all that it has been through. -/
theorem foldlM_rule {α : Type*} {step : S → α → Option S} (Inv : List α → S → Prop)
    {l : List α} {s : S} (hstart : Inv [] s)
    (hturn : ∀ seen a rest s, l = seen ++ a :: rest → Inv seen s →
      ∃ s', step s a = some s' ∧ Inv (seen ++ [a]) s') :
    ∃ s', l.foldlM step s = some s' ∧ Inv l s' := by
  induction l using List.reverseRecOn with
  | nil => exact ⟨s, rfl, hstart⟩
  | append_singleton l a ih =>
      obtain ⟨mid, hmid, hinv⟩ := ih fun seen b rest s hl =>
        hturn seen b (rest ++ [a]) s (by rw [hl, List.append_assoc, List.cons_append])
      obtain ⟨s', hlast, hinv'⟩ := hturn l a [] mid rfl hinv
      refine ⟨s', ?_, hinv'⟩
      rw [List.foldlM_append, hmid]
      simpa using hlast

/-- A loop over a list: what each turn leaves for the rest of it. -/
theorem foldlM_rest {α : Type*} {step : S → α → Option S} (Inv : List α → S → Prop)
    {l : List α} {s : S} (hstart : Inv l s)
    (hturn : ∀ a rest s, Inv (a :: rest) s → ∃ s', step s a = some s' ∧ Inv rest s') :
    ∃ s', l.foldlM step s = some s' ∧ Inv [] s' := by
  induction l generalizing s with
  | nil => exact ⟨s, rfl, hstart⟩
  | cons a rest ih =>
      obtain ⟨mid, hmid, hinv⟩ := hturn a rest s hstart
      obtain ⟨s', hrest, hlast⟩ := ih hinv
      refine ⟨s', ?_, hlast⟩
      rw [List.foldlM_cons, hmid]
      exact hrest

/-- What every turn keeps holds at the end, if there is an end. -/
theorem foldlM_invariant {α : Type*} {step : S → α → Option S} (Inv : S → Prop)
    (hkeep : ∀ s a s', Inv s → step s a = some s' → Inv s') {l : List α} {s s' : S}
    (hinv : Inv s) (hrun : l.foldlM step s = some s') : Inv s' := by
  induction l generalizing s with
  | nil =>
      obtain rfl : s = s' := Option.some.inj hrun
      exact hinv
  | cons a l ih =>
      rw [List.foldlM_cons] at hrun
      obtain ⟨mid, hmid, hrest⟩ := Option.bind_eq_some_iff.mp hrun
      exact ih (hkeep s a mid hinv hmid) hrest

/-! ## Fuel -/

/-- All fuel above some gives the one result. -/
def Enough (size : Nat) (f : Nat → Option R) (result : R) : Prop :=
  ∀ fuel, size < fuel → f fuel = some result

theorem Enough.succ {size : Nat} {f : Nat → Option R} {result : R}
    (h : ∀ fuel, size ≤ fuel → f (fuel + 1) = some result) : Enough size f result := by
  intro fuel hfuel
  cases fuel with
  | zero => exact absurd hfuel (Nat.not_lt_zero _)
  | succ fuel => exact h fuel (Nat.le_of_lt_succ hfuel)

end MoreCpp.Library
