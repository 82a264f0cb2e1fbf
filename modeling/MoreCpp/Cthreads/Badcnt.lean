import MoreCpp.Library.TransitionSystem
import Mathlib.Algebra.BigOperators.Group.Finset.Basic

/-!
`cthreads/badcnt.c`: two threads count up to the same number each, in one counter, and what
they do between `sem_wait` and `sem_post` is not one step. What `atoi` gives is any `int`.
-/

namespace MoreCpp.Badcnt

open Library

inductive Tid where
  | tid1
  | tid2
deriving DecidableEq

instance : Fintype Tid := ⟨{.tid1, .tid2}, fun t => by cases t <;> decide⟩

/-- Where a thread is in its loop. -/
inductive Pc where
  | notCreated
  /-- `i < niters`. -/
  | test (i : Nat)
  | wait (i : Nat)
  /-- `cnt++`, of which this reads `cnt`. -/
  | read (i : Nat)
  | write (i : Nat) (value : Int64)
  | post (i : Nat)
  | returned

inductive Main where
  | create (t : Tid)
  | join (t : Tid)
  | print
  | exited (line : String)

def Main.afterCreate : Tid → Main
  | .tid1 => .create .tid2
  | .tid2 => .join .tid1

def Main.afterJoin : Tid → Main
  | .tid1 => .join .tid2
  | .tid2 => .print

structure State where
  cnt : Int64
  /-- The value of the semaphore. -/
  mutex : Nat
  main : Main
  pc : Tid → Pc

def line (niters cnt : Int64) : String :=
  if cnt ≠ 2 * niters then "BOOM! cnt=" ++ toString cnt ++ "\n"
  else "OK cnt=" ++ toString cnt ++ "\n"

/-- A step of the main thread, or of one of the two others. -/
inductive Step (niters : Int64) : State → Option Tid → State → Prop where
  | create {s t} (hmain : s.main = .create t) : Step niters s none
      { s with main := .afterCreate t, pc := Function.update s.pc t (.test 0) }
  | join {s t} (hmain : s.main = .join t) (hpc : s.pc t = .returned) :
      Step niters s none { s with main := .afterJoin t }
  | print {s} (hmain : s.main = .print) :
      Step niters s none { s with main := .exited (line niters s.cnt) }
  | test {s t} {i : Nat} (hpc : s.pc t = .test i) (hi : (i : Int) < niters.toInt) :
      Step niters s (some t) { s with pc := Function.update s.pc t (.wait i) }
  | leave {s t} {i : Nat} (hpc : s.pc t = .test i) (hi : niters.toInt ≤ i) :
      Step niters s (some t) { s with pc := Function.update s.pc t .returned }
  | wait {s t i} (hpc : s.pc t = .wait i) (hmutex : 0 < s.mutex) : Step niters s (some t)
      { s with mutex := s.mutex - 1, pc := Function.update s.pc t (.read i) }
  | read {s t i} (hpc : s.pc t = .read i) :
      Step niters s (some t) { s with pc := Function.update s.pc t (.write i s.cnt) }
  | write {s t i value} (hpc : s.pc t = .write i value) : Step niters s (some t)
      { s with cnt := value + 1, pc := Function.update s.pc t (.post i) }
  | post {s t i} (hpc : s.pc t = .post i) : Step niters s (some t)
      { s with mutex := s.mutex + 1, pc := Function.update s.pc t (.test (i + 1)) }

def start : State := ⟨0, 1, .create .tid1, fun _ => .notCreated⟩

def system (niters : Int64) : System State (Option Tid) where
  Init s := s = start
  Step := Step niters

/-! ## The invariant -/

/-- Between `sem_wait` and `sem_post`. -/
def Pc.inside : Pc → Bool
  | .read _ | .write _ _ | .post _ => true
  | _ => false

/-- How many times a thread has counted that goes round `n` times. -/
def Pc.counted (n : Nat) : Pc → Nat
  | .notCreated => 0
  | .test i | .wait i | .read i | .write i _ => i
  | .post i => i + 1
  | .returned => n

/-- How many steps a thread has left. -/
def Pc.left (n : Nat) : Pc → Nat
  | .notCreated => 5 * n + 1
  | .test i => 5 * (n - i) + 1
  | .wait i => 5 * (n - i)
  | .read i => 5 * (n - i) - 1
  | .write i _ => 5 * (n - i) - 2
  | .post i => 5 * (n - i) - 3
  | .returned => 0

def Main.left : Main → Nat
  | .create .tid1 => 5
  | .create .tid2 => 4
  | .join .tid1 => 3
  | .join .tid2 => 2
  | .print => 1
  | .exited _ => 0

/-- The threads that there are while the main thread is here. -/
def Main.created : Main → Tid → Bool
  | .create _, .tid2 => false
  | .create .tid1, .tid1 => false
  | _, _ => true

/-- The threads that are joined by then. -/
def Main.joined : Main → Tid → Bool
  | .join .tid2, .tid1 => true
  | .print, _ => true
  | .exited _, _ => true
  | _, _ => false

/-- What a thread knows of the counter. -/
def Pc.Fits (n : Nat) (cnt : Int64) : Pc → Prop
  | .notCreated | .returned => True
  | .test i => i ≤ n
  | .wait i | .read i | .post i => i < n
  | .write i value => i < n ∧ value = cnt

structure Inv (niters : Int64) (s : State) : Prop where
  created : ∀ t, s.pc t = .notCreated ↔ s.main.created t = false
  joined : ∀ t, s.main.joined t = true → s.pc t = .returned
  mutex : s.mutex + countThreads (fun pc => pc.inside = true) s.pc = 1
  cnt : s.cnt = Int64.ofNat (∑ t, (s.pc t).counted niters.toInt.toNat)
  fits : ∀ t, (s.pc t).Fits niters.toInt.toNat s.cnt
  exited : ∀ l, s.main = .exited l → l = line niters s.cnt

variable {niters : Int64} {s s' : State} {t u : Tid} {p q : Pc}

theorem Inv.initial : Inv niters start where
  created t := by cases t <;> exact ⟨fun _ => rfl, fun _ => rfl⟩
  joined t h := by cases t <;> cases h
  mutex := by
    have hnobody := (countThreads_eq_zero_iff (fun pc : Pc => pc.inside = true) start.pc).mpr
      fun _ => Bool.false_ne_true
    rw [hnobody]
    rfl
  cnt := rfl
  fits _ := trivial
  exited _ h := by cases h

namespace Inv

/-- Mutual exclusion. -/
theorem alone (h : Inv niters s) (ht : (s.pc t).inside = true) (hu : (s.pc u).inside = true) :
    u = t := by
  have hone : countThreads (fun pc => pc.inside = true) s.pc ≤ 1 := by
    have hmutex := h.mutex
    omega
  exact Finset.card_le_one.mp hone u (by simpa using hu) t (by simpa using ht)

theorem fitsAt (h : Inv niters s) (hpc : s.pc t = p) : p.Fits niters.toInt.toNat s.cnt :=
  hpc ▸ h.fits t

theorem fits_of_alone (h : Inv niters s) (ht : (s.pc t).inside = true) (hne : u ≠ t)
    (cnt : Int64) : (s.pc u).Fits niters.toInt.toNat cnt := by
  have hfits := h.fits u
  cases hu : s.pc u with
  | write i value => exact absurd (h.alone ht (by rw [hu]; rfl)) hne
  | _ =>
      rw [hu] at hfits
      exact hfits

/-- A thread moves, or begins. -/
theorem moved (h : Inv niters s) {cnt : Int64} {mutex : Nat} {main : Main} (hpc : s.pc t = p)
    (hcreated : ∀ u, Function.update s.pc t q u = .notCreated ↔ main.created u = false)
    (hjoined : ∀ u, main.joined u = true → Function.update s.pc t q u = .returned)
    (hmutex : mutex + (if q.inside = true then 1 else 0) =
      s.mutex + if p.inside = true then 1 else 0)
    (hcnt : cnt = s.cnt ∧ q.counted niters.toInt.toNat = p.counted niters.toInt.toNat ∨
      p.inside = true ∧ cnt = s.cnt + 1 ∧
        q.counted niters.toInt.toNat = p.counted niters.toInt.toNat + 1)
    (hfits : q.Fits niters.toInt.toNat cnt) (hexited : ∀ l, main ≠ .exited l) :
    Inv niters ⟨cnt, mutex, main, Function.update s.pc t q⟩ := by
  have hcount := countThreads_update (fun pc : Pc => pc.inside = true) s.pc t q
  have hsum := sum_threads_update (Pc.counted niters.toInt.toNat) s.pc t q
  have hone := h.mutex
  have hcnt' := h.cnt
  rw [hpc] at hcount hsum
  refine ⟨hcreated, hjoined, ?_, ?_, fun u => ?_, fun l hl => absurd hl (hexited l)⟩
  · dsimp only at hcount ⊢
    omega
  · obtain ⟨rfl, hsame⟩ | ⟨-, rfl, hmore⟩ := hcnt
    · rw [hsame, Nat.add_right_cancel_iff] at hsum
      simp only [hsum, hcnt']
    · rw [hmore, ← Nat.add_assoc, Nat.add_right_comm, Nat.add_right_cancel_iff] at hsum
      simp only [hsum, hcnt', Int64.ofNat_add]
      rfl
  · dsimp only
    rcases eq_or_ne u t with rfl | hne
    · rw [Function.update_self]
      exact hfits
    · rw [Function.update_of_ne hne]
      obtain ⟨rfl, -⟩ | ⟨hinside, -⟩ := hcnt
      · exact h.fits u
      · exact h.fits_of_alone (hpc ▸ hinside) hne cnt

/-- A thread goes on in its loop. -/
theorem move (h : Inv niters s) {cnt : Int64} {mutex : Nat} (hpc : s.pc t = p)
    (hp : p ≠ .notCreated) (hrunning : p ≠ .returned) (hq : q ≠ .notCreated)
    (hmutex : mutex + (if q.inside = true then 1 else 0) =
      s.mutex + if p.inside = true then 1 else 0)
    (hcnt : cnt = s.cnt ∧ q.counted niters.toInt.toNat = p.counted niters.toInt.toNat ∨
      p.inside = true ∧ cnt = s.cnt + 1 ∧
        q.counted niters.toInt.toNat = p.counted niters.toInt.toNat + 1)
    (hfits : q.Fits niters.toInt.toNat cnt) :
    Inv niters ⟨cnt, mutex, s.main, Function.update s.pc t q⟩ := by
  have hnotJoined : s.main.joined t ≠ true := fun hjoined =>
    hrunning (hpc ▸ h.joined t hjoined)
  refine h.moved hpc (fun u => ?_) (fun u hu => ?_) hmutex hcnt hfits fun l hl => ?_
  · rcases eq_or_ne u t with rfl | hne
    · have hcreated := h.created u
      rw [hpc] at hcreated
      rw [Function.update_self]
      exact iff_of_false hq fun hnot => hp (hcreated.mpr hnot)
    · rw [Function.update_of_ne hne]
      exact h.created u
  · rcases eq_or_ne u t with rfl | hne
    · exact absurd hu hnotJoined
    · rw [Function.update_of_ne hne]
      exact h.joined u hu
  · have hjoined : s.main.joined t = true := by
      rw [hl]
      cases t <;> rfl
    exact absurd hjoined hnotJoined

theorem create (h : Inv niters s) (hmain : s.main = .create t) : Inv niters
    { s with main := .afterCreate t, pc := Function.update s.pc t (.test 0) } := by
  have hcreated := h.created
  rw [hmain] at hcreated
  have hpc : s.pc t = .notCreated := (hcreated t).mpr (by cases t <;> rfl)
  refine h.moved hpc (fun u => ?_) (fun u hu => ?_) rfl (.inl ⟨rfl, rfl⟩) (Nat.zero_le _) ?_
  · rcases eq_or_ne u t with rfl | hne
    · rw [Function.update_self]
      cases u <;> exact iff_of_false nofun nofun
    · rw [Function.update_of_ne hne, hcreated u]
      cases t <;> cases u <;> first | rfl | exact absurd rfl hne
  · cases t <;> cases u <;> cases hu
  · cases t <;> exact nofun

theorem join (h : Inv niters s) (hmain : s.main = .join t) (hpc : s.pc t = .returned) :
    Inv niters { s with main := .afterJoin t } := by
  have hcreated := h.created
  have hjoined := h.joined
  rw [hmain] at hcreated hjoined
  refine ⟨fun u => (hcreated u).trans ?_, fun u hu => ?_, h.mutex, h.cnt, h.fits, ?_⟩
  · cases t <;> cases u <;> rfl
  · rcases eq_or_ne u t with rfl | hne
    · exact hpc
    · refine hjoined u ?_
      cases t <;> cases u <;> first | rfl | exact absurd rfl hne | cases hu
  · cases t <;> exact nofun

theorem print (h : Inv niters s) (hmain : s.main = .print) :
    Inv niters { s with main := .exited (line niters s.cnt) } := by
  have hcreated := h.created
  have hjoined := h.joined
  rw [hmain] at hcreated hjoined
  refine ⟨fun u => (hcreated u).trans ?_, fun u _ => hjoined u ?_, h.mutex, h.cnt, h.fits, ?_⟩
  · cases u <;> rfl
  · cases u <;> rfl
  · rintro l ⟨rfl⟩
    rfl

theorem step (h : Inv niters s) {label : Option Tid} (hstep : Step niters s label s') :
    Inv niters s' := by
  cases hstep with
  | create hmain => exact h.create hmain
  | join hmain hpc => exact h.join hmain hpc
  | print hmain => exact h.print hmain
  | test hpc hi => exact h.move hpc nofun nofun nofun rfl (.inl ⟨rfl, rfl⟩) (Int.lt_toNat.mpr hi)
  | @leave _ i hpc hi =>
      have hcounted : niters.toInt.toNat = i :=
        Nat.le_antisymm (Int.toNat_le.mpr hi) (h.fitsAt hpc)
      exact h.move hpc nofun nofun nofun rfl (.inl ⟨rfl, hcounted⟩) trivial
  | wait hpc hmutex =>
      have hi := h.fitsAt hpc
      exact h.move hpc nofun nofun nofun (Nat.sub_add_cancel hmutex) (.inl ⟨rfl, rfl⟩) hi
  | read hpc => exact h.move hpc nofun nofun nofun rfl (.inl ⟨rfl, rfl⟩) ⟨h.fitsAt hpc, rfl⟩
  | write hpc =>
      obtain ⟨hi, rfl⟩ := h.fitsAt hpc
      exact h.move hpc nofun nofun nofun rfl (.inr ⟨rfl, rfl, rfl⟩) hi
  | post hpc =>
      exact h.move hpc nofun nofun nofun rfl (.inl ⟨rfl, rfl⟩) (Nat.succ_le_of_lt (h.fitsAt hpc))

end Inv

theorem inv_of_reachable (hs : (system niters).Reachable s) : Inv niters s :=
  System.reachable_invariant (system niters) (Inv niters) (fun _ hinit => hinit ▸ .initial)
    (fun _ _ _ _ h hstep => h.step hstep) s hs

/-! ## Every run ends -/

/-- How many steps there are before the main thread exits. -/
def State.left (niters : Int64) (s : State) : Nat :=
  s.main.left + ∑ t, (s.pc t).left niters.toInt.toNat

theorem Inv.left_step (h : Inv niters s) {label : Option Tid}
    (hstep : Step niters s label s') : s'.left niters + 1 = s.left niters := by
  have hupdate := sum_threads_update (Pc.left niters.toInt.toNat) s.pc
  cases hstep with
  | @create t hmain =>
      have hpc : s.pc t = .notCreated := (h.created t).mpr (by rw [hmain]; cases t <;> rfl)
      have hsum := hupdate t (.test 0)
      rw [hpc] at hsum
      simp only [State.left, hmain]
      cases t <;> simp only [Main.left, Main.afterCreate, Pc.left] at hsum ⊢ <;> omega
  | @join t hmain hpc =>
      simp only [State.left, hmain]
      cases t <;> simp only [Main.left, Main.afterJoin] <;> omega
  | print hmain =>
      simp only [State.left, hmain, Main.left]
      omega
  | @test t i hpc hi =>
      have hsum := hupdate t (.wait i)
      rw [hpc] at hsum
      simp only [State.left, Pc.left] at hsum ⊢
      omega
  | @leave t i hpc hi =>
      have hsum := hupdate t .returned
      rw [hpc] at hsum
      simp only [State.left, Pc.left] at hsum ⊢
      omega
  | @wait t i hpc hmutex =>
      have hsum := hupdate t (.read i)
      have hi := h.fitsAt hpc
      rw [hpc] at hsum
      simp only [State.left, Pc.left, Pc.Fits] at hsum hi ⊢
      omega
  | @read t i hpc =>
      have hsum := hupdate t (.write i s.cnt)
      have hi := h.fitsAt hpc
      rw [hpc] at hsum
      simp only [State.left, Pc.left, Pc.Fits] at hsum hi ⊢
      omega
  | @write t i value hpc =>
      have hsum := hupdate t (.post i)
      have hi := (h.fitsAt hpc).1
      rw [hpc] at hsum
      simp only [State.left, Pc.left] at hsum ⊢
      omega
  | @post t i hpc =>
      have hsum := hupdate t (.test (i + 1))
      have hi := h.fitsAt hpc
      rw [hpc] at hsum
      simp only [State.left, Pc.left, Pc.Fits] at hsum hi ⊢
      omega

theorem left_run {labels : List (Option Tid)} (hrun : (system niters).Run start labels s) :
    labels.length + s.left niters = 10 * niters.toInt.toNat + 7 := by
  have hreach : ∀ {s labels}, (system niters).Run start labels s → (system niters).Reachable s :=
    fun hrun => System.Reachable.run _ (.start rfl) hrun
  generalize hstart : start = s₀ at hrun
  induction hrun with
  | refl =>
      subst hstart
      simp only [State.left, start, Main.left, Pc.left, Finset.sum_const, List.length_nil]
      change 0 + (5 + 2 * _) = _
      omega
  | snoc hrun hlast ih =>
      subst hstart
      have hleft := (inv_of_reachable (hreach hrun)).left_step hlast
      rw [List.length_append, List.length_singleton]
      omega

namespace Inv

/-- While somebody is between `sem_wait` and `sem_post`, that thread goes on. -/
theorem goes_on (h : Inv niters s) (ht : s.pc t ≠ .notCreated) (hrunning : s.pc t ≠ .returned) :
    ∃ label s', Step niters s label s' := by
  by_cases hinside : ∃ u, (s.pc u).inside = true
  · obtain ⟨u, hu⟩ := hinside
    cases hpc : s.pc u with
    | read i => exact ⟨_, _, .read hpc⟩
    | write i value => exact ⟨_, _, .write hpc⟩
    | post i => exact ⟨_, _, .post hpc⟩
    | _ =>
        rw [hpc] at hu
        cases hu
  · have hfree : 0 < s.mutex := by
      have hnobody := (countThreads_eq_zero_iff (fun pc : Pc => pc.inside = true) s.pc).mpr
        fun u hu => hinside ⟨u, hu⟩
      have hmutex := h.mutex
      omega
    cases hpc : s.pc t with
    | notCreated => exact absurd hpc ht
    | returned => exact absurd hpc hrunning
    | test i =>
        by_cases hi : (i : Int) < niters.toInt
        · exact ⟨_, _, .test hpc hi⟩
        · exact ⟨_, _, .leave hpc (Int.not_lt.mp hi)⟩
    | wait i => exact ⟨_, _, .wait hpc hfree⟩
    | read i => exact absurd ⟨t, by rw [hpc]; rfl⟩ hinside
    | write i value => exact absurd ⟨t, by rw [hpc]; rfl⟩ hinside
    | post i => exact absurd ⟨t, by rw [hpc]; rfl⟩ hinside

theorem not_stuck (h : Inv niters s) :
    (∃ label s', Step niters s label s') ∨ ∃ l, s.main = .exited l := by
  cases hmain : s.main with
  | create t => exact .inl ⟨_, _, .create hmain⟩
  | join t =>
      by_cases hpc : s.pc t = .returned
      · exact .inl ⟨_, _, .join hmain hpc⟩
      · refine .inl (h.goes_on (fun hnot => ?_) hpc)
        have hcreated := (h.created t).mp hnot
        rw [hmain] at hcreated
        cases t <;> cases hcreated
  | print => exact .inl ⟨_, _, .print hmain⟩
  | exited l => exact .inr ⟨l, rfl⟩

end Inv

/-! ## What is printed -/

/-- Both threads have counted as far as they should. -/
theorem Inv.cnt_exited (h : Inv niters s) {l : String} (hexited : s.main = .exited l) :
    s.cnt = Int64.ofNat (2 * niters.toInt.toNat) := by
  have hreturned : ∀ t, (s.pc t).counted niters.toInt.toNat = niters.toInt.toNat := by
    intro t
    rw [h.joined t (by rw [hexited]; cases t <;> rfl)]
    rfl
  rw [h.cnt, Finset.sum_congr rfl fun t _ => hreturned t, Finset.sum_const]
  rfl

theorem line_eq (niters : Int32) :
    line niters.toInt64 (Int64.ofNat (2 * niters.toInt64.toInt.toNat)) =
      if 0 ≤ niters then "OK cnt=" ++ toString (2 * niters.toInt) ++ "\n"
      else "BOOM! cnt=0\n" := by
  have hlow := niters.le_toInt
  have hhigh := niters.toInt_lt
  have hdouble : 2 * niters.toInt64 = Int64.ofInt (2 * niters.toInt) := by
    rw [Int64.ofInt_mul, ← Int32.toInt_toInt64, Int64.ofInt_toInt]
    rfl
  have htwice : (2 * niters.toInt64).toInt = 2 * niters.toInt := by
    rw [hdouble, Int64.toInt_ofInt_of_le (by omega) (by omega)]
  rw [Int32.toInt_toInt64, line]
  by_cases hsign : 0 ≤ niters
  · have hpos : 0 ≤ niters.toInt := Int32.le_iff_toInt_le.mp hsign
    have hsame : Int64.ofNat (2 * niters.toInt.toNat) = 2 * niters.toInt64 := by
      rw [hdouble, ← Int64.ofInt_eq_ofNat, Int.natCast_mul, Int.toNat_of_nonneg hpos]
      rfl
    rw [hsame, if_neg (not_not_intro rfl), if_pos hsign]
    change "OK cnt=" ++ toString (2 * niters.toInt64).toInt ++ "\n" = _
    rw [htwice]
  · have hneg : niters.toInt < 0 := Int.not_le.mp fun hle => hsign (Int32.le_iff_toInt_le.mpr hle)
    have hzero : niters.toInt.toNat = 0 := Int.toNat_of_nonpos (Int.le_of_lt hneg)
    have hother : (0 : Int64) ≠ 2 * niters.toInt64 := by
      intro heq
      rw [← heq] at htwice
      change (0 : Int) = _ at htwice
      omega
    rw [hzero, if_neg hsign]
    exact if_pos hother

/-- Whatever the two threads do in turn: a run ends after a number of steps that is always the
same, the threads are never both between `sem_wait` and `sem_post`, and both counts are in
what is printed at the end. -/
theorem prints (niters : Int32) {labels : List (Option Tid)}
    (hrun : (system niters.toInt64).Run start labels s) :
    labels.length ≤ 10 * niters.toInt.toNat + 7 ∧
    (∀ t u, (s.pc t).inside = true → (s.pc u).inside = true → u = t) ∧
    (∀ l, s.main = .exited l → l =
      if 0 ≤ niters then "OK cnt=" ++ toString (2 * niters.toInt) ++ "\n" else "BOOM! cnt=0\n") ∧
    ((∃ label s', Step niters.toInt64 s label s') ∨ ∃ l, s.main = .exited l) := by
  have h : Inv niters.toInt64 s := inv_of_reachable (System.Reachable.run _ (.start rfl) hrun)
  have hleft := left_run hrun
  rw [Int32.toInt_toInt64] at hleft
  refine ⟨by omega, fun t u => h.alone, fun l hl => ?_, h.not_stuck⟩
  rw [h.exited l hl, h.cnt_exited hl, line_eq]

/-- Both threads count to one, the second while the first waits. -/
theorem prints_once : ∃ labels s, (system (1 : Int32).toInt64).Run start labels s ∧
    labels.length ≤ 17 ∧ s.main = .exited "OK cnt=2\n" := by
  have begin : (system (1 : Int32).toInt64).Run start [] start := .refl start
  have create1 := begin.snoc (.create rfl)
  have create2 := create1.snoc (.create rfl)
  have test1 := create2.snoc (.test (t := .tid1) rfl (by decide))
  have test2 := test1.snoc (.test (t := .tid2) rfl (by decide))
  have wait2 := test2.snoc (.wait (t := .tid2) rfl (by decide))
  have read2 := wait2.snoc (.read (t := .tid2) rfl)
  have write2 := read2.snoc (.write (t := .tid2) rfl)
  have post2 := write2.snoc (.post (t := .tid2) rfl)
  have wait1 := post2.snoc (.wait (t := .tid1) rfl (by decide))
  have read1 := wait1.snoc (.read (t := .tid1) rfl)
  have write1 := read1.snoc (.write (t := .tid1) rfl)
  have post1 := write1.snoc (.post (t := .tid1) rfl)
  have leave1 := post1.snoc (.leave (t := .tid1) rfl (by decide))
  have leave2 := leave1.snoc (.leave (t := .tid2) rfl (by decide))
  have join1 := leave2.snoc (.join rfl rfl)
  have join2 := join1.snoc (.join rfl rfl)
  have print := join2.snoc (.print rfl)
  obtain ⟨hlength, -, hline, -⟩ := prints 1 print
  exact ⟨_, _, print, hlength, congrArg Main.exited ((hline _ rfl).trans (by decide))⟩

end MoreCpp.Badcnt
