import MoreCpp.Concurrency.Dns.Cache
import Mathlib.Tactic.Simps.Basic

/-!
`example_condition_variable` of `concurrency/dns.cpp`: the main thread pushes domains
to a `dns_work_queue`, stops it and joins the workers, which look the domains up and
cache what they find. Each mutex is taken and released in steps of their own, waiting
releases `queue_mutex`, notifications are sent after the release, and a waiter may wake
up spuriously. A mutex is free when nobody stands between the two steps. Sleeping is left
out, and allocations succeed.
-/

namespace MoreCpp.Dns

open Library
open Std (TreeMap)

def fakeDnsLookup (domain : String) : DnsEntry :=
  if domain = "example.com" then ⟨"93.184.216.34", 300⟩
  else if domain = "cppreference.com" then ⟨"151.101.193.69", 180⟩
  else if domain = "openai.com" then ⟨"172.64.154.211", 120⟩
  else if domain = "ietf.org" then ⟨"104.16.45.99", 240⟩
  else ⟨"203.0.113." ++ toString domain.utf8ByteSize, 60⟩

/-- What `example_futures` caches for its domains, one after the other. -/
def exampleFutures (domains : List String) : Entries :=
  domains.foldl (fun entries domain =>
    (entries.insertIfNew domain .fresh).insert domain (fakeDnsLookup domain)) ∅

/-- What a worker prints: a domain with its entry, or that it stops. -/
abbrev Line := Option (String × DnsEntry)

/-- Program points, with the locals that are live there. -/
inductive Pc where
  /-- The main thread is about to push the first of the domains left, or to stop the queue. -/
  | pushing (todo : List String)
  /-- `domains.push(std::move(domain))`. -/
  | pushStore (domain : String) (todo : List String)
  | pushUnlock (todo : List String)
  | pushNotify (todo : List String)
  /-- `stopped = true`. -/
  | stopSet
  | stopUnlock
  | stopNotify
  | joining
  /-- All workers have returned. -/
  | joined
  /-- A worker calls `pop`, or has been woken up in it. -/
  | waitLock
  /-- The predicate `stopped || !domains.empty()`. -/
  | waitTest
  /-- The predicate was false: about to release `queue_mutex` and block. -/
  | waitSleep
  | blocked
  /-- `if (domains.empty())`. -/
  | popTest
  /-- Move `domains.front()` out and pop it. -/
  | popTake
  | popReturn (result : Option String)
  /-- `fake_dns_lookup(*domain)`. -/
  | lookingUp (domain : String)
  | updateLock (domain : String) (entry : DnsEntry)
  | updateInsert (domain : String) (entry : DnsEntry)
  | updateAssign (domain : String) (entry : DnsEntry)
  | updateUnlock (domain : String) (entry : DnsEntry)
  | printLock (line : Line)
  | printing (line : Line)
  | printUnlock (line : Line)
  /-- The worker has returned. -/
  | exited

namespace Pc

def HoldsQueue : Pc → Bool
  | .pushStore _ _ | .pushUnlock _ | .stopSet | .stopUnlock | .waitTest | .waitSleep
  | .popTest | .popTake | .popReturn _ => true
  | _ => false

def HoldsEntries : Pc → Bool
  | .updateInsert _ _ | .updateAssign _ _ | .updateUnlock _ _ => true
  | _ => false

def HoldsPrinter : Pc → Bool
  | .printing _ | .printUnlock _ => true
  | _ => false

/-- Blocked in `wait` and not notified. -/
def Blocked : Pc → Bool
  | .blocked => true
  | _ => false

end Pc

/-- The main thread is `none`. -/
structure State (Worker : Type*) where
  items : List String
  stopped : Bool
  entries : Entries
  output : List (Worker × Line)
  pc : Option Worker → Pc

variable {Worker : Type*}

def State.initial (Worker : Type*) (domains : List String) : State Worker where
  items := []
  stopped := false
  entries := ∅
  output := []
  pc
    | none => .pushing domains
    | some _ => .waitLock

namespace State

variable (s : State Worker)

@[simps -fullyApplied] def goto [DecidableEq Worker] (t : Option Worker) (pc : Pc) :
    State Worker :=
  { s with pc := Function.update s.pc t pc }

@[simps -fullyApplied] def queue (items : List String) (stopped : Bool) : State Worker :=
  { s with items := items, stopped := stopped }

@[simps -fullyApplied] def cache (entries : Entries) : State Worker :=
  { s with entries := entries }

@[simps -fullyApplied] def print (worker : Worker) (line : Line) : State Worker :=
  { s with output := s.output ++ [(worker, line)] }

/-- Every blocked worker goes back to acquiring `queue_mutex`. -/
@[simps -fullyApplied] def wakeAll : State Worker :=
  { s with pc := fun t => if (s.pc t).Blocked then .waitLock else s.pc t }

/-- Nobody stands where `holds` is true. -/
def Free (holds : Pc → Bool) : Prop := ∀ t, holds (s.pc t) = false

end State

inductive Label (Worker : Type*) where
  | run (t : Option Worker)
  /-- A spurious wake-up. -/
  | wake (worker : Worker)

def Label.isWake : Label Worker → Bool
  | .run _ => false
  | .wake _ => true

variable [DecidableEq Worker]

inductive WorkStep : State Worker → Label Worker → State Worker → Prop where
  | pushLock {s domain todo} (hpc : s.pc none = .pushing (domain :: todo))
      (hfree : s.Free Pc.HoldsQueue) :
      WorkStep s (.run none) (s.goto none (.pushStore domain todo))
  | pushStore {s domain todo} (hpc : s.pc none = .pushStore domain todo) :
      WorkStep s (.run none)
        ((s.queue (s.items ++ [domain]) s.stopped).goto none (.pushUnlock todo))
  | pushUnlock {s todo} (hpc : s.pc none = .pushUnlock todo) :
      WorkStep s (.run none) (s.goto none (.pushNotify todo))
  /-- `notify_one` wakes one of the blocked workers. -/
  | notifyOne {s todo w} (hpc : s.pc none = .pushNotify todo) (hblocked : s.pc (some w) = .blocked) :
      WorkStep s (.run none) ((s.goto (some w) .waitLock).goto none (.pushing todo))
  /-- `notify_one` with nobody blocked does nothing. -/
  | notifyNobody {s todo} (hpc : s.pc none = .pushNotify todo) (hnobody : s.Free Pc.Blocked) :
      WorkStep s (.run none) (s.goto none (.pushing todo))
  | stopLock {s} (hpc : s.pc none = .pushing []) (hfree : s.Free Pc.HoldsQueue) :
      WorkStep s (.run none) (s.goto none .stopSet)
  | stopSet {s} (hpc : s.pc none = .stopSet) :
      WorkStep s (.run none) ((s.queue s.items true).goto none .stopUnlock)
  | stopUnlock {s} (hpc : s.pc none = .stopUnlock) :
      WorkStep s (.run none) (s.goto none .stopNotify)
  | stopNotify {s} (hpc : s.pc none = .stopNotify) :
      WorkStep s (.run none) (s.wakeAll.goto none .joining)
  | join {s} (hpc : s.pc none = .joining) (hexited : ∀ w, s.pc (some w) = .exited) :
      WorkStep s (.run none) (s.goto none .joined)
  | waitLock {s w} (hpc : s.pc (some w) = .waitLock) (hfree : s.Free Pc.HoldsQueue) :
      WorkStep s (.run (some w)) (s.goto (some w) .waitTest)
  | waitReady {s w} (hpc : s.pc (some w) = .waitTest)
      (hready : s.stopped = true ∨ s.items ≠ []) :
      WorkStep s (.run (some w)) (s.goto (some w) .popTest)
  | waitNotReady {s w} (hpc : s.pc (some w) = .waitTest) (hrunning : s.stopped = false)
      (hempty : s.items = []) : WorkStep s (.run (some w)) (s.goto (some w) .waitSleep)
  | waitSleep {s w} (hpc : s.pc (some w) = .waitSleep) :
      WorkStep s (.run (some w)) (s.goto (some w) .blocked)
  | wakeSpuriously {s w} (hpc : s.pc (some w) = .blocked) :
      WorkStep s (.wake w) (s.goto (some w) .waitLock)
  | popEmpty {s w} (hpc : s.pc (some w) = .popTest) (hempty : s.items = []) :
      WorkStep s (.run (some w)) (s.goto (some w) (.popReturn none))
  | popSome {s w} (hpc : s.pc (some w) = .popTest) (hsome : s.items ≠ []) :
      WorkStep s (.run (some w)) (s.goto (some w) .popTake)
  | popTake {s w domain rest} (hpc : s.pc (some w) = .popTake)
      (hitems : s.items = domain :: rest) :
      WorkStep s (.run (some w)) ((s.queue rest s.stopped).goto (some w) (.popReturn (some domain)))
  /-- The loop of the worker ends. -/
  | popNone {s w} (hpc : s.pc (some w) = .popReturn none) :
      WorkStep s (.run (some w)) (s.goto (some w) (.printLock none))
  | popDomain {s w domain} (hpc : s.pc (some w) = .popReturn (some domain)) :
      WorkStep s (.run (some w)) (s.goto (some w) (.lookingUp domain))
  | lookUp {s w domain} (hpc : s.pc (some w) = .lookingUp domain) :
      WorkStep s (.run (some w)) (s.goto (some w) (.updateLock domain (fakeDnsLookup domain)))
  | updateLock {s w domain entry} (hpc : s.pc (some w) = .updateLock domain entry)
      (hfree : s.Free Pc.HoldsEntries) :
      WorkStep s (.run (some w)) (s.goto (some w) (.updateInsert domain entry))
  | updateInsert {s w domain entry} (hpc : s.pc (some w) = .updateInsert domain entry) :
      WorkStep s (.run (some w))
        ((s.cache (s.entries.insertIfNew domain .fresh)).goto (some w) (.updateAssign domain entry))
  | updateAssign {s w domain entry} (hpc : s.pc (some w) = .updateAssign domain entry) :
      WorkStep s (.run (some w))
        ((s.cache (s.entries.insert domain entry)).goto (some w) (.updateUnlock domain entry))
  | updateUnlock {s w domain entry} (hpc : s.pc (some w) = .updateUnlock domain entry) :
      WorkStep s (.run (some w)) (s.goto (some w) (.printLock (some (domain, entry))))
  | printLock {s w line} (hpc : s.pc (some w) = .printLock line) (hfree : s.Free Pc.HoldsPrinter) :
      WorkStep s (.run (some w)) (s.goto (some w) (.printing line))
  | print {s w line} (hpc : s.pc (some w) = .printing line) :
      WorkStep s (.run (some w)) ((s.print w line).goto (some w) (.printUnlock line))
  | printedDomain {s w resolved} (hpc : s.pc (some w) = .printUnlock (some resolved)) :
      WorkStep s (.run (some w)) (s.goto (some w) .waitLock)
  | printedStop {s w} (hpc : s.pc (some w) = .printUnlock none) :
      WorkStep s (.run (some w)) (s.goto (some w) .exited)

/-- The main thread with its domains, and the workers. -/
def exampleConditionVariable (Worker : Type*) [DecidableEq Worker] (domains : List String) :
    System (State Worker) (Label Worker) where
  Init s := s = .initial Worker domains
  Step := WorkStep

end MoreCpp.Dns
