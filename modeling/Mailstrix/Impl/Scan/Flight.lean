import Mailstrix.Framework.Run

/-!
# Coalescing scans

`flight.go`: `doScan` as the steps that one caller takes between two points where another can
interfere.  What is done under `g.mu` is one step, a receive from a channel is one, and so is each
store that no lock covers.  Callers are numbered; caller `i` asks for `key i`, and its context may be
cancelled at any time.

A scan function may return a verdict, abort, or panic, at any time.
-/

namespace MS.Coalesce

open Framework

/-- How a scan function ends. -/
inductive Ending (O : Type)
  | returned (o : O)
  | aborted (o : O)
  | panicked
deriving DecidableEq

/-- What the flight is told: a panic counts as an abort. -/
def Ending.isAborted {O : Type} : Ending O → Bool
  | .returned _ => false
  | .aborted _ => true
  | .panicked => true

/-- What the leader stores in the flight; a panic leaves the zero outcome there. -/
def Ending.outcome {O : Type} (zero : O) : Ending O → O
  | .returned o => o
  | .aborted o => o
  | .panicked => zero

/-- `flight`, its two channels as whether they are closed. -/
structure Flight (O : Type) where
  started : Bool := false
  done : Bool := false
  outcome : O
  joiners : Int := 0
  shared : Bool := false
  aborted : Bool := false

/-- Where a caller is in `doScan`. -/
inductive Pc (O : Type)
  /-- Before the lock at the top of the loop. -/
  | enter
  /-- In the select; `listens` until the start was reported. -/
  | waiting (f : Nat) (listens : Bool)
  /-- Its context is done; before the lock under which it signs off. -/
  | cancelling (f : Nat)
  /-- `done` was closed. -/
  | woken (f : Nat)
  /-- Its scan function runs. -/
  | leading (f : Nat)
  /-- In `finishLeader`, before the lock, and before `done` is closed. -/
  | publishing (f : Nat) (r : Ending O)
  | closing (f : Nat) (r : Ending O)
  /-- Before the lock under which it reads `shared`. -/
  | reading (f : Nat) (o : O)
  /-- `cancelled` is the error of its own context. -/
  | returned (o : O) (shared cancelled : Bool)
  | panicked
deriving DecidableEq

/-- The flight that counts the caller as a joiner: it has joined and not signed off. -/
def Pc.awaits {O : Type} : Pc O → Option Nat
  | .waiting f _ => some f
  | .cancelling f => some f
  | _ => none

/-- `flightGroup`, with the flights ever made and the callers. -/
structure Group (K O : Type) where
  m : K → Option Nat := fun _ => none
  flights : Nat → Option (Flight O) := fun _ => none
  next : Nat := 0
  pc : Nat → Pc O := fun _ => .enter
  cancelled : Nat → Bool := fun _ => false

inductive FlightEvent (O : Type)
  /-- A caller finds no flight and leads one, or joins the one that is there. -/
  | led (i f : Nat)
  | joined (i f : Nat)
  /-- A scan function reports its start, and a follower hears it. -/
  | started (i f : Nat)
  | heard (i f : Nat)
  /-- A scan function ends. -/
  | ran (i f : Nat) (r : Ending O)
  /-- The two halves of `finishLeader`. -/
  | published (i f : Nat)
  | closed (i f : Nat)
  /-- The leader returns. -/
  | answered (i : Nat) (o : O) (shared : Bool)
  /-- A follower sees that `done` is closed, and returns the outcome, starts over or gives up. -/
  | woke (i f : Nat)
  | followed (i f : Nat) (o : O)
  | retried (i f : Nat)
  | abandoned (i f : Nat)
  /-- A follower sees that its context is done, and signs off. -/
  | gaveUp (i f : Nat)
  | left (i f : Nat)
  /-- The context of a caller is cancelled. -/
  | cancelled (i : Nat)

variable {K O : Type}

/-- Move one caller. -/
def Group.move (s : Group K O) (i : Nat) (pc : Pc O) : Group K O := { s with pc := Function.update s.pc i pc }

/-- Store a flight. -/
def Group.set (s : Group K O) (f : Nat) (fl : Flight O) : Group K O :=
  { s with flights := Function.update s.flights f (some fl) }

section

variable (s : Group K O) (i f : Nat) (pc : Pc O) (fl : Flight O)

@[simp] theorem Group.move_pc : (s.move i pc).pc i = pc := Function.update_self ..
@[simp] theorem Group.move_flights : (s.move i pc).flights = s.flights := rfl
@[simp] theorem Group.move_m : (s.move i pc).m = s.m := rfl
@[simp] theorem Group.move_next : (s.move i pc).next = s.next := rfl
@[simp] theorem Group.set_flights : (s.set f fl).flights f = some fl := Function.update_self ..
@[simp] theorem Group.set_pc : (s.set f fl).pc = s.pc := rfl
@[simp] theorem Group.set_m : (s.set f fl).m = s.m := rfl
@[simp] theorem Group.set_next : (s.set f fl).next = s.next := rfl

variable {i f}

theorem Group.move_pc_ne {j : Nat} (h : j ≠ i) : (s.move i pc).pc j = s.pc j := Function.update_of_ne h ..
theorem Group.set_flights_ne {f' : Nat} (h : f' ≠ f) : (s.set f fl).flights f' = s.flights f' :=
  Function.update_of_ne h ..

end

variable [DecidableEq K]

inductive FlightStep (zero : O) (key : Nat → K) : Group K O → FlightEvent O → Group K O → Prop
  | lead {s : Group K O} {i : Nat} : s.pc i = .enter → s.m (key i) = none →
      FlightStep zero key s (.led i s.next)
        { (s.move i (.leading s.next)).set s.next { outcome := zero } with
          m := Function.update s.m (key i) (some s.next), next := s.next + 1 }
  | join {s : Group K O} {i f : Nat} {fl : Flight O} : s.pc i = .enter → s.m (key i) = some f →
      s.flights f = some fl →
      FlightStep zero key s (.joined i f) ((s.move i (.waiting f true)).set f { fl with joiners := fl.joiners + 1 })
  | start {s : Group K O} {i f : Nat} {fl : Flight O} : s.pc i = .leading f → s.flights f = some fl →
      fl.started = false → FlightStep zero key s (.started i f) (s.set f { fl with started := true })
  | hear {s : Group K O} {i f : Nat} {fl : Flight O} : s.pc i = .waiting f true → s.flights f = some fl →
      fl.started = true → FlightStep zero key s (.heard i f) (s.move i (.waiting f false))
  | finish {s : Group K O} {i f : Nat} {fl : Flight O} (r : Ending O) : s.pc i = .leading f →
      s.flights f = some fl →
      FlightStep zero key s (.ran i f r) ((s.move i (.publishing f r)).set f { fl with outcome := r.outcome zero })
  | publish {s : Group K O} {i f : Nat} {fl : Flight O} {r : Ending O} : s.pc i = .publishing f r →
      s.flights f = some fl →
      FlightStep zero key s (.published i f)
        { (s.move i (.closing f r)).set f { fl with aborted := r.isAborted, shared := 0 < fl.joiners } with
          m := Function.update s.m (key i) none }
  /-- Closing a closed channel would panic. -/
  | close {s : Group K O} {i f : Nat} {fl : Flight O} {r : Ending O} : s.pc i = .closing f r →
      s.flights f = some fl → fl.done = false →
      FlightStep zero key s (.closed i f)
        ((s.move i (match r with
          | .returned o => .reading f o
          | .aborted o => .reading f o
          | .panicked => .panicked)).set f { fl with done := true })
  | answer {s : Group K O} {i f : Nat} {fl : Flight O} {o : O} : s.pc i = .reading f o → s.flights f = some fl →
      FlightStep zero key s (.answered i o fl.shared) (s.move i (.returned o fl.shared false))
  | wake {s : Group K O} {i f : Nat} {fl : Flight O} {l : Bool} : s.pc i = .waiting f l → s.flights f = some fl →
      fl.done = true → FlightStep zero key s (.woke i f) (s.move i (.woken f))
  | follow {s : Group K O} {i f : Nat} {fl : Flight O} : s.pc i = .woken f → s.flights f = some fl →
      fl.aborted = false → FlightStep zero key s (.followed i f fl.outcome) (s.move i (.returned fl.outcome true false))
  | retry {s : Group K O} {i f : Nat} {fl : Flight O} : s.pc i = .woken f → s.flights f = some fl →
      fl.aborted = true → s.cancelled i = false → FlightStep zero key s (.retried i f) (s.move i .enter)
  | abandon {s : Group K O} {i f : Nat} {fl : Flight O} : s.pc i = .woken f → s.flights f = some fl →
      fl.aborted = true → s.cancelled i = true →
      FlightStep zero key s (.abandoned i f) (s.move i (.returned zero true true))
  | giveUp {s : Group K O} {i f : Nat} {l : Bool} : s.pc i = .waiting f l → s.cancelled i = true →
      FlightStep zero key s (.gaveUp i f) (s.move i (.cancelling f))
  | leave {s : Group K O} {i f : Nat} {fl : Flight O} : s.pc i = .cancelling f → s.flights f = some fl →
      FlightStep zero key s (.left i f)
        ((s.move i (.returned zero true true)).set f { fl with joiners := fl.joiners - 1 })
  | cancel {s : Group K O} {i : Nat} :
      FlightStep zero key s (.cancelled i) { s with cancelled := Function.update s.cancelled i true }

/-- The callers of one flight group, in any interleaving. -/
def flightSystem (zero : O) (key : Nat → K) : System (Group K O) (FlightEvent O) where
  init s := s = {}
  step := FlightStep zero key

end MS.Coalesce
