import Mailstrix.Framework.Run
import Mailstrix.Impl.Scan.Scanner

/-!
# Verdict cache and flights

`server.go`, `flight.go`, `cache.go`: how requests share verdicts.  A request is answered from the cache,
or waits for the flight of its key, or leads one: it looks the cache up again, scans, and puts the verdict
of a scan without an error into the cache.

A verdict carries the arrival that it was computed for, which the code does not keep.  Servers that share
a Redis layer share the cache, so that arrivals at all of them are steps of one system.
-/

namespace MS.Scan

open Framework

/-- `scanOutcome`, and whose scan it is. -/
structure Outcome where
  origin : Arrival
  hits : List Match
  err : Option ScanError

/-- A cached verdict. -/
structure Entry where
  key : Bytes
  outcome : Outcome

/-- A flight: `finished` is set when the leader is done, to `none` if it gave up. -/
structure Flight where
  key : Bytes
  leader : Arrival
  finished : Option (Option Outcome) := none

/-- Flights are numbered in the order in which they start. -/
structure Server where
  cache : List Entry := []
  flights : List Flight := []
  waiting : List (Nat × Arrival) := []

inductive ServerEvent
  /-- A request is answered with a verdict. -/
  | answered (a : Arrival) (o : Outcome)
  /-- A request joins a flight, or leads one. -/
  | joined (a : Arrival)
  | led (a : Arrival)
  /-- A flight ends: its leader gives up, or finds the verdict in the cache after all, or scans. -/
  | gaveUp (a : Arrival)
  | found (a : Arrival) (o : Outcome)
  | scanned (a : Arrival) (o : Outcome)
  /-- A follower leaves: its client is gone, or its leader gave up and it starts over. -/
  | left (a : Arrival)
  /-- Entries expire, are evicted or flushed. -/
  | dropped

/-- The flight with number `n` ends. -/
def Server.finish (s : Server) (n : Nat) (f : Flight) (result : Option Outcome) : Server :=
  { s with flights := s.flights.set n { f with finished := some result } }

variable (H : Hashes)

inductive ServerStep : Server → ServerEvent → Server → Prop
  | hit {s : Server} {a : Arrival} {e : Entry} : e ∈ s.cache → e.key = a.key H →
      ServerStep s (.answered a e.outcome) s
  | join {s : Server} {a : Arrival} {n : Nat} {f : Flight} : s.flights[n]? = some f → f.finished = none →
      f.key = a.key H → ServerStep s (.joined a) { s with waiting := (n, a) :: s.waiting }
  | lead {s : Server} {a : Arrival} : (∀ f ∈ s.flights, f.key = a.key H → f.finished ≠ none) →
      ServerStep s (.led a) { s with flights := s.flights ++ [{ key := a.key H, leader := a }] }
  | giveUp {s : Server} {n : Nat} {f : Flight} : s.flights[n]? = some f → f.finished = none →
      ServerStep s (.gaveUp f.leader) (s.finish n f none)
  | found {s : Server} {n : Nat} {f : Flight} {e : Entry} : s.flights[n]? = some f → f.finished = none →
      e ∈ s.cache → e.key = f.key → ServerStep s (.found f.leader e.outcome) (s.finish n f (some e.outcome))
  | scan {s : Server} {n : Nat} {f : Flight} {o : Outcome} {R : Type} {scanner : Scanner}
      {profile : EffortProfile} {g : Generation R} {w : World R} : s.flights[n]? = some f → f.finished = none →
      o.origin = f.leader →
      (o.hits, o.err) = dispatchLease H scanner profile g f.leader.request.body (f.leader.scanMeta H) w →
      ServerStep s (.scanned f.leader o)
        { s.finish n f (some o) with cache := if o.err = none then ⟨f.key, o⟩ :: s.cache else s.cache }
  | follow {s : Server} {a : Arrival} {n : Nat} {f : Flight} {o : Outcome} : (n, a) ∈ s.waiting →
      s.flights[n]? = some f → f.finished = some (some o) → ServerStep s (.answered a o) s
  | leave {s : Server} {a : Arrival} {ws : List (Nat × Arrival)} : ws ⊆ s.waiting →
      ServerStep s (.left a) { s with waiting := ws }
  | drop {s : Server} {es : List Entry} : es ⊆ s.cache → ServerStep s .dropped { s with cache := es }

def serverSystem : System Server ServerEvent where
  init s := s = {}
  step := ServerStep H

end MS.Scan
