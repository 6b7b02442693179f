import ScraperTimeline.Timeline.Reconcile
import ScraperTimeline.Timeline.Store

/-!
Synchronization of a store with new versions, one at a time. Each is reconciled with the open version
that has just been read, and swapped in. If another writer was faster, the sync waits, reads again and
decides again, as often as its limit allows.
-/
namespace ScraperTimeline.Sync

structure Settings where
  high : Instant
  /-- How often a swap is tried again. -/
  retries : Nat
  /-- Milliseconds before the first retry. -/
  backoff : Nat
deriving Repr

/-- The longest wait, in milliseconds. -/
def longestWait : Nat := 1000

/-- The wait before a retry, counted from one: it doubles each time up to the longest. -/
def delay (backoff attempt : Nat) : Nat := min (backoff * Nat.pow 2 (min (attempt - 1) 16)) longestWait

/-- A wait for another try. -/
structure Wait where
  name : String
  attempt : Nat
  milliseconds : Nat
  reason : Fault
deriving DecidableEq, Repr

/-- What is to be done for a new version, when this is the open one. -/
def plan (high : Instant) (new : Version) (open_ : Option Version) :
    Except Fault (Outcome × List Version) := do
  let r ← reconcile high [new] open_.toList
  return ((r.outcomes.head?.map (·.2)).getD .unchanged, r.writes)

/-- How an attempt to bring a version in ends. -/
inductive Attempt where
  | settled (outcome : Outcome)
  /-- Another writer was faster. -/
  | lost (fault : Fault)
  | failed (fault : Fault)
deriving DecidableEq, Repr

/-- The end of an attempt as the end of all of them. -/
def Attempt.result : Attempt → Except Fault Outcome
  | settled outcome => .ok outcome
  | lost e => .error e
  | failed e => .error e

def Attempt.ofSwap (outcome : Outcome) : Except Fault Unit → Attempt
  | .ok _ => settled outcome
  | .error e => if e.isRetryable then lost e else failed e

/-- A swap that is to be made: the open version that was read, what comes of it, and what is written. -/
structure Proposal where
  seen : Option Version
  outcome : Outcome
  writes : List Version

/-- What a read of the open version leads to. -/
inductive Finding where
  | ended (attempt : Attempt)
  | swap (proposal : Proposal)

section
variable {σ : Type} [Store σ]

/-- Reads and plans. -/
def consult (high : Instant) (new : Version) : StateM σ Finding := do
  match ← (Store.findOpen new.name : Storing σ (Option Version)).run with
  | .error e => return .ended (.failed e)
  | .ok seen =>
    match plan high new seen with
    | .error e => return .ended (.failed e)
    | .ok (outcome, []) => return .ended (.settled outcome)
    | .ok (outcome, writes) => return .swap ⟨seen, outcome, writes⟩

/-- Swaps what has been planned. -/
def commit (new : Version) (p : Proposal) : StateM σ Attempt :=
  return .ofSwap p.outcome (← (Store.swap new.name p.seen p.writes : Storing σ Unit).run)

/-- Reads, plans and swaps. -/
def attempt (high : Instant) (new : Version) : StateM σ Attempt := do
  match ← consult high new with
  | .ended a => return a
  | .swap p => commit new p

/-- Brings one version in, with so many retries left after those that have been made. -/
def settle (settings : Settings) (new : Version) (made : Nat) :
    Nat → StateM σ (List Wait × Except Fault Outcome)
  | 0 => return ([], (← attempt settings.high new).result)
  | left + 1 => do
    match ← attempt settings.high new with
    | .lost e =>
      let wait : Wait := ⟨new.name, made + 1, delay settings.backoff (made + 1), e⟩
      let (waits, result) ← settle settings new (made + 1) left
      return (wait :: waits, result)
    | other => return ([], other.result)

/-- What became of each version that was brought in. -/
abbrev Report := List (String × Outcome)

def Report.changed (r : Report) : Bool := r.any (·.2.isChange)

def Report.count (label : String) (r : Report) : Nat := (r.filter (·.2.label = label)).length

/-- Brings versions in, up to the first that fails. -/
def apply (settings : Settings) :
    List Version → StateM σ (List Wait × Except Fault Report)
  | [] => return ([], .ok [])
  | new :: rest => do
    match ← settle settings new 0 settings.retries with
    | (waits, .error e) => return (waits, .error e)
    | (waits, .ok outcome) =>
      let (more, result) ← apply settings rest
      return (waits ++ more, result.map ((new.name, outcome) :: ·))

/-- What would become of versions, one by one, with nothing written. -/
def foresee (high : Instant) (vs : List Version) : Storing σ Report :=
  vs.mapM fun new => do
    let (outcome, _) ← plan high new (← Store.findOpen new.name)
    return (new.name, outcome)

end

end ScraperTimeline.Sync
