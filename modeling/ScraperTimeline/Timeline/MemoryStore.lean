import ScraperTimeline.Timeline.Store

/-!
A store that keeps its histories as they are.
-/
namespace ScraperTimeline

structure MemoryStore where
  high : Instant
  /-- The histories that have been written, each name once. -/
  histories : List (String × History)
deriving Repr

namespace MemoryStore

def empty (high : Instant) : MemoryStore := ⟨high, []⟩

def history (s : MemoryStore) (name : String) : History := (s.histories.lookup name).getD []

def setHistory (name : String) (h : History) (s : MemoryStore) : MemoryStore :=
  { s with histories := Fields.put name h s.histories }

def put (v : Version) : Storing MemoryStore Unit := do
  Store.checkName v.name
  modify fun s => s.setHistory v.name ((s.history v.name).put v)

def swap (name : String) (expected : Option Version) (writes : List Version) :
    Storing MemoryStore Unit := do
  Store.checkName name
  Store.checkWrites name writes
  let s ← get
  let h ← Store.swapped s.high name expected writes (s.history name)
  set (s.setHistory name h)

instance : Store MemoryStore where
  names := return Store.sortNames (Fields.keys (← get).histories)
  findAll name := return (← get).history name
  findOpen name := return ((← get).history name).open? (← get).high
  put := put
  swap := swap

end MemoryStore
end ScraperTimeline
