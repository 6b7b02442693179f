import ScraperTimeline.Timeline.Store

/-!
A store that others write to at the same time: some swaps are lost to them, and before others they put in
versions of their own.
-/
namespace ScraperTimeline

structure Contended (σ : Type) where
  store : σ
  /-- How many of the next swaps are lost. -/
  conflicts : Nat
  /-- What others put in, one version before each swap that is not lost. -/
  others : List Version

namespace Contended

variable {σ : Type} [Store σ]

/-- An operation on the store itself. -/
def within {α : Type} (x : Storing σ α) : Storing (Contended σ) α := do
  let s ← get
  let (result, store) := x.run.run s.store
  set { s with store }
  result

def swap (name : String) (expected : Option Version) (writes : List Version) :
    Storing (Contended σ) Unit := do
  let s ← get
  match s.conflicts, s.others with
  | n + 1, _ =>
    set { s with conflicts := n }
    throw (.concurrentModification name)
  | 0, v :: rest =>
    set { s with others := rest }
    within (Store.put v)
    within (Store.swap name expected writes)
  | 0, [] => within (Store.swap name expected writes)

instance : Store (Contended σ) where
  names := within Store.names
  findAll name := within (Store.findAll name)
  findOpen name := within (Store.findOpen name)
  put v := within (Store.put v)
  swap := swap

end Contended
end ScraperTimeline
