import ScraperTimeline.Proofs.Effect
import ScraperTimeline.Proofs.Timeline.Sync

/-!
Stores for what a sync calls. One keeps a record of all calls of a store; it answers as the store does, so its record
of a sync tells the calls that the sync makes of the store alone. Another one answers as it has been told to.
-/
namespace ScraperTimeline

-- A call of a store, and its answer.
inductive Exchange where
  | read (name : String) (answer : Except Fault (Option Version))
  | swap (name : String) (expected : Option Version) (writes : List Version) (answer : Except Fault Unit)
  -- What else can be asked of a store.
  | other

namespace Exchange

def isRead : Exchange → Bool
  | read .. => true
  | _ => false

def isSwap : Exchange → Bool
  | swap .. => true
  | _ => false

-- A swap that was lost to another writer.
def isConflict : Exchange → Bool
  | swap _ _ _ (.error (.concurrentModification _)) => true
  | _ => false

end Exchange

structure Observed (σ : Type) where
  store : σ
  calls : List Exchange

namespace Observed

variable {σ α : Type} [Store σ]

-- An operation on the store, and what is noted of it.
def noting (x : Storing σ α) (note : Except Fault α → Exchange) : Storing (Observed σ) α := do
  let s ← get
  let (answer, store) := x.run.run s.store
  set (⟨store, s.calls ++ [note answer]⟩ : Observed σ)
  answer

instance : Store (Observed σ) where
  names := noting Store.names fun _ => .other
  findAll name := noting (Store.findAll name) fun _ => .other
  findOpen name := noting (Store.findOpen name) (.read name)
  put v := noting (Store.put v) fun _ => .other
  swap name expected writes := noting (Store.swap name expected writes) (.swap name expected writes)

omit [Store σ] in
theorem run_noting {x : Storing σ α} {answer : Except Fault α} {s s' : σ} (h : x.run.run s = (answer, s'))
    (note : Except Fault α → Exchange) (calls : List Exchange) :
    (noting x note).run.run ⟨s, calls⟩ = (answer, ⟨s', calls ++ [note answer]⟩) := by
  rw [noting, run_get_bind]
  simp only [h]
  cases answer <;> rfl

theorem run_findOpen {name : String} {answer : Except Fault (Option Version)} {s s' : σ}
    (h : (Store.findOpen name : Storing σ (Option Version)).run.run s = (answer, s')) (calls : List Exchange) :
    (Store.findOpen name : Storing (Observed σ) (Option Version)).run.run ⟨s, calls⟩ =
      (answer, ⟨s', calls ++ [.read name answer]⟩) :=
  run_noting h _ calls

theorem run_swap {name : String} {expected : Option Version} {writes : List Version} {answer : Except Fault Unit}
    {s s' : σ} (h : (Store.swap name expected writes : Storing σ Unit).run.run s = (answer, s'))
    (calls : List Exchange) :
    (Store.swap name expected writes : Storing (Observed σ) Unit).run.run ⟨s, calls⟩ =
      (answer, ⟨s', calls ++ [.swap name expected writes answer]⟩) :=
  run_noting h _ calls

end Observed

-- A store that gives one answer after another, whatever is asked. Nothing is kept in it.
structure Scripted where
  reads : List (Option Version)
  swaps : List (Except Fault Unit)

namespace Scripted

instance : Store Scripted where
  names := return []
  findAll _ := return []
  findOpen _ := modifyGet fun s => (s.reads.head?.join, { s with reads := s.reads.tail })
  put _ := return ()
  swap _ _ _ := do
    let s ← get
    set { s with swaps := s.swaps.tail }
    s.swaps.headD (.ok ())

theorem run_findOpen (name : String) (s : Scripted) :
    (Store.findOpen name : Storing Scripted (Option Version)).run.run s =
      (.ok s.reads.head?.join, { s with reads := s.reads.tail }) := rfl

end Scripted

end ScraperTimeline
