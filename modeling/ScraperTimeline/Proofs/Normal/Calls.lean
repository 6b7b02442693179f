import ScraperTimeline.Proofs.Normal.Loop
import ScraperTimeline.Proofs.Normal.Returned

/-!
Calls to one expander. It keeps what it has expanded from each call to the next, and yet every call ends with
what inlining gives on its own.
-/
namespace ScraperTimeline.Normal

inductive Call where
  | group (name : String)
  | list (entries : List Tree)

namespace Call

-- The entries that a call asks about. A group is asked about by its name.
def asked : Call → List Tree
  | .group name => [.string name]
  | .list entries => entries

def run (groups : Groups) : Call → Expanding (List Tree)
  | .group name => expandGroup groups name
  | .list entries => expandEntries groups entries

-- What a call gives, with the loop that nothing bounds.
inductive Gives (groups : Groups) : Call → Expanded → Except Fault (List Tree) → Expanded → Prop
  | known {name : String} {steps : List Tree} {memo : Expanded} :
      memo.lookup name = some steps → Gives groups (.group name) memo (.ok steps) memo
  | missing {name : String} {e : Fault} {memo : Expanded} :
      memo.lookup name = none → entries? groups name = .error e → Gives groups (.group name) memo (.error e) memo
  | group {name : String} {entries : List Tree} {memo memo' : Expanded} {r : Except Fault (List Tree)} :
      memo.lookup name = none → entries? groups name = .ok entries →
      Loop groups [⟨some name, entries, []⟩] memo r memo' → Gives groups (.group name) memo r memo'
  | list {entries : List Tree} {memo memo' : Expanded} {r : Except Fault (List Tree)} :
      Loop groups [⟨none, entries, []⟩] memo r memo' → Gives groups (.list entries) memo r memo'

section
variable {groups : Groups} {call : Call} {memo memo' : Expanded} {r : Except Fault (List Tree)}

theorem Gives.run_eq (h : call.Gives groups memo r memo') : (call.run groups).run.run memo = (r, memo') := by
  cases h with
  | known hlookup => rw [run, run_expandGroup, hlookup]
  | missing hlookup hentries =>
      rw [run, run_expandGroup, hlookup]
      exact run_bind_of_error (run_lift_of_error hentries memo)
  | group hlookup hentries hloop =>
      rw [run, run_expandGroup, hlookup]
      exact (run_bind_of_ok (run_lift_of_ok hentries memo)).trans (loop_iff.mp hloop)
  | list hloop => exact loop_iff.mp hloop

theorem gives_of_run_eq (h : (call.run groups).run.run memo = (r, memo')) : call.Gives groups memo r memo' := by
  cases call with
  | group name =>
      rw [run, run_expandGroup] at h
      cases hlookup : memo.lookup name with
      | some steps =>
          rw [hlookup] at h
          obtain ⟨rfl, rfl⟩ := Prod.ext_iff.mp h
          exact .known hlookup
      | none =>
          rw [hlookup] at h
          cases hentries : entries? groups name with
          | error e =>
              rw [hentries] at h
              obtain ⟨rfl, rfl⟩ := Prod.ext_iff.mp h
              exact .missing hlookup hentries
          | ok entries =>
              rw [hentries] at h
              exact .group hlookup hentries (loop_iff.mpr h)
  | list entries => exact .list (loop_iff.mpr h)

theorem gives_iff : call.Gives groups memo r memo' ↔ (call.run groups).run.run memo = (r, memo') :=
  ⟨Gives.run_eq, gives_of_run_eq⟩

theorem returns (groups : Groups) (call : Call) :
    Returns (Faithful groups) (call.run groups) (inlined groups call.asked) := by
  cases call with
  | group name =>
      rw [asked, inlined_text]
      exact returns_expandGroup groups name
  | list entries => exact returns_expandEntries groups entries

end
end Call

/-! ### One call after another -/

-- Each call finds what the calls before it have expanded, those that failed included.
inductive Session (groups : Groups) : Expanded → List Call → List (Except Fault (List Tree)) → Prop
  | nil (memo : Expanded) : Session groups memo [] []
  | cons {call : Call} {calls : List Call} {memo memo' : Expanded} {r : Except Fault (List Tree)}
      {answers : List (Except Fault (List Tree))} :
      call.Gives groups memo r memo' → Session groups memo' calls answers →
      Session groups memo (call :: calls) (r :: answers)

def Call.answers (groups : Groups) (calls : List Call) : StateM Expanded (List (Except Fault (List Tree))) :=
  calls.mapM fun call => (call.run groups).run

section
variable {groups : Groups} {memo : Expanded} {answers : List (Except Fault (List Tree))}

theorem session_iff (hmemo : Faithful groups memo) (calls : List Call) :
    Session groups memo calls answers ↔ answers = calls.map fun call => inlined groups call.asked := by
  induction calls generalizing memo answers with
  | nil =>
      constructor
      · rintro ⟨⟩
        rfl
      · rintro rfl
        exact .nil memo
  | cons call calls ih =>
      obtain ⟨memo', hrun, hmemo'⟩ := call.returns groups memo hmemo
      constructor
      · rintro (_ | ⟨hgives, hrest⟩)
        obtain ⟨rfl, rfl⟩ := Prod.ext_iff.mp (hrun.symm.trans hgives.run_eq)
        rw [(ih hmemo').mp hrest, List.map_cons]
      · rintro rfl
        exact .cons (Call.gives_iff.mpr hrun) ((ih hmemo').mpr rfl)

theorem run_answers (hmemo : Faithful groups memo) (calls : List Call) :
    ((Call.answers groups calls).run memo).1 = calls.map fun call => inlined groups call.asked := by
  induction calls generalizing memo with
  | nil => rfl
  | cons call calls ih =>
      obtain ⟨memo', hrun, hmemo'⟩ := call.returns groups memo hmemo
      rw [Call.answers, List.mapM_cons, StateT.run_bind, hrun, List.map_cons, ← ih hmemo']
      rfl

end

-- However often an expander is called and for what, each call ends, in one way only, and gives what the
-- entries come to by the rules of inlining, which know of no earlier call.
theorem session_inlines (groups : Groups) (calls : List Call) :
    ∃ answers, (∀ others, Session groups [] calls others ↔ others = answers) ∧
      List.Forall₂ (fun call answer => Inlines groups [] call.asked answer) calls answers ∧
      ((Call.answers groups calls).run []).1 = answers := by
  have hmemo := faithful_nil groups
  refine ⟨_, fun others => session_iff hmemo calls, ?_, run_answers hmemo calls⟩
  rw [List.forall₂_map_right_iff, List.forall₂_same]
  exact fun call _ => inlines_inlined groups call.asked

end ScraperTimeline.Normal
