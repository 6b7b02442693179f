import ScraperTimeline.Normal.Steps
import ScraperTimeline.Proofs.Tree.Shape

/-!
Expansion as a computation that keeps an invariant of what has been expanded, and the steps that come out
of it.
-/
namespace ScraperTimeline.Normal
open Shape

-- From what keeps the invariant the computation leads to what keeps it, with a result as said.
def Keeps {α : Type} (I : Expanded → Prop) (x : Expanding α) (Q : α → Prop) : Prop :=
  ∀ memo, I memo → ∀ a memo', x.run.run memo = (.ok a, memo') → Q a ∧ I memo'

namespace Keeps

variable {α β : Type} {I : Expanded → Prop} {P Q : α → Prop} {x : Expanding α}

theorem pure {a : α} (h : Q a) : Keeps I (Pure.pure a) Q := by
  intro memo hmemo b memo' hrun
  cases hrun
  exact ⟨h, hmemo⟩

theorem bind {R : β → Prop} {f : α → Expanding β} (hx : Keeps I x Q)
    (hf : ∀ a, Q a → Keeps I (f a) R) : Keeps I (x >>= f) R := by
  intro memo hmemo b memo' hrun
  rw [ExceptT.run_bind, StateT.run_bind] at hrun
  cases hfirst : x.run.run memo with
  | mk result between =>
      rw [hfirst] at hrun
      cases result with
      | ok a =>
          obtain ⟨ha, hbetween⟩ := hx memo hmemo a between hfirst
          exact hf a ha between hbetween b memo' hrun
      | error e => cases hrun

theorem mono (h : Keeps I x P) (himp : ∀ a, P a → Q a) : Keeps I x Q := fun memo hmemo a memo' hrun =>
  (h memo hmemo a memo' hrun).imp_left (himp a)

theorem throw {e : Fault} : Keeps I (MonadExcept.throw e : Expanding α) Q := by
  intro memo _ a memo' hrun
  cases hrun

theorem get : Keeps I (MonadState.get : Expanding Expanded) I := by
  intro memo hmemo a memo' hrun
  cases hrun
  exact ⟨hmemo, hmemo⟩

theorem update {f : Expanded → Expanded} (hf : ∀ memo, I memo → I (f memo)) :
    Keeps I (modify f : Expanding Unit) fun _ => True := by
  intro memo hmemo a memo' hrun
  cases hrun
  exact ⟨trivial, hf memo hmemo⟩

theorem lift {x : Except Fault α} (h : ∀ a, x = .ok a → Q a) : Keeps I (x : Expanding α) Q := by
  intro memo hmemo a memo' hrun
  cases x with
  | ok b =>
      cases hrun
      exact ⟨h a rfl, hmemo⟩
  | error e => cases hrun

theorem mapM {R : α → β → Prop} {f : α → Expanding β} {as : List α}
    (h : ∀ a ∈ as, Keeps I (f a) (R a)) : Keeps I (as.mapM f) (List.Forall₂ R as) := by
  induction as with
  | nil => exact .pure .nil
  | cons a as ih =>
      rw [List.mapM_cons]
      refine (h a List.mem_cons_self).bind fun b hb => ?_
      refine (ih fun a ha => h a (List.mem_cons_of_mem _ ha)).bind fun bs hbs => ?_
      exact .pure (.cons hb hbs)

theorem of_start (h : Keeps I x Q) (hnil : I []) {a : α} (hrun : x.start = .ok a) : Q a := by
  rw [Expanding.start] at hrun
  exact (h [] hnil a _ (Prod.ext hrun rfl)).1

end Keeps

section
variable {P : Tree → Prop} {groups : Groups}

-- What is expanded are lists of steps.
def Stepwise (P : Tree → Prop) (memo : Expanded) : Prop := ∀ entry ∈ memo, ∀ t ∈ entry.2, P t

-- A list that is being expanded has only steps behind it, and steps and texts before it.
structure Frame.Sound (P : Tree → Prop) (frame : Frame) : Prop where
  entries : ∀ t ∈ frame.entries, P t ∨ IsText t
  steps : ∀ t ∈ frame.steps, P t

def GroupsSound (P : Tree → Prop) (groups : Groups) : Prop :=
  ∀ name entries, entries? groups name = .ok entries → ∀ t ∈ entries, P t ∨ IsText t

section
variable (groups : Groups) (fuel : Nat) (name : Option String) (rest : List Tree) (steps : List Tree)
  (outer : List Frame)

theorem expandStack_closed :
    expandStack groups (fuel + 1) (⟨name, [], steps⟩ :: outer) = (do
      if let some name := name then modify ((name, steps) :: ·)
      match outer with
      | [] => return steps
      | parent :: outer =>
        expandStack groups fuel (⟨parent.name, parent.entries, parent.steps ++ steps⟩ :: outer)) := rfl

theorem expandStack_text (group : String) :
    expandStack groups (fuel + 1) (⟨name, .string group :: rest, steps⟩ :: outer) = (do
      match (← get).lookup group with
      | some expanded => expandStack groups fuel (⟨name, rest, steps ++ expanded⟩ :: outer)
      | none =>
        if group ∈ openNames (⟨name, rest, steps⟩ :: outer) then
          throw (.cyclicSteps (openNames (⟨name, rest, steps⟩ :: outer) ++ [group]))
        else
          let entries ← (entries? groups group : Except Fault (List Tree))
          expandStack groups fuel (⟨some group, entries, []⟩ :: ⟨name, rest, steps⟩ :: outer)) := rfl

theorem expandStack_step {step : Tree} (h : ¬IsText step) :
    expandStack groups (fuel + 1) (⟨name, step :: rest, steps⟩ :: outer) =
      expandStack groups fuel (⟨name, rest, steps ++ [step]⟩ :: outer) := by
  cases step with
  | string s => exact (h ⟨s, rfl⟩).elim
  | _ => rfl

end

-- What a step of the walk comes to where all that follows it comes to steps.
section
variable {fuel : Nat} {name : Option String} {rest steps : List Tree} {outer : List Frame}
  (hnext : ∀ stack : List Frame, (∀ frame ∈ stack, frame.Sound P) →
    Keeps (Stepwise P) (expandStack groups fuel stack) fun steps => ∀ t ∈ steps, P t)
  (houter : ∀ frame ∈ outer, frame.Sound P)
include hnext houter

theorem keeps_expandStack_closed (hsteps : ∀ t ∈ steps, P t) :
    Keeps (Stepwise P) (expandStack groups (fuel + 1) (⟨name, [], steps⟩ :: outer)) fun steps => ∀ t ∈ steps, P t := by
  rw [expandStack_closed]
  have hparent : Keeps (Stepwise P) (match outer with
      | [] => Pure.pure steps
      | parent :: outer =>
        expandStack groups fuel (⟨parent.name, parent.entries, parent.steps ++ steps⟩ :: outer))
      fun steps => ∀ t ∈ steps, P t := by
    cases outer with
    | nil => exact .pure hsteps
    | cons parent outer =>
        obtain ⟨hparent, houter⟩ := List.forall_mem_cons.mp houter
        refine hnext _ (List.forall_mem_cons.mpr ⟨⟨hparent.entries, ?_⟩, houter⟩)
        exact List.forall_mem_append.mpr ⟨hparent.steps, hsteps⟩
  cases name with
  | none => exact hparent
  | some name =>
      refine (Keeps.update fun memo hmemo => ?_).bind fun _ _ => hparent
      exact List.forall_mem_cons.mpr ⟨hsteps, hmemo⟩

theorem keeps_expandStack_text (hgroups : GroupsSound P groups) (hframe : Frame.Sound P ⟨name, rest, steps⟩)
    (group : String) :
    Keeps (Stepwise P) (expandStack groups (fuel + 1) (⟨name, .string group :: rest, steps⟩ :: outer))
      fun steps => ∀ t ∈ steps, P t := by
  rw [expandStack_text]
  refine Keeps.get.bind fun memo hmemo => ?_
  cases hlookup : memo.lookup group with
  | some expanded =>
      refine hnext _ (List.forall_mem_cons.mpr ⟨⟨hframe.entries, ?_⟩, houter⟩)
      exact List.forall_mem_append.mpr ⟨hframe.steps, hmemo _ (Fields.mem_of_lookup hlookup)⟩
  | none =>
      dsimp only
      split
      · exact .throw
      · refine (Keeps.lift fun entries => hgroups group entries).bind fun entries hentries => ?_
        refine hnext _ (List.forall_mem_cons.mpr ⟨⟨hentries, by simp⟩, ?_⟩)
        exact List.forall_mem_cons.mpr ⟨hframe, houter⟩

theorem keeps_expandStack_step {step : Tree} (hstep : P step) (htext : ¬IsText step)
    (hframe : Frame.Sound P ⟨name, rest, steps⟩) :
    Keeps (Stepwise P) (expandStack groups (fuel + 1) (⟨name, step :: rest, steps⟩ :: outer))
      fun steps => ∀ t ∈ steps, P t := by
  rw [expandStack_step _ _ _ _ _ _ htext]
  refine hnext _ (List.forall_mem_cons.mpr ⟨⟨hframe.entries, ?_⟩, houter⟩)
  exact List.forall_mem_append.mpr ⟨hframe.steps, by simpa using hstep⟩

end

theorem keeps_expandStack (hgroups : GroupsSound P groups) {fuel : Nat} {stack : List Frame}
    (hstack : ∀ frame ∈ stack, frame.Sound P) :
    Keeps (Stepwise P) (expandStack groups fuel stack) fun steps => ∀ t ∈ steps, P t := by
  induction fuel generalizing stack with
  | zero =>
      rw [expandStack]
      exact .pure (by simp)
  | succ fuel ih =>
      cases stack with
      | nil =>
          rw [expandStack]
          · exact .pure (by simp)
          · simp
      | cons frame outer =>
          obtain ⟨hframe, houter⟩ := List.forall_mem_cons.mp hstack
          obtain ⟨name, entries, steps⟩ := frame
          cases entries with
          | nil => exact keeps_expandStack_closed (fun _ => ih) houter hframe.steps
          | cons entry rest =>
              obtain ⟨hentry, hrest⟩ := List.forall_mem_cons.mp hframe.entries
              by_cases htext : IsText entry
              · obtain ⟨group, rfl⟩ := htext
                exact keeps_expandStack_text (fun _ => ih) houter hgroups ⟨hrest, hframe.steps⟩ group
              · exact keeps_expandStack_step (fun _ => ih) houter (hentry.resolve_right htext) htext
                  ⟨hrest, hframe.steps⟩

theorem keeps_expandEntries (hgroups : GroupsSound P groups) {entries : List Tree}
    (hentries : ∀ t ∈ entries, P t ∨ IsText t) :
    Keeps (Stepwise P) (expandEntries groups entries) fun steps => ∀ t ∈ steps, P t :=
  keeps_expandStack hgroups (List.forall_mem_singleton.mpr ⟨hentries, by simp⟩)

theorem keeps_expandGroup (hgroups : GroupsSound P groups) (name : String) :
    Keeps (Stepwise P) (expandGroup groups name) fun steps => ∀ t ∈ steps, P t := by
  rw [expandGroup]
  refine Keeps.get.bind fun memo hmemo => ?_
  cases hlookup : memo.lookup name with
  | some steps => exact .pure (hmemo _ (Fields.mem_of_lookup hlookup))
  | none =>
      refine (Keeps.lift fun entries => hgroups name entries).bind fun entries hentries => ?_
      exact keeps_expandStack hgroups (List.forall_mem_singleton.mpr ⟨hentries, by simp⟩)

end

/-! ### Changes of a tree -/

section
variable {I : Expanded → Prop} {fields : List (String × Tree)} {f : Tree → Expanding Tree}
  {R : Tree → Tree → Prop}

theorem keeps_modifyM {key : String} (h : ∀ v, (key, v) ∈ fields → Keeps I (f v) (R v)) :
    Keeps I ((Tree.map fields).modifyM key f) fun t => ∃ fields', t = .map fields' ∧
      Related (fun k v v' => if k = key then R v v' else v' = v) fields fields' := by
  rw [Tree.modifyM]
  refine (Keeps.mapM fun field hfield => ?_).bind fun fields' hrel => .pure ⟨fields', rfl, hrel⟩
  obtain ⟨k, v⟩ := field
  by_cases hkey : k = key
  · subst hkey
    simp only [if_true]
    exact (h v hfield).bind fun v' hv' => .pure ⟨rfl, hv'⟩
  · simp only [if_neg hkey]
    exact .pure ⟨rfl, rfl⟩

theorem keeps_modifyAllM (h : ∀ field ∈ fields, Keeps I (f field.2) (R field.2)) :
    Keeps I ((Tree.map fields).modifyAllM f) fun t => ∃ fields', t = .map fields' ∧
      Related (fun _ => R) fields fields' := by
  rw [Tree.modifyAllM]
  refine (Keeps.mapM fun field hfield => ?_).bind fun fields' hrel => .pure ⟨fields', rfl, hrel⟩
  exact (h field hfield).bind fun v' hv' => .pure ⟨rfl, hv'⟩

end

end ScraperTimeline.Normal
