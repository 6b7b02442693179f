import ScraperTimeline.Proofs.Normal.Walk
import ScraperTimeline.Proofs.Tree.Within

/-!
The passes over the steps in plain words: what they give, or how they fail, is that of inlining, and what has
been expanded before does not matter.
-/
namespace ScraperTimeline.Normal
open Shape

/-! ### Changes field by field -/

section
variable {m : Type → Type} [Monad m]

def onFields (f : List (String × Tree) → m (List (String × Tree))) : Tree → m Tree
  | .map fields => return .map (← f fields)
  | t => return t

def mapValues (f : String → Tree → m Tree) (fields : List (String × Tree)) : m (List (String × Tree)) :=
  fields.mapM fun field => do return (field.1, ← f field.1 field.2)

theorem modifyM_eq [LawfulMonad m] (key : String) (f : Tree → m Tree) (t : Tree) :
    t.modifyM key f = onFields (mapValues fun k v => if k = key then f v else pure v) t := by
  cases t with
  | map fields =>
      rw [Tree.modifyM, onFields, mapValues]
      congr 2
      funext field
      by_cases hkey : field.1 = key
      · simp only [if_pos hkey]
      · simp only [if_neg hkey, pure_bind]
  | _ => rfl

theorem modifyAllM_eq (f : Tree → m Tree) (t : Tree) : t.modifyAllM f = onFields (mapValues fun _ => f) t := by
  cases t <;> rfl

theorem eachTask_eq (f : List (String × Tree) → m (List (String × Tree))) (t : Tree) :
    eachTask f t = t.modifyM "taskGroups" (Tree.modifyAllM (Tree.modifyAllM (onFields f))) := by
  have htask : (fun task : Tree => match task with
      | .map fields => (do return .map (← f fields) : m Tree)
      | other => return other) = onFields f := by
    funext task
    cases task <;> rfl
  exact congrArg (fun g => Tree.modifyM "taskGroups" (Tree.modifyAllM (Tree.modifyAllM g)) t) htask

end

section
variable {f : String → Tree → Except Fault Tree} {as as' : List (String × Tree)}

theorem mapValues_cons_of_ok {key : String} {value value' : Tree} (hvalue : f key value = .ok value')
    (has : mapValues f as = .ok as') : mapValues f ((key, value) :: as) = .ok ((key, value') :: as') := by
  rw [mapValues] at has ⊢
  rw [List.mapM_cons, hvalue, has]
  rfl

theorem related_of_mapValues (h : mapValues f as = .ok as') :
    Related (fun key value value' => f key value = .ok value') as as' := by
  induction as generalizing as' with
  | nil =>
      obtain rfl := Except.ok.inj h
      exact .nil
  | cons field as ih =>
      obtain ⟨key, value⟩ := field
      rw [mapValues, List.mapM_cons] at h
      obtain ⟨field', hfield, h⟩ := exists_of_bind h
      obtain ⟨rest, hrest, h⟩ := exists_of_bind h
      obtain ⟨value', hvalue, hfield⟩ := exists_of_bind hfield
      obtain rfl := Except.ok.inj hfield
      obtain rfl := Except.ok.inj h
      exact .cons ⟨rfl, hvalue⟩ (ih hrest)

theorem exists_mapValues_iff :
    (∃ as', mapValues f as = .ok as') ↔ ∀ field ∈ as, ∃ value, f field.1 field.2 = .ok value := by
  constructor
  · rintro ⟨as', h⟩
    have hrel := related_of_mapValues h
    clear h
    induction hrel with
    | nil => simp
    | cons hhead _ ih => exact List.forall_mem_cons.mpr ⟨⟨_, hhead.2⟩, ih⟩
  · intro h
    induction as with
    | nil => exact ⟨[], rfl⟩
    | cons field as ih =>
        obtain ⟨⟨value, hvalue⟩, hrest⟩ := List.forall_mem_cons.mp h
        obtain ⟨as', has⟩ := ih hrest
        exact ⟨_, mapValues_cons_of_ok hvalue has⟩

end

section
variable {t : Tree}

theorem exists_onFields_iff {f : List (String × Tree) → Except Fault (List (String × Tree))} :
    (∃ t', onFields f t = .ok t') ↔ IfMapping (fun fields => ∃ fields', f fields = .ok fields') t := by
  cases t with
  | map fields =>
      rw [onFields, IfMapping]
      cases f fields with
      | error e =>
          constructor <;> rintro ⟨_, h⟩
          · cases h
          · cases h
      | ok fields' => exact ⟨fun _ => ⟨_, rfl⟩, fun _ => ⟨_, rfl⟩⟩
  | _ => exact ⟨fun _ => trivial, fun _ => ⟨_, rfl⟩⟩

theorem exists_modifyM_iff {key : String} {f : Tree → Except Fault Tree} :
    (∃ t', t.modifyM key f = .ok t') ↔ IfMapping (At key fun v => ∃ v', f v = .ok v') t := by
  rw [modifyM_eq, exists_onFields_iff]
  cases t with
  | map fields =>
      rw [IfMapping, IfMapping, exists_mapValues_iff]
      constructor
      · intro h v hv
        simpa using h _ hv
      · rintro h ⟨k, v⟩ hfield
        by_cases hkey : k = key
        · subst hkey
          simpa using h v hfield
        · exact ⟨v, if_neg hkey⟩
  | _ => exact Iff.rfl

end

/-! ### What a change leaves at a key -/

theorem rel_bind {α β γ δ : Type} {R : α → β → Prop} {S : γ → δ → Prop} {x : Option α} {y : Option β}
    {f : α → Option γ} {g : β → Option δ} (h : Option.Rel R x y)
    (hfg : ∀ a b, R a b → Option.Rel S (f a) (g b)) : Option.Rel S (x.bind f) (y.bind g) := by
  cases h with
  | some hR => exact hfg _ _ hR
  | none => exact .none

section
variable {t t' : Tree}

theorem rel_fields?_of_onFields {f : List (String × Tree) → Except Fault (List (String × Tree))}
    (hrun : onFields f t = .ok t') :
    Option.Rel (fun fields fields' => f fields = .ok fields') t.fields? t'.fields? := by
  cases t with
  | map fields =>
      obtain ⟨fields', hfields, hrun⟩ := exists_of_bind hrun
      obtain rfl := Except.ok.inj hrun
      exact .some hfields
  | _ =>
      obtain rfl := Except.ok.inj hrun
      exact .none

theorem field?_eq_bind (key : String) (t : Tree) : t.field? key = t.fields?.bind (·.lookup key) := by
  cases t <;> rfl

theorem rel_field?_of_mapValues {f : String → Tree → Except Fault Tree}
    (hrun : onFields (mapValues f) t = .ok t') (key : String) :
    Option.Rel (fun v v' => f key v = .ok v') (t.field? key) (t'.field? key) := by
  rw [field?_eq_bind, field?_eq_bind]
  exact rel_bind (rel_fields?_of_onFields hrun) fun _ _ hfields => (related_of_mapValues hfields).rel_lookup key

theorem rel_field?_of_modifyM {key : String} {f : Tree → Except Fault Tree}
    (hrun : t.modifyM key f = .ok t') :
    Option.Rel (fun v v' => f v = .ok v') (t.field? key) (t'.field? key) := by
  rw [modifyM_eq] at hrun
  simpa using rel_field?_of_mapValues hrun key

theorem rel_field?_of_modifyAllM {f : Tree → Except Fault Tree} (hrun : t.modifyAllM f = .ok t')
    (key : String) : Option.Rel (fun v v' => f v = .ok v') (t.field? key) (t'.field? key) := by
  rw [modifyAllM_eq] at hrun
  exact rel_field?_of_mapValues hrun key

end

/-! ### Results -/

-- From what keeps the invariant the computation comes to this result, and to what keeps it.
def Returns {α : Type} (I : Expanded → Prop) (x : Expanding α) (r : Except Fault α) : Prop :=
  ∀ memo, I memo → ∃ memo', x.run.run memo = (r, memo') ∧ I memo'

namespace Returns

variable {α β : Type} {I : Expanded → Prop} {x : Expanding α} {r : Except Fault α}

theorem pure (a : α) : Returns I (Pure.pure a) (.ok a) := fun memo hmemo => ⟨memo, rfl, hmemo⟩

theorem bind {f : α → Expanding β} {g : α → Except Fault β} (hx : Returns I x r)
    (hf : ∀ a, Returns I (f a) (g a)) : Returns I (x >>= f) (r >>= g) := by
  intro memo hmemo
  obtain ⟨between, hfirst, hbetween⟩ := hx memo hmemo
  cases r with
  | error e => exact ⟨between, run_bind_of_error hfirst, hbetween⟩
  | ok a =>
      obtain ⟨memo', hsecond, hmemo'⟩ := hf a between hbetween
      exact ⟨memo', (run_bind_of_ok hfirst).trans hsecond, hmemo'⟩

theorem mapM {f : α → Expanding β} {g : α → Except Fault β} (h : ∀ a, Returns I (f a) (g a))
    (as : List α) : Returns I (as.mapM f) (as.mapM g) := by
  induction as with
  | nil => exact .pure []
  | cons a as ih =>
      rw [List.mapM_cons, List.mapM_cons]
      exact (h a).bind fun b => ih.bind fun bs => .pure (b :: bs)

theorem start (h : Returns I x r) (hnil : I []) : x.start = r := by
  obtain ⟨memo', hrun, -⟩ := h [] hnil
  rw [Expanding.start, hrun]

theorem mapValues {f : String → Tree → Expanding Tree} {g : String → Tree → Except Fault Tree}
    (h : ∀ key v, Returns I (f key v) (g key v)) (fields : List (String × Tree)) :
    Returns I (mapValues f fields) (mapValues g fields) := by
  refine mapM (fun field => ?_) fields
  exact (h field.1 field.2).bind fun v => .pure (field.1, v)

theorem onFields {f : List (String × Tree) → Expanding (List (String × Tree))}
    {g : List (String × Tree) → Except Fault (List (String × Tree))}
    (h : ∀ fields, Returns I (f fields) (g fields)) (t : Tree) : Returns I (onFields f t) (onFields g t) := by
  cases t with
  | map fields => exact (h fields).bind fun fields' => .pure (Tree.map fields')
  | _ => exact .pure _

section
variable {f : Tree → Expanding Tree} {g : Tree → Except Fault Tree}

theorem modifyM (key : String) (h : ∀ v, Returns I (f v) (g v)) (t : Tree) :
    Returns I (t.modifyM key f) (t.modifyM key g) := by
  rw [modifyM_eq, modifyM_eq]
  refine onFields (mapValues fun k v => ?_) t
  split
  · exact h v
  · exact .pure v

theorem modifyAllM (h : ∀ v, Returns I (f v) (g v)) (t : Tree) :
    Returns I (t.modifyAllM f) (t.modifyAllM g) := by
  rw [modifyAllM_eq, modifyAllM_eq]
  exact onFields (mapValues fun _ => h) t

end
end Returns

/-! ### Passes -/

section
variable (groups : Groups)

theorem run_expandGroup (name : String) (memo : Expanded) :
    (expandGroup groups name).run.run memo =
      match memo.lookup name with
      | some steps => (.ok steps, memo)
      | none =>
        (do
          let entries ← (entries? groups name : Except Fault (List Tree))
          expandStack groups (stepBound groups entries) [⟨some name, entries, []⟩] :
            Expanding (List Tree)).run.run memo := by
  rw [expandGroup, run_get_bind]
  cases memo.lookup name <;> rfl

theorem returns_expandGroup (name : String) :
    Returns (Faithful groups) (expandGroup groups name) (inlinedGroup groups name) := by
  intro memo hmemo
  rw [run_expandGroup, inlinedGroup_eq]
  cases hlookup : memo.lookup name with
  | some steps => exact ⟨memo, by rw [hmemo name steps hlookup [] (avoids_nil memo)], hmemo⟩
  | none =>
      rw [inlinedGroupUnder_of_notMem List.not_mem_nil]
      cases hentries : entries? groups name with
      | error e => exact ⟨memo, rfl, hmemo⟩
      | ok entries =>
          refine run_expandStack hmemo (some name) ?_ ?_
          · simpa [Avoids] using hlookup
          · rintro _ ⟨⟩
            exact hentries

theorem returns_expandEntries (entries : List Tree) :
    Returns (Faithful groups) (expandEntries groups entries) (inlined groups entries) := by
  intro memo hmemo
  rw [inlined_eq]
  exact run_expandStack hmemo none (avoids_nil memo) (by simp)

-- A group inlined; what is no sequence is no group.
def inlinedOne (name : String) (group : Tree) : Except Fault Tree :=
  if group.items?.isSome then return .seq (← inlinedGroup groups name) else return group

-- A task with its steps inlined.
def inlinedTask (task : List (String × Tree)) : Except Fault (List (String × Tree)) := do
  match task.lookup "steps" with
  | some (.string name) => return Fields.put "steps" (.seq (← inlinedGroup groups name)) task
  | some (.seq entries) => return Fields.put "steps" (.seq (← inlined groups entries)) task
  | _ => return task

end

theorem expandSteps_eq (defs : Tree) :
    expandSteps defs = defs.modifyM "steps" (onFields (mapValues (inlinedOne (groupsOf defs)))) := by
  refine Returns.start (I := Faithful (groupsOf defs)) (.modifyM _ (fun steps => ?_) defs) (faithful_nil _)
  cases steps with
  | map fields =>
      refine (Returns.mapM (fun field => ?_) fields).bind fun fields' => .pure (Tree.map fields')
      by_cases hitems : field.2.items?.isSome
      · simp only [inlinedOne, if_pos hitems, bind_assoc, pure_bind]
        exact (returns_expandGroup _ field.1).bind fun steps => .pure (field.1, Tree.seq steps)
      · simp only [inlinedOne, if_neg hitems]
        exact .pure field
  | _ => exact .pure _

theorem expandTaskSteps_eq (defs : Tree) :
    expandTaskSteps defs = defs.modifyM "taskGroups"
      (Tree.modifyAllM (Tree.modifyAllM (onFields (inlinedTask (groupsOf defs))))) := by
  rw [expandTaskSteps, eachTask_eq]
  refine Returns.start (I := Faithful (groupsOf defs)) ?_ (faithful_nil _)
  refine .modifyM _ (Returns.modifyAllM (Returns.modifyAllM (.onFields fun task => ?_))) defs
  rw [expandTask, inlinedTask]
  cases task.lookup "steps" with
  | none => exact .pure task
  | some steps =>
      cases steps with
      | string name => exact (returns_expandGroup _ name).bind fun steps => .pure _
      | seq entries => exact (returns_expandEntries _ entries).bind fun steps => .pure _
      | _ => exact .pure task

end ScraperTimeline.Normal
