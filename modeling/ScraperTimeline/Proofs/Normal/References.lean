import ScraperTimeline.Proofs.Normal.FixedPoint
import Mathlib.Logic.Relation

/-!
References between step groups as a graph. A name can be expanded just when all that it reaches are groups
and none of them reaches itself; where it cannot, the error shows a name without a group or a cycle.
-/
namespace ScraperTimeline.Normal
open Shape

section
variable (groups : Groups) (open_ : List String) (entries : List Tree) (name : String)

def IsGroup : Prop := ∃ entries, groups.lookup name = some (.seq entries)

-- An entry of the group names the other.
def Refers (other : String) : Prop := ∃ entries, groups.lookup name = some (.seq entries) ∧ .string other ∈ entries

def Reaches : String → Prop := Relation.ReflTransGen (Refers groups) name

-- In one reference or more.
def ReachesItself : Prop := Relation.TransGen (Refers groups) name name

def Expandable : Prop := ∀ other, Reaches groups name other → IsGroup groups other ∧ ¬ReachesItself groups other

-- Nor is a group reached from the entries that is open around them.
def ExpandableUnder : Prop := ∀ name, .string name ∈ entries → ∀ other, Reaches groups name other →
  IsGroup groups other ∧ other ∉ open_ ∧ ¬ReachesItself groups other

-- From name to name each refers to the next, up to the first that has been there before.
structure IsCycle (chain : List String) : Prop where
  starts : chain.head? = some name
  refers : chain.IsChain (Refers groups)
  distinct : chain.dropLast.Nodup
  closes : ∃ last ∈ chain.dropLast, chain.getLast? = some last

-- What comes after the open groups starts at one of the entries.
structure IsCycleUnder (chain : List String) : Prop where
  refers : ∃ first rest, chain = open_ ++ first :: rest ∧ .string first ∈ entries ∧
    (first :: rest).IsChain (Refers groups)
  distinct : chain.dropLast.Nodup
  closes : ∃ last ∈ chain.dropLast, chain.getLast? = some last

def Explains : Fault → Prop
  | .cyclicSteps chain => IsCycleUnder groups open_ entries chain
  | .definitionNotFound kind missing => kind = "step group" ∧
      (∃ name, .string name ∈ entries ∧ Reaches groups name missing) ∧ ¬IsGroup groups missing
  | _ => False

end

section
variable {groups : Groups} {open_ : List String} {entries rest steps : List Tree} {name other : String}
  {e : Fault}

theorem refers_of_entries (h : groups.lookup name = some (.seq entries)) (hother : .string other ∈ entries) :
    Refers groups name other := ⟨entries, h, hother⟩

theorem Refers.mem_entries (h : Refers groups name other) (hlookup : groups.lookup name = some (.seq entries)) :
    .string other ∈ entries := by
  obtain ⟨entries', hlookup', hother⟩ := h
  obtain rfl : entries = entries' := by simpa [hlookup] using hlookup'
  exact hother

/-! ### Success -/

theorem ExpandableUnder.cons_step {step : Tree} (hstep : ¬IsText step) (h : ExpandableUnder groups open_ rest) :
    ExpandableUnder groups open_ (step :: rest) := by
  intro name hname
  rcases List.mem_cons.mp hname with heq | hname
  · exact (hstep ⟨name, heq.symm⟩).elim
  · exact h name hname

-- A group that was on a cycle would be reached from its own entries, where it is open.
theorem ExpandableUnder.cons_group (hopen : name ∉ open_) (hlookup : groups.lookup name = some (.seq entries))
    (hentries : ExpandableUnder groups (open_ ++ [name]) entries) (h : ExpandableUnder groups open_ rest) :
    ExpandableUnder groups open_ (.string name :: rest) := by
  have hinside {first other : String} (hfirst : Refers groups name first) (hreach : Reaches groups first other) :
      IsGroup groups other ∧ (other ∉ open_ ∧ other ≠ name) ∧ ¬ReachesItself groups other := by
    simpa using hentries first (hfirst.mem_entries hlookup) other hreach
  intro text htext other hreach
  rcases List.mem_cons.mp htext with heq | htext
  · obtain rfl := Tree.string.inj heq
    rcases Relation.ReflTransGen.cases_head hreach with rfl | ⟨first, hfirst, hreach⟩
    · refine ⟨⟨entries, hlookup⟩, hopen, fun hcycle => ?_⟩
      obtain ⟨first, hfirst, hreach⟩ := Relation.TransGen.head'_iff.mp hcycle
      exact (hinside hfirst hreach).2.1.2 rfl
    · obtain ⟨hgroup, ⟨hother, -⟩, hcycle⟩ := hinside hfirst hreach
      exact ⟨hgroup, hother, hcycle⟩
  · exact h text htext other hreach

theorem Inlines.expandableUnder (h : Inlines groups open_ entries (.ok steps)) :
    ExpandableUnder groups open_ entries := by
  refine h.ok_induct ?nil ?step ?group
  case nil =>
    intro open_ name hname
    cases hname
  case step =>
    intro open_ step rest steps hstep hrest
    exact hrest.cons_step hstep
  case group =>
    intro open_ name entries rest steps more hopen hlookup hentries hrest
    exact .cons_group hopen hlookup hentries hrest

theorem exists_inlinedUnder_of_expandableUnder (groups : Groups) (open_ : List String) (entries : List Tree) :
    ExpandableUnder groups open_ entries → ∃ steps, inlinedUnder groups open_ entries = .ok steps := by
  induction open_, entries using inlined_induct groups with
  | nil open_ => exact fun _ => ⟨[], inlinedUnder_nil groups open_⟩
  | text open_ name rest hgroup hrest =>
      intro h
      obtain ⟨more, hmore⟩ := hrest fun text htext => h text (List.mem_cons_of_mem _ htext)
      obtain ⟨⟨entries, hlookup⟩, hopen, hcycle⟩ := h name List.mem_cons_self name .refl
      have hentries := entries?_eq_ok_iff.mpr hlookup
      obtain ⟨steps, hsteps⟩ := hgroup entries hopen hentries fun first hfirst other hreach => by
        have hrefers := refers_of_entries hlookup hfirst
        obtain ⟨hother, hnot, hacyclic⟩ := h name List.mem_cons_self other (.head hrefers hreach)
        refine ⟨hother, ?_, hacyclic⟩
        rw [List.mem_append, List.mem_singleton]
        rintro (hmem | rfl)
        · exact hnot hmem
        · exact hcycle (.head' hrefers hreach)
      rw [inlinedUnder_text, inlinedGroupUnder_of_entries hopen hentries, hsteps, hmore]
      exact ⟨steps ++ more, rfl⟩
  | step open_ step rest hstep hrest =>
      intro h
      obtain ⟨more, hmore⟩ := hrest fun text htext => h text (List.mem_cons_of_mem _ htext)
      rw [inlinedUnder_step hstep, hmore]
      exact ⟨step :: more, rfl⟩

theorem exists_inlinedUnder_iff : (∃ steps, inlinedUnder groups open_ entries = .ok steps) ↔
    ExpandableUnder groups open_ entries :=
  ⟨fun ⟨_, h⟩ => (inlines_iff.mpr h).expandableUnder, exists_inlinedUnder_of_expandableUnder groups open_ entries⟩

theorem exists_inlinedGroup_iff : (∃ steps, inlinedGroup groups name = .ok steps) ↔ Expandable groups name := by
  rw [← inlined_text, inlined_eq, exists_inlinedUnder_iff]
  simp [ExpandableUnder, Expandable]

/-! ### Failure -/

theorem Explains.mono {entries' : List Tree} (h : Explains groups open_ entries e) (hsub : entries ⊆ entries') :
    Explains groups open_ entries' e := by
  cases e with
  | cyclicSteps chain =>
      obtain ⟨⟨first, rest, hchain, hfirst, hrefers⟩, hdistinct, hcloses⟩ := h
      exact ⟨⟨first, rest, hchain, hsub hfirst, hrefers⟩, hdistinct, hcloses⟩
  | definitionNotFound kind missing =>
      obtain ⟨hkind, ⟨name, hname, hreach⟩, hgroup⟩ := h
      exact ⟨hkind, ⟨name, hsub hname, hreach⟩, hgroup⟩
  | _ => exact h.elim

theorem Explains.group (hlookup : groups.lookup name = some (.seq entries))
    (h : Explains groups (open_ ++ [name]) entries e) : Explains groups open_ (.string name :: rest) e := by
  cases e with
  | cyclicSteps chain =>
      obtain ⟨⟨first, more, hchain, hfirst, hrefers⟩, hdistinct, hcloses⟩ := h
      refine ⟨⟨name, first :: more, ?_, List.mem_cons_self, ?_⟩, hdistinct, hcloses⟩
      · rw [hchain, List.append_assoc, List.singleton_append]
      · exact List.isChain_cons_cons.mpr ⟨refers_of_entries hlookup hfirst, hrefers⟩
  | definitionNotFound kind missing =>
      obtain ⟨hkind, ⟨first, hfirst, hreach⟩, hgroup⟩ := h
      exact ⟨hkind, ⟨name, List.mem_cons_self, .head (refers_of_entries hlookup hfirst) hreach⟩, hgroup⟩
  | _ => exact h.elim

theorem Inlines.explains (h : Inlines groups open_ entries (.error e)) (hopen : open_.Nodup) :
    Explains groups open_ entries e := by
  generalize hr : Except.error e = r at h
  induction h generalizing e with
  | nil => cases hr
  | @step open_ step rest r hstep _ ih =>
      cases r with
      | ok steps => cases hr
      | error e' =>
          obtain rfl := Except.error.inj hr
          exact (ih hopen rfl).mono (List.subset_cons_self _ _)
  | @group open_ name entries steps rest r _ _ _ _ _ hrest =>
      cases r with
      | ok steps => cases hr
      | error e' =>
          obtain rfl := Except.error.inj hr
          exact (hrest hopen rfl).mono (List.subset_cons_self _ _)
  | @failing open_ name entries rest e' hname hlookup _ ih =>
      obtain rfl := Except.error.inj hr
      refine (ih (List.nodup_append.mpr ⟨hopen, List.nodup_singleton name, ?_⟩) rfl).group hlookup
      rintro a ha b hb rfl
      exact hname (List.mem_singleton.mp hb ▸ ha)
  | @cyclic open_ name rest hname =>
      obtain rfl := Except.error.inj hr
      refine ⟨⟨name, [], rfl, List.mem_cons_self, List.IsChain.singleton name⟩, ?_, name, ?_, by simp⟩
      · rwa [List.dropLast_concat]
      · rwa [List.dropLast_concat]
  | @missing open_ name rest hname hmissing =>
      obtain rfl := Except.error.inj hr
      exact ⟨rfl, ⟨name, List.mem_cons_self, .refl⟩, fun ⟨entries, hlookup⟩ => hmissing entries hlookup⟩

theorem explains_of_inlinedGroup (h : inlinedGroup groups name = .error e) :
    Explains groups [] [.string name] e := by
  rw [← inlined_text, inlined_eq] at h
  exact (inlines_iff.mpr h).explains List.nodup_nil

theorem IsCycleUnder.isCycle {chain : List String} (h : IsCycleUnder groups [] [.string name] chain) :
    IsCycle groups name chain := by
  obtain ⟨⟨first, rest, rfl, hfirst, hrefers⟩, hdistinct, hcloses⟩ := h
  obtain rfl : first = name := by simpa using hfirst
  exact ⟨rfl, hrefers, hdistinct, hcloses⟩

/-! ### All groups of a tree -/

theorem exists_inlinedOne_iff {group : Tree} : (∃ v, inlinedOne groups name group = .ok v) ↔
    ∀ entries, group = .seq entries → Expandable groups name := by
  cases group with
  | seq entries =>
      simp only [Tree.seq.injEq, forall_eq', ← exists_inlinedGroup_iff]
      have hrun : inlinedOne groups name (.seq entries) = do return .seq (← inlinedGroup groups name) := rfl
      rw [hrun]
      cases inlinedGroup groups name with
      | error e =>
          constructor <;> rintro ⟨_, h⟩
          · cases h
          · cases h
      | ok steps => exact ⟨fun _ => ⟨_, rfl⟩, fun _ => ⟨_, rfl⟩⟩
  | _ => exact ⟨fun _ _ h => (Tree.noConfusion h : False).elim, fun _ => ⟨_, rfl⟩⟩

theorem Sectioned.eachGroup_iff {t : Tree} {P : List (String × Tree) → Prop} (h : Sectioned t) (hnil : P []) :
    EachGroup P t ↔ P (groupsOf t) := by
  cases t with
  | map fields =>
      rw [groupsOf, Tree.field?]
      cases hlookup : fields.lookup "steps" with
      | none =>
          have hkey : "steps" ∉ Fields.keys fields := Fields.lookup_eq_none_iff.mp hlookup
          exact ⟨fun _ => hnil, fun _ v hv => (hkey (Fields.mem_keys hv)).elim⟩
      | some steps =>
          have hone : EachGroup P (.map fields) ↔ IfMapping P steps := by
            refine ⟨fun hat => hat steps (Fields.mem_of_lookup hlookup), fun hsteps v hv => ?_⟩
            obtain rfl : steps = v := Option.some.inj (hlookup.symm.trans (Fields.lookup_of_mem h.sections hv))
            exact hsteps
          rw [hone]
          cases steps with
          | map groups => exact Iff.rfl
          | _ => exact ⟨fun _ => hnil, fun _ => trivial⟩
  | _ => exact ⟨fun _ => hnil, fun _ => trivial⟩

theorem Sectioned.nodup_groupsOf {t : Tree} (h : Sectioned t) : (Fields.keys (groupsOf t)).Nodup :=
  (h.eachGroup_iff (P := fun groups => (Fields.keys groups).Nodup) List.nodup_nil).mp h.groups

theorem exists_expandSteps_iff {t : Tree} (hkeyed : t.keyed) :
    (∃ t', expandSteps t = .ok t') ↔ ∀ name, IsGroup (groupsOf t) name → Expandable (groupsOf t) name := by
  have hsections := sectioned_of_keyed hkeyed
  rw [expandSteps_eq, exists_modifyM_iff]
  simp only [exists_onFields_iff, exists_mapValues_iff, exists_inlinedOne_iff]
  refine (hsections.eachGroup_iff (P := fun groups => ∀ group ∈ groups, ∀ entries, group.2 = .seq entries →
    Expandable (groupsOf t) group.1) (by simp)).trans ⟨?_, ?_⟩
  · rintro h name ⟨entries, hlookup⟩
    exact h (name, .seq entries) (Fields.mem_of_lookup hlookup) entries rfl
  · rintro h ⟨name, _⟩ hgroup entries rfl
    exact h name ⟨entries, Fields.lookup_of_mem hsections.nodup_groupsOf hgroup⟩

/-! ### The order of the groups -/

section
variable {groups' : Groups}

theorem lookup_eq_of_perm (hperm : groups.Perm groups') (hkeys : (Fields.keys groups).Nodup) (name : String) :
    groups.lookup name = groups'.lookup name := by
  have hkeys' : (Fields.keys groups').Nodup := (hperm.map Prod.fst).nodup_iff.mp hkeys
  cases hlookup : groups.lookup name with
  | some group => exact (Fields.lookup_of_mem hkeys' (hperm.subset (Fields.mem_of_lookup hlookup))).symm
  | none =>
      rw [Fields.lookup_eq_none_iff] at hlookup
      rw [Eq.comm, Fields.lookup_eq_none_iff]
      exact fun hname => hlookup ((hperm.map Prod.fst).symm.subset hname)

theorem expandable_congr (h : ∀ name, groups.lookup name = groups'.lookup name) :
    Expandable groups = Expandable groups' := by
  have hrefers : Refers groups = Refers groups' := by
    funext name other
    rw [Refers, Refers, h name]
  funext name
  simp only [Expandable, Reaches, ReachesItself, IsGroup, hrefers, h]

theorem exists_expandSteps_of_perm {t u t' : Tree} (ht : t.keyed) (hu : u.keyed)
    (hperm : (groupsOf t).Perm (groupsOf u)) (hrun : expandSteps t = .ok t') : ∃ u', expandSteps u = .ok u' := by
  have hlookup := lookup_eq_of_perm hperm (sectioned_of_keyed ht).nodup_groupsOf
  have hall := (exists_expandSteps_iff ht).mp ⟨t', hrun⟩
  rw [exists_expandSteps_iff hu, ← expandable_congr hlookup]
  rintro name ⟨entries, hgroup⟩
  exact hall name ⟨entries, (hlookup name).trans hgroup⟩

end

-- A group is expanded by a new expander if and only if nothing that it reaches is missing or on a cycle. An
-- error is one of two kinds, and it shows a cycle from the name on, or a name that is reached and has no
-- group. So no order of the groups can make the difference between a tree that is expanded and one that fails.
theorem expandGroup_sound_complete :
    (∀ groups name, (∃ steps, (expandGroup groups name).start = .ok steps) ↔ Expandable groups name) ∧
    (∀ groups name e, (expandGroup groups name).start = .error e →
      (∃ chain, e = .cyclicSteps chain ∧ IsCycle groups name chain) ∨
      (∃ missing, e = .definitionNotFound "step group" missing ∧ Reaches groups name missing ∧
        ¬IsGroup groups missing)) ∧
    (∀ t u : Tree, t.keyed → u.keyed → (groupsOf t).Perm (groupsOf u) →
      ((∃ t', expandSteps t = .ok t') ↔ ∃ u', expandSteps u = .ok u')) := by
  have hstart (groups : Groups) (name : String) : (expandGroup groups name).start = inlinedGroup groups name :=
    (returns_expandGroup groups name).start (faithful_nil groups)
  refine ⟨fun groups name => ?_, fun groups name e hrun => ?_, fun t u ht hu hperm => ⟨?_, ?_⟩⟩
  · rw [hstart, exists_inlinedGroup_iff]
  · rw [hstart] at hrun
    have h := explains_of_inlinedGroup hrun
    cases e with
    | cyclicSteps chain => exact .inl ⟨chain, rfl, h.isCycle⟩
    | definitionNotFound kind missing =>
        obtain ⟨rfl, ⟨first, hfirst, hreach⟩, hgroup⟩ := h
        obtain rfl : first = name := by simpa using hfirst
        exact .inr ⟨missing, rfl, hreach, hgroup⟩
    | _ => exact h.elim
  · rintro ⟨t', hrun⟩
    exact exists_expandSteps_of_perm ht hu hperm hrun
  · rintro ⟨u', hrun⟩
    exact exists_expandSteps_of_perm hu ht hperm.symm hrun

end

-- `load` is on a cycle that `all` runs into, and `spare` refers to nothing.
def looping : Groups :=
  [("all", .seq [.string "load"]), ("load", .seq [.map [("fetch", .seq [])], .string "read"]),
    ("read", .seq [.string "load"]), ("spare", .seq [])]

theorem expandGroup_sound_complete_looping :
    (∃ chain, Fault.cyclicSteps ["all", "load", "read", "load"] = .cyclicSteps chain ∧ IsCycle looping "all" chain) ∧
    (¬Expandable looping "all" ∧ Expandable looping "spare") ∧
    (∃ missing, Fault.definitionNotFound "step group" "lost" = .definitionNotFound "step group" missing ∧
      Reaches looping "lost" missing ∧ ¬IsGroup looping missing) ∧
    ((∃ t', expandSteps (.map [("steps", .map looping)]) = .ok t') ↔
      ∃ u', expandSteps (.map [("steps", .map looping.reverse)]) = .ok u') := by
  obtain ⟨hsuccess, hfailure, hreordered⟩ := expandGroup_sound_complete
  have hcycle : (expandGroup looping "all").start = .error (.cyclicSteps ["all", "load", "read", "load"]) := rfl
  have hlost : (expandGroup looping "lost").start = .error (.definitionNotFound "step group" "lost") := rfl
  refine ⟨?_, ⟨fun h => ?_, (hsuccess looping "spare").mp ⟨[], rfl⟩⟩, ?_,
    hreordered _ _ (by decide) (by decide) looping.reverse_perm.symm⟩
  · rcases hfailure looping "all" _ hcycle with h | ⟨missing, heq, -⟩
    · exact h
    · exact (Fault.noConfusion heq : False).elim
  · obtain ⟨steps, hsteps⟩ := (hsuccess looping "all").mpr h
    rw [hcycle] at hsteps
    cases hsteps
  · rcases hfailure looping "lost" _ hlost with ⟨chain, heq, -⟩ | h
    · exact (Fault.noConfusion heq : False).elim
    · exact h

end ScraperTimeline.Normal
