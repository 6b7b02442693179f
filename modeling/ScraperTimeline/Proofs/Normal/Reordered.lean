import ScraperTimeline.Normal.Basic
import ScraperTimeline.Proofs.Normal.Done
import ScraperTimeline.Proofs.Normal.Returned
import ScraperTimeline.Proofs.Tree.Same

/-!
Normalization and the order of fields: trees that differ in it at most both have an effective tree, and the
effective trees differ in it at most, or neither has one.
-/
namespace ScraperTimeline.Normal
open Shape ScraperTimeline.Tree

-- Both go well, with results that are related, or both fail.
def Agree {α β : Type} (R : α → β → Prop) : Except Fault α → Except Fault β → Prop
  | .ok a, .ok b => R a b
  | .error _, .error _ => True
  | _, _ => False

namespace Agree

variable {α β γ δ : Type} {R : α → β → Prop} {S : γ → δ → Prop} {x : Except Fault α} {y : Except Fault β}

theorem bind {f : α → Except Fault γ} {g : β → Except Fault δ} (h : Agree R x y)
    (hfg : ∀ a b, x = .ok a → R a b → Agree S (f a) (g b)) : Agree S (x >>= f) (y >>= g) := by
  cases x with
  | ok a =>
      cases y with
      | ok b => exact hfg a b rfl h
      | error e => exact h.elim
  | error e =>
      cases y with
      | ok b => exact h.elim
      | error e => trivial

theorem symm {R : α → β → Prop} {R' : β → α → Prop} (h : Agree R x y) (hR : ∀ a b, R a b → R' b a) :
    Agree R' y x := by
  cases x with
  | ok a =>
      cases y with
      | ok b => exact hR a b h
      | error e => exact h.elim
  | error e =>
      cases y with
      | ok b => exact h.elim
      | error e => trivial

theorem ok_of_ok {a : α} (h : Agree R (.ok a) y) : ∃ b, y = .ok b ∧ R a b := by
  cases y with
  | ok b => exact ⟨b, rfl, h⟩
  | error e => exact h.elim

end Agree

/-! ### Changes field by field -/

section
variable {f g : String → Tree → Except Fault Tree} {as bs as' : List (String × Tree)}

theorem exists_mapValues_of_sameFields (h : SameFields as bs)
    (hfg : ∀ key a b, Same a b → Agree Same (f key a) (g key b)) (hrun : ∃ as', mapValues f as = .ok as') :
    ∃ bs', mapValues g bs = .ok bs' := by
  rw [exists_mapValues_iff] at hrun ⊢
  rintro ⟨key, b⟩ hfield
  obtain ⟨a, ha, hsame⟩ := h.symm.exists_of_lookup (Fields.lookup_of_mem h.right hfield)
  obtain ⟨a', ha'⟩ := hrun _ (Fields.mem_of_lookup ha)
  obtain ⟨b', hb', -⟩ := (ha' ▸ hfg key a b hsame.symm).ok_of_ok
  exact ⟨b', hb'⟩

-- Whether all goes well does not depend on the order in which the fields come.
theorem agree_mapValues (h : SameFields as bs) (hfg : ∀ key a b, Same a b → Agree Same (f key a) (g key b)) :
    Agree SameFields (mapValues f as) (mapValues g bs) := by
  have hforth := exists_mapValues_of_sameFields h hfg
  have hback := exists_mapValues_of_sameFields h.symm fun key b a hab =>
    (hfg key a b hab.symm).symm fun _ _ => Same.symm
  cases hf : mapValues f as with
  | ok as' =>
      obtain ⟨bs', hg⟩ := hforth ⟨as', hf⟩
      rw [hg]
      refine h.of_related (related_of_mapValues hf) (related_of_mapValues hg) ?_
      intro key a b a' b' hab ha' hb'
      have hagree := hfg key a b hab
      rwa [ha', hb'] at hagree
  | error e =>
      cases hg : mapValues g bs with
      | ok bs' =>
          obtain ⟨as', hf'⟩ := hback ⟨bs', hg⟩
          cases hf.symm.trans hf'
      | error e => trivial

end

section
variable {t u : Tree} {f g : Tree → Except Fault Tree}

theorem agree_onFields {f g : List (String × Tree) → Except Fault (List (String × Tree))}
    (hfg : ∀ as bs, SameFields as bs → Agree SameFields (f as) (g bs)) (h : Same t u) :
    Agree Same (onFields f t) (onFields g u) := by
  rcases h.mapping_or with ⟨as, bs, rfl, rfl, hfields⟩ | ⟨ht, hu⟩
  · exact (hfg as bs hfields).bind fun as' bs' _ h => same_map_iff.mpr ⟨bs', rfl, h⟩
  · have hkept (f : List (String × Tree) → Except Fault (List (String × Tree))) (t : Tree)
        (ht : t.fields? = none) : onFields f t = .ok t := by
      cases t with
      | map fields => cases ht
      | _ => rfl
    rwa [hkept f t ht, hkept g u hu]

theorem agree_modifyM (key : String) (hfg : ∀ a b, Same a b → Agree Same (f a) (g b)) (h : Same t u) :
    Agree Same (t.modifyM key f) (u.modifyM key g) := by
  rw [modifyM_eq, modifyM_eq]
  refine agree_onFields (fun as bs hfields => agree_mapValues hfields fun k a b hab => ?_) h
  split
  · exact hfg a b hab
  · exact hab

theorem agree_modifyAllM (hfg : ∀ a b, Same a b → Agree Same (f a) (g b)) (h : Same t u) :
    Agree Same (t.modifyAllM f) (u.modifyAllM g) := by
  rw [modifyAllM_eq, modifyAllM_eq]
  exact agree_onFields (fun as bs hfields => agree_mapValues hfields fun _ => hfg) h

end

/-! ### Step groups -/

section
variable {groups groups' : Groups} {entries entries' : List Tree}

theorem agree_entries? (h : SameFields groups groups') (name : String) :
    Agree (List.Forall₂ Same) (entries? groups name) (entries? groups' name) := by
  rw [entries?, entries?]
  have hrel := h.lookup name
  generalize groups.lookup name = x, groups'.lookup name = y at hrel ⊢
  cases hrel with
  | none => trivial
  | @some a b hsame =>
      cases a with
      | seq items =>
          obtain ⟨items', rfl, hitems⟩ := same_seq_iff.mp hsame
          exact hitems
      | _ =>
          cases b with
          | seq _ => cases hsame.kind_eq
          | _ => trivial

theorem agree_inlinedGroupUnder {open_ : List String} {name : String} (h : SameFields groups groups')
    (hgroup : ∀ entries, name ∉ open_ → entries? groups name = .ok entries → ∀ entries',
      List.Forall₂ Same entries entries' → Agree (List.Forall₂ Same)
        (inlinedUnder groups (open_ ++ [name]) entries) (inlinedUnder groups' (open_ ++ [name]) entries')) :
    Agree (List.Forall₂ Same) (inlinedGroupUnder groups open_ name) (inlinedGroupUnder groups' open_ name) := by
  by_cases hopen : name ∈ open_
  · rw [inlinedGroupUnder_of_mem hopen, inlinedGroupUnder_of_mem hopen]
    trivial
  · rw [inlinedGroupUnder_of_notMem hopen, inlinedGroupUnder_of_notMem hopen]
    exact (agree_entries? h name).bind fun entries entries' hentries => hgroup entries hopen hentries entries'

-- The groups are read by their names, so that the same ones are opened on both sides.
theorem agree_inlinedUnder (h : SameFields groups groups') (open_ : List String) (entries : List Tree) :
    ∀ entries', List.Forall₂ Same entries entries' →
      Agree (List.Forall₂ Same) (inlinedUnder groups open_ entries) (inlinedUnder groups' open_ entries') := by
  induction open_, entries using inlined_induct groups with
  | nil open_ =>
      rintro _ ⟨⟩
      rw [inlinedUnder_nil, inlinedUnder_nil]
      exact .nil
  | text open_ name rest hgroup hrest =>
      intro entries' hentries
      obtain ⟨_, rest', hname, htail, rfl⟩ := List.forall₂_cons_left_iff.mp hentries
      obtain rfl := equal_string_iff.mp hname.2.2
      rw [inlinedUnder_text, inlinedUnder_text]
      refine (agree_inlinedGroupUnder h hgroup).bind fun steps steps' _ hsteps => ?_
      exact (hrest rest' htail).bind fun more more' _ hmore => List.rel_append hsteps hmore
  | step open_ step rest hstep hrest =>
      intro entries' hentries
      obtain ⟨step', rest', hsame, htail, rfl⟩ := List.forall₂_cons_left_iff.mp hentries
      have hstep' : ¬IsText step' := by
        rintro ⟨name, rfl⟩
        exact hstep ⟨name, (equal_string_iff.mp hsame.symm.2.2).symm⟩
      rw [inlinedUnder_step hstep, inlinedUnder_step hstep']
      exact (hrest rest' htail).bind fun more more' _ hmore => .cons hsame hmore

theorem agree_inlined (h : SameFields groups groups') (hentries : List.Forall₂ Same entries entries') :
    Agree (List.Forall₂ Same) (inlined groups entries) (inlined groups' entries') := by
  rw [inlined_eq, inlined_eq]
  exact agree_inlinedUnder h [] entries entries' hentries

theorem agree_inlinedGroup (h : SameFields groups groups') (name : String) :
    Agree (List.Forall₂ Same) (inlinedGroup groups name) (inlinedGroup groups' name) := by
  rw [inlinedGroup_eq, inlinedGroup_eq]
  exact agree_inlinedGroupUnder h fun entries _ _ => agree_inlinedUnder h _ entries

end

/-! ### Passes -/

section
variable {t u : Tree}

theorem respects_eachMember {f : Nat → List (String × Tree) → List (String × Tree)}
    (hf : ∀ n, RespectsFields (f n)) : Respects (eachMember f) :=
  ((((respects_modifyItems fun n => (hf n).modifyFields).modify _).modifyAll.modify _).modifyAll).modify _

theorem respects_addFactAxis : Respects addFactAxis := by
  have hfact : RespectsFields (Fields.default "fact" factAxis) := fun as bs h =>
    h.default (same_refl (by decide) (by decide))
  have hbody : RespectsFields withFactAxis := fun as bs h =>
    hfact.modifyFields.field "axis" _ _ (h.default (same_refl (by decide) (by decide)))
  exact hbody.modifyFields.modifyAll.modify _

theorem respects_addIndex : Respects addIndex :=
  respects_eachMember fun _ _ _ h => h.default (same_refl rfl rfl)

theorem orderOf_eq_of_sameFields {as bs : List (String × Tree)} (h : SameFields as bs) (n : Nat) :
    orderOf n as = orderOf n bs := by
  have hrel := h.lookup "index"
  rw [orderOf, orderOf]
  generalize as.lookup "index" = x, bs.lookup "index" = y at hrel ⊢
  cases hrel with
  | none => rfl
  | some hsame => rw [Option.bind_some, Option.bind_some, hsame.integer?_eq]

theorem respects_addOrder : Respects addOrder := by
  refine respects_eachMember fun n as bs h => ?_
  have horder : Same (orderOf n as) (orderOf n bs) := by
    rw [orderOf_eq_of_sameFields h n, orderOf]
    split <;> exact same_refl rfl rfl
  exact h.default horder

theorem respects_setDefaultSteps (defaultGroup : String) : Respects (setDefaultSteps defaultGroup) := by
  have htask : RespectsFields (Fields.default "steps" (.string defaultGroup)) := fun as bs h =>
    h.default (same_refl rfl rfl)
  rw [show setDefaultSteps defaultGroup = _ from funext (setDefaultSteps_eq defaultGroup)]
  exact htask.modifyFields.modifyAll.modifyAll.modify _

theorem agree_inlinedOne {groups groups' : Groups} {a b : Tree} (hgroups : SameFields groups groups')
    (name : String) (h : Same a b) : Agree Same (inlinedOne groups name a) (inlinedOne groups' name b) := by
  rw [inlinedOne, inlinedOne, ← h.items?_isSome_eq]
  split
  · exact (agree_inlinedGroup hgroups name).bind fun steps steps' _ h => same_seq_iff.mpr ⟨steps', rfl, h⟩
  · exact h

theorem agree_expandSteps (h : Same t u) : Agree Same (expandSteps t) (expandSteps u) := by
  have hgroups : SameFields (groupsOf t) (groupsOf u) := h.sameFields_section "steps"
  rw [expandSteps_eq, expandSteps_eq]
  refine agree_modifyM _ (fun _ _ => agree_onFields fun as bs hfields => ?_) h
  exact agree_mapValues hfields fun name _ _ => agree_inlinedOne hgroups name

theorem agree_inlinedTask {groups groups' : Groups} {as bs : List (String × Tree)}
    (hgroups : SameFields groups groups') (h : SameFields as bs) :
    Agree SameFields (inlinedTask groups as) (inlinedTask groups' bs) := by
  have hput {r r' : Except Fault (List Tree)} (hr : Agree (List.Forall₂ Same) r r') :
      Agree SameFields (do return Fields.put "steps" (.seq (← r)) as)
        (do return Fields.put "steps" (.seq (← r')) bs) :=
    hr.bind fun steps steps' _ hsteps => h.put (same_seq_iff.mpr ⟨steps', rfl, hsteps⟩)
  have hrel := h.lookup "steps"
  rw [inlinedTask, inlinedTask]
  generalize as.lookup "steps" = x, bs.lookup "steps" = y at hrel ⊢
  cases hrel with
  | none => exact h
  | @some a b hsame =>
      cases a with
      | string name =>
          obtain rfl := equal_string_iff.mp hsame.2.2
          exact hput (agree_inlinedGroup hgroups name)
      | seq entries =>
          obtain ⟨entries', rfl, hentries⟩ := same_seq_iff.mp hsame
          exact hput (agree_inlined hgroups hentries)
      | _ =>
          cases b with
          | string _ => cases hsame.kind_eq
          | seq _ => cases hsame.kind_eq
          | _ => exact h

theorem agree_expandTaskSteps (h : Same t u) : Agree Same (expandTaskSteps t) (expandTaskSteps u) := by
  have hgroups : SameFields (groupsOf t) (groupsOf u) := h.sameFields_section "steps"
  rw [expandTaskSteps_eq, expandTaskSteps_eq]
  refine agree_modifyM _ (fun _ _ => agree_modifyAllM fun _ _ => agree_modifyAllM fun _ _ => ?_) h
  exact agree_onFields fun _ _ => agree_inlinedTask hgroups

theorem agree_run (defaultGroup : String) (pass : Pass) (h : Same t u) :
    Agree Same (pass.run defaultGroup t) (pass.run defaultGroup u) := by
  cases pass with
  | addFactAxis => exact respects_addFactAxis t u h
  | addIndex => exact respects_addIndex t u h
  | addOrder => exact respects_addOrder t u h
  | expandSteps => exact agree_expandSteps h
  | setDefaultSteps => exact respects_setDefaultSteps defaultGroup t u h
  | expandTaskSteps => exact agree_expandTaskSteps h

theorem agree_normalize (defaultGroup : String) (h : Same t u) :
    Agree Same (normalize defaultGroup t) (normalize defaultGroup u) := by
  have hpasses (passes : List Pass) : Agree Same
      (passes.foldlM (fun defs pass => pass.run defaultGroup defs) t)
      (passes.foldlM (fun defs pass => pass.run defaultGroup defs) u) := by
    induction passes generalizing t u with
    | nil => exact h
    | cons pass rest ih =>
        rw [List.foldlM_cons, List.foldlM_cons]
        exact (agree_run defaultGroup pass h).bind fun t' u' _ h' => ih h'
  exact hpasses Pass.order

end

end ScraperTimeline.Normal
