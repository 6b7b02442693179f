import ScraperTimeline.Proofs.Normal.Shape
import ScraperTimeline.Proofs.Tree.Plain

/-!
What the passes over the axes give to a definition tree: a fact axis for each definition, an index and an
order for each member.
-/
namespace ScraperTimeline.Normal
open Shape

section
variable {done done' : List Pass} {t : Tree}

/-! ### Changes of a part -/

-- A tree keeps its shape if each of its sections does.
theorem IsDefs.of_related {R : String → Tree → Tree → Prop} {fields fields' : List (String × Tree)}
    (h : IsDefs done (.map fields)) (hrel : Related R fields fields')
    (hdefinitions : ∀ v v', IsDefinitions done v → R "dataDefs" v v' → IsDefinitions done' v')
    (hlocators : ∀ v v', IsMapping v → R "locatorGroups" v v' → IsMapping v')
    (hgroups : ∀ v v', IsGroups done v → R "steps" v v' → IsGroups done' v')
    (htasks : ∀ v v', IsTasks done v → R "taskGroups" v v' → IsTasks done' v') :
    IsDefs done' (.map fields') := by
  obtain ⟨hclosed, hneeded⟩ := h
  refine ⟨hrel.closed hclosed fun key P hP v v' hv hR => ?_, hrel.keys_eq ▸ hneeded⟩
  simp only [List.mem_cons, Prod.mk.injEq, List.not_mem_nil, or_false] at hP
  obtain ⟨rfl, rfl⟩ | ⟨rfl, rfl⟩ | ⟨rfl, rfl⟩ | ⟨rfl, rfl⟩ := hP
  · exact ⟨_, by simp, hdefinitions v v' hv hR⟩
  · exact ⟨_, by simp, hlocators v v' hv hR⟩
  · exact ⟨_, by simp, hgroups v v' hv hR⟩
  · exact ⟨_, by simp, htasks v v' hv hR⟩

theorem IsDefs.modify_dataDefs {f : Tree → Tree} (h : IsDefs done t)
    (hf : ∀ v, IsDefinitions done v → (t.indexable → v.indexable) → IsDefinitions done' (f v))
    (hgroups : IsGroups done' = IsGroups done) (htasks : IsTasks done' = IsTasks done) :
    IsDefs done' (t.modify "dataDefs" f) := by
  cases t with
  | map fields =>
      refine h.of_related (related_modify "dataDefs" f fields) ?_ ?_ ?_ ?_
      · rintro v v' hv ⟨hindex, rfl⟩
        exact hf v hv hindex
      · rintro v v' hv ⟨-, rfl⟩
        exact hv
      · rintro v v' hv ⟨-, rfl⟩
        exact hgroups ▸ hv
      · rintro v v' hv ⟨-, rfl⟩
        exact htasks ▸ hv
  | _ => exact h.elim

theorem IsDefinitions.modifyAll {f : Tree → Tree} (h : IsDefinitions done t)
    (hf : ∀ v, IsDefinition done v → (t.indexable → v.indexable) → IsDefinition done' (f v)) :
    IsDefinitions done' (t.modifyAll f) := by
  cases t with
  | map fields =>
      obtain ⟨hvalues, hnames⟩ := h
      have hrel := related_modifyAll f fields
      refine ⟨hrel.values hvalues ?_, hrel.keys_eq ▸ hnames⟩
      rintro key v v' hv ⟨hindex, rfl⟩
      exact hf v hv hindex
  | _ => exact h.elim

theorem IsDefinition.modify_axis {f : Tree → Tree} (h : IsDefinition done t)
    (hf : ∀ v, IsAxes done v → (t.indexable → v.indexable) → IsAxes done' (f v)) :
    IsDefinition done' (t.modify "axis" f) := by
  cases t with
  | map fields =>
      obtain ⟨haxis, hquery, hneeded⟩ := h
      have hrel := related_modify "axis" f fields
      refine ⟨hrel.optional haxis ?_, hrel.optional hquery ?_, hrel.keys_eq ▸ hneeded⟩
      · rintro v v' hv ⟨hindex, rfl⟩
        exact hf v hv hindex
      · rintro v v' hv ⟨-, rfl⟩
        exact hv
  | _ => exact h.elim

theorem IsAxes.modifyAll {f : Tree → Tree} (h : IsAxes done t)
    (hf : ∀ v, IsAxis done v → (t.indexable → v.indexable) → IsAxis done' (f v))
    (hfact : .addFactAxis ∈ done' → .addFactAxis ∈ done) : IsAxes done' (t.modifyAll f) := by
  cases t with
  | map fields =>
      obtain ⟨hclosed, hneeded⟩ := h
      have hrel := related_modifyAll f fields
      refine ⟨hrel.closed hclosed ?_, fun hdone => hrel.keys_eq ▸ hneeded (hfact hdone)⟩
      rintro key P hP v v' hv ⟨hindex, rfl⟩
      simp only [List.mem_cons, Prod.mk.injEq, List.not_mem_nil, or_false] at hP
      obtain ⟨rfl, rfl⟩ | ⟨rfl, rfl⟩ | ⟨rfl, rfl⟩ := hP <;>
        exact ⟨_, by simp, hf v hv hindex⟩
  | _ => exact h.elim

theorem IsAxis.modify_members {f : Nat → Tree → Tree} (h : IsAxis done t)
    (hf : ∀ n v, IsMember done v → (t.indexable → n < 0x8000000000000000) → IsMember done' (f n v)) :
    IsAxis done' (t.modify "members" (Tree.modifyItems f)) := by
  cases t with
  | map fields =>
      refine (related_modify "members" _ fields).closed h ?_
      rintro key P hP v v' hv ⟨hindex, rfl⟩
      simp only [List.mem_cons, Prod.mk.injEq, List.not_mem_nil, or_false] at hP
      obtain ⟨rfl, rfl⟩ | ⟨rfl, rfl⟩ := hP
      · refine ⟨Sequence (IsMember done'), by simp, ?_⟩
        cases v with
        | seq items =>
            rw [if_pos rfl, Tree.modifyItems]
            intro member hmember
            obtain ⟨n, hn, rfl⟩ := List.mem_mapIdx.mp hmember
            refine hf n _ (hv _ (List.getElem_mem hn)) fun h => ?_
            exact Nat.lt_trans hn (Tree.indexable_seq_iff.mp (hindex h)).1
        | _ => exact hv.elim
      · exact ⟨_, by simp, hv⟩
  | _ => exact h.elim

-- A change of the members, each by its position.
theorem IsDefs.eachMember {f : Nat → List (String × Tree) → List (String × Tree)} (h : IsDefs done t)
    (hf : ∀ n fields, IsMember done (.map fields) → (t.indexable → n < 0x8000000000000000) →
      IsMember done' (.map (f n fields)))
    (hfact : .addFactAxis ∈ done' → .addFactAxis ∈ done) (hgroups : IsGroups done' = IsGroups done)
    (htasks : IsTasks done' = IsTasks done) : IsDefs done' (eachMember f t) := by
  refine h.modify_dataDefs (fun definitions hdefinitions hsection => ?_) hgroups htasks
  refine hdefinitions.modifyAll fun definition hdefinition hbody => ?_
  refine hdefinition.modify_axis fun axes haxes hfield => ?_
  refine haxes.modifyAll (fun axis haxis hkind => ?_) hfact
  refine haxis.modify_members fun n member hmember hn => ?_
  cases member with
  | map fields =>
      exact hf n fields hmember fun h => hn (hkind (hfield (hbody (hsection h))))
  | _ => exact hmember.elim

end

/-! ### The fact axis -/

section
variable {done : List Pass} {t : Tree}

theorem isAxis_factAxis (hindex : .addIndex ∉ done) (horder : .addOrder ∉ done) : IsAxis done factAxis := by
  have hmember : IsMember done (.map [("name", .string "fact"), ("value", .string "fact")]) := by
    refine ⟨?_, .inl (by simp [Fields.keys]), by simp [Fields.keys], fun h => (hindex h).elim,
      fun h => (horder h).elim⟩
    intro field hfield
    simp only [List.mem_cons, List.not_mem_nil, or_false] at hfield
    obtain rfl | rfl := hfield
    · exact ⟨IsText, by simp, _, rfl⟩
    · exact ⟨IsScalar, by simp, trivial⟩
  intro field hfield
  obtain rfl := List.mem_singleton.mp hfield
  refine ⟨Sequence (IsMember done), by simp, fun member hmem => ?_⟩
  rwa [List.mem_singleton.mp hmem]

theorem IsAxes.addFact (h : IsAxes done t) (hindex : .addIndex ∉ done) (horder : .addOrder ∉ done) :
    IsAxes (done ++ [.addFactAxis]) (t.modifyFields (Fields.default "fact" factAxis)) := by
  cases t with
  | map fields =>
      obtain ⟨hclosed, -⟩ := h
      refine ⟨?_, fun _ => Fields.mem_keys_default "fact" factAxis fields⟩
      rw [isAxis_append (by decide) (by decide)]
      exact hclosed.default (P := IsAxis done) (by simp) (isAxis_factAxis hindex horder)
  | _ => exact h.elim

theorem modifyFields_withFactAxis (t : Tree) : t.modifyFields withFactAxis =
    (t.modifyFields (Fields.default "axis" (.map []))).modify "axis"
      (Tree.modifyFields (Fields.default "fact" factAxis)) := by
  cases t <;> rfl

theorem IsDefinition.withFactAxis (h : IsDefinition done t) (hindex : .addIndex ∉ done)
    (horder : .addOrder ∉ done) :
    IsDefinition (done ++ [.addFactAxis]) (t.modifyFields withFactAxis) := by
  cases t with
  | map fields =>
      rw [modifyFields_withFactAxis, Tree.modifyFields, Fields.default_of_mem h.2.2]
      exact h.modify_axis fun v hv _ => hv.addFact hindex horder
  | _ => exact h.elim

theorem IsDefs.addFactAxis (h : IsDefs done t) (hindex : .addIndex ∉ done) (horder : .addOrder ∉ done) :
    IsDefs (done ++ [.addFactAxis]) (addFactAxis t) := by
  refine h.modify_dataDefs (fun v hv _ => ?_) (isGroups_append (by decide))
    (isTasks_append (by decide) (by decide))
  exact hv.modifyAll fun v hv _ => hv.withFactAxis hindex horder

theorem indexable_default {key : String} {value : Tree} {fields : List (String × Tree)}
    (hvalue : value.indexable) (h : (Tree.map fields).indexable) :
    (Tree.map (Fields.default key value fields)).indexable := by
  rw [Tree.indexable_map_iff] at h ⊢
  unfold Fields.default
  split
  · exact h
  · rw [List.forall_mem_append, List.forall_mem_singleton]
    exact ⟨h, hvalue⟩

theorem indexable_modify {key : String} {f : Tree → Tree} (h : t.indexable)
    (hf : ∀ v, v.indexable → (f v).indexable) : (t.modify key f).indexable := by
  cases t with
  | map fields =>
      rw [Tree.modify, Tree.indexable_map_iff]
      intro field hfield
      obtain ⟨value, hvalue, hindex, heq⟩ := (related_modify key f fields).exists_of_mem hfield
      rw [heq]
      split
      · exact hf value (hindex h)
      · exact hindex h
  | _ => exact h

theorem indexable_modifyAll {f : Tree → Tree} (h : t.indexable)
    (hf : ∀ v, v.indexable → (f v).indexable) : (t.modifyAll f).indexable := by
  cases t with
  | map fields =>
      rw [Tree.modifyAll, Tree.indexable_map_iff]
      intro field hfield
      obtain ⟨value, hvalue, hindex, heq⟩ := (related_modifyAll f fields).exists_of_mem hfield
      exact heq ▸ hf value (hindex h)
  | _ => exact h

theorem indexable_addFactAxis (h : t.indexable) : (Normal.addFactAxis t).indexable := by
  refine indexable_modify h fun definitions hdefinitions => ?_
  refine indexable_modifyAll hdefinitions fun definition hdefinition => ?_
  cases definition with
  | map fields =>
      have hbody : (Tree.map (Fields.default "axis" (.map []) fields)).indexable :=
        indexable_default rfl hdefinition
      refine @indexable_modify _ "axis" _ hbody fun axes haxes => ?_
      cases axes with
      | map kinds => exact indexable_default rfl haxes
      | _ => exact haxes
  | _ => exact hdefinition

/-! ### Indices and orders -/

theorem isPosition_position {n : Nat} (h : n < 0x8000000000000000) : IsPosition (position n) := by
  refine ⟨trivial, ?_⟩
  have hn : (Int64.ofNat n).toInt = n := Int64.toInt_ofNat_of_lt (by simpa using h)
  simp [position, Schema.lessThan, Schema.lessThan.quotient?, hn]

theorem isWhole_orderOf (n : Nat) (member : List (String × Tree)) : IsWhole (orderOf n member) := by
  rw [orderOf]
  split <;> trivial

theorem IsDefs.addIndex (h : IsDefs done t) (hindex : t.indexable) :
    IsDefs (done ++ [.addIndex]) (addIndex t) := by
  refine h.eachMember (fun n fields hmember hn => ?_) (by simp) (isGroups_append (by decide))
    (isTasks_append (by decide) (by decide))
  obtain ⟨hclosed, hpart, hname, -, horder⟩ := hmember
  have hkeys := Fields.keys_subset_default "index" (position n) fields
  refine ⟨?_, hpart.imp (hkeys ·) (hkeys ·), hkeys hname, fun _ => ?_, fun hdone => hkeys (horder ?_)⟩
  · exact hclosed.default (P := IsPosition) (by simp) (isPosition_position (hn hindex))
  · exact Fields.mem_keys_default "index" (position n) fields
  · simpa using hdone

theorem IsDefs.addOrder (h : IsDefs done t) : IsDefs (done ++ [.addOrder]) (addOrder t) := by
  refine h.eachMember (fun n fields hmember _ => ?_) (by simp) (isGroups_append (by decide))
    (isTasks_append (by decide) (by decide))
  obtain ⟨hclosed, hpart, hname, hindex, -⟩ := hmember
  have hkeys := Fields.keys_subset_default "order" (orderOf n fields) fields
  refine ⟨?_, hpart.imp (hkeys ·) (hkeys ·), hkeys hname, fun hdone => hkeys (hindex ?_), fun _ => ?_⟩
  · exact hclosed.default (P := IsWhole) (by simp) (isWhole_orderOf n fields)
  · simpa using hdone
  · exact Fields.mem_keys_default "order" (orderOf n fields) fields

end

end ScraperTimeline.Normal
