import ScraperTimeline.Proofs.Normal.FixedPoint

/-!
The shape with all passes done is that of normal forms: it is a case of the shape with fewer of them done,
and no pass has anything left to do on it.
-/
namespace ScraperTimeline.Normal
open Shape

section
variable {done done' : List Pass} {t : Tree}

/-! ### Fewer passes ask for less -/

theorem IsMember.mono (hsub : done ⊆ done') (h : IsMember done' t) : IsMember done t :=
  Mapping.mono h fun _ ⟨hclosed, hvalue, hname, hindex, horder⟩ =>
    ⟨hclosed, hvalue, hname, fun hdone => hindex (hsub hdone), fun hdone => horder (hsub hdone)⟩

theorem IsAxis.mono (hsub : done ⊆ done') (h : IsAxis done' t) : IsAxis done t := by
  refine Mapping.mono h fun fields hclosed => hclosed.mono ?_
  refine List.forall₂_cons.mpr ⟨⟨rfl, fun v hv => hv.mono fun _ => IsMember.mono hsub⟩, ?_⟩
  exact .cons ⟨rfl, fun v => id⟩ .nil

theorem IsAxes.mono (hsub : done ⊆ done') (h : IsAxes done' t) : IsAxes done t := by
  refine Mapping.mono h fun fields ⟨hclosed, hfact⟩ => ⟨hclosed.mono ?_, fun hdone => hfact (hsub hdone)⟩
  exact .cons ⟨rfl, fun v => IsAxis.mono hsub⟩ <| .cons ⟨rfl, fun v => IsAxis.mono hsub⟩ <|
    .cons ⟨rfl, fun v => IsAxis.mono hsub⟩ .nil

theorem IsDefinitions.mono (hsub : done ⊆ done') (h : IsDefinitions done' t) : IsDefinitions done t := by
  refine Mapping.mono h fun definitions ⟨hvalues, hnames⟩ => ⟨fun body hbody => ?_, hnames⟩
  refine Mapping.mono (hvalues body hbody) fun fields ⟨haxis, hquery, hkey⟩ => ⟨?_, hquery, hkey⟩
  exact fun axes haxes => (haxis axes haxes).mono hsub

theorem IsSteps.mono {pass : Pass} (hsub : done ⊆ done') (h : IsSteps done' pass t) :
    IsSteps done pass t :=
  Sequence.mono h fun _ ht => ht.imp_right (And.imp_left (mt (hsub ·)))

theorem IsTask.mono (hsub : done ⊆ done') (h : IsTask done' t) : IsTask done t := by
  refine Mapping.mono h fun fields ⟨hdataDef, hsteps, hneeded, hset⟩ =>
    ⟨hdataDef, fun v hv => ?_, hneeded, fun hdone => hset (hsub hdone)⟩
  exact (hsteps v hv).imp (IsSteps.mono hsub) (And.imp_left (mt (hsub ·)))

theorem IsDefs.mono (hsub : done ⊆ done') (h : IsDefs done' t) : IsDefs done t := by
  refine Mapping.mono h fun fields ⟨hclosed, hneeded⟩ => ⟨hclosed.mono ?_, hneeded⟩
  refine .cons ⟨rfl, fun v => IsDefinitions.mono hsub⟩ <| .cons ⟨rfl, fun v => id⟩ <|
    .cons ⟨rfl, fun v hv => ?_⟩ <| .cons ⟨rfl, fun v hv => ?_⟩ .nil
  · exact Mapping.mono hv fun groups hgroups group hgroup => (hgroups group hgroup).mono hsub
  · refine Mapping.mono hv fun groups hgroups group hgroup => (hgroups group hgroup).mono ?_
    exact fun tasks htasks task htask => (htasks task htask).mono hsub

/-! ### Nothing is left to do -/

theorem IsDefs.isDefinitions {fields : List (String × Tree)} {v : Tree} (h : IsDefs done (.map fields))
    (hv : ("dataDefs", v) ∈ fields) : IsDefinitions done v := by
  obtain ⟨P, hP, hv⟩ := h.1 _ hv
  obtain rfl : P = IsDefinitions done := by simpa using hP
  exact hv

theorem IsStep.not_isText (h : IsStep t) : ¬IsText t := by
  rintro ⟨s, rfl⟩
  exact h

theorem IsSteps.textless {pass : Pass} (hdone : pass ∈ done) (h : IsSteps done pass t) :
    IfSequence (¬IsText ·) t := by
  cases t with
  | seq items =>
      intro step hstep
      exact ((h step hstep).resolve_right fun hnot => hnot.1 hdone).not_isText
  | _ => trivial

theorem IsDefs.eachBody (h : IsDefs done t) (hkeyed : t.keyed) :
    EachBody (fun body => "axis" ∈ Fields.keys body ∧ At "axis" (IsAxes done) body) t := by
  obtain ⟨fields, rfl, hfields⟩ := Mapping.eq_map h
  intro v hv
  obtain ⟨definitions, rfl, hdefinitions, -⟩ := Mapping.eq_map (h.isDefinitions hv)
  have hkeyed := (Tree.keyed_map_iff.mp hkeyed).2 _ hv
  rintro ⟨name, body⟩ hbody
  obtain ⟨body, rfl, haxis, -, hkey⟩ := Mapping.eq_map (hdefinitions _ hbody)
  have hkeyed := (Tree.keyed_map_iff.mp hkeyed).2 _ hbody
  exact ⟨hkey, at_of_lookup (Tree.keyed_map_iff.mp hkeyed).1 haxis⟩

theorem IsAxes.members {P : List (String × Tree) → Prop} (h : IsAxes done t)
    (hP : ∀ member, IsMember done (.map member) → P member) :
    IfMapping (Values (IfMapping (At "members" (IfSequence (IfMapping P))))) t := by
  obtain ⟨axes, rfl, haxes, -⟩ := Mapping.eq_map h
  rintro ⟨name, axis⟩ haxis
  obtain ⟨A, hA, haxis⟩ := haxes _ haxis
  obtain rfl : A = IsAxis done := by
    simp only [List.mem_cons, Prod.mk.injEq, List.not_mem_nil, or_false] at hA
    exact hA.elim And.right fun hA => hA.elim And.right And.right
  obtain ⟨axis, rfl, haxis⟩ := Mapping.eq_map haxis
  intro members hmembers
  obtain ⟨M, hM, hmembers⟩ := haxis _ hmembers
  obtain rfl : M = Sequence (IsMember done) := by simpa using hM
  cases members with
  | seq members =>
      intro member hmember
      obtain ⟨member, rfl, -⟩ := Mapping.eq_map (hmembers _ hmember)
      exact hP member (hmembers _ hmember)
  | _ => trivial

theorem IsDefs.members {P : List (String × Tree) → Prop} (h : IsDefs done t) (hkeyed : t.keyed)
    (hP : ∀ member, IsMember done (.map member) → P member) : EachMember P t :=
  (h.eachBody hkeyed).mono fun _ hbody => hbody.2.mono fun _ haxes => haxes.members hP

theorem IsDefs.eachGroup (h : IsDefs done t) (hexpand : .expandSteps ∈ done) :
    EachGroup (Values (IfSequence (¬IsText ·))) t := by
  obtain ⟨fields, rfl, hfields⟩ := Mapping.eq_map h
  intro v hv
  obtain ⟨groups, rfl, hgroups⟩ := Mapping.eq_map (h.isGroups hv)
  exact fun group hgroup => (hgroups group hgroup).textless hexpand

theorem IsDefs.tasks (h : IsDefs done t) : EachTask (fun task => IsTask done (.map task)) t := by
  obtain ⟨fields, rfl, hfields⟩ := Mapping.eq_map h
  intro v hv
  obtain ⟨groups, rfl, hgroups⟩ := Mapping.eq_map (h.isTasks hv)
  rintro ⟨name, tasks⟩ htasks
  obtain ⟨tasks, rfl, hvalues⟩ := Mapping.eq_map (hgroups _ htasks)
  rintro ⟨name, task⟩ htask
  obtain ⟨task, rfl, -⟩ := Mapping.eq_map (hvalues _ htask)
  exact hvalues _ htask

theorem IsTask.hasSteps {task : List (String × Tree)} (h : IsTask done (.map task))
    (hexpand : .expandTaskSteps ∈ done) : HasSteps task := by
  obtain ⟨-, hsteps, -⟩ := h
  intro v hv
  have hsteps := (hsteps v hv).resolve_right fun hnot => hnot.1 hexpand
  refine ⟨?_, hsteps.textless hexpand⟩
  rintro ⟨s, rfl⟩
  exact hsteps

theorem IsDefs.nothing_left (h : IsDefs Pass.order t) (hkeyed : t.keyed) (pass : Pass) : Done pass t := by
  cases pass with
  | addFactAxis =>
      refine (h.eachBody hkeyed).mono fun body ⟨hkey, haxis⟩ => ⟨hkey, haxis.mono fun axes haxes => ?_⟩
      obtain ⟨axes, rfl, -, hfact⟩ := Mapping.eq_map haxes
      exact hfact (by decide)
  | addIndex => exact h.members hkeyed fun member ⟨_, _, _, hindex, _⟩ => hindex (by decide)
  | addOrder => exact h.members hkeyed fun member ⟨_, _, _, _, horder⟩ => horder (by decide)
  | expandSteps => exact (sectioned_of_keyed hkeyed).isExpanded (h.eachGroup (by decide))
  | setDefaultSteps => exact h.tasks.mono fun task ⟨_, _, _, hset⟩ => hset (by decide)
  | expandTaskSteps => exact h.tasks.mono fun task htask => htask.hasSteps (by decide)

end

end ScraperTimeline.Normal
