import ScraperTimeline.Proofs.Schema.Documents

/-!
What the packaged contracts accept: the trees of the shape that their stage has.
-/
namespace ScraperTimeline.Schema
open ScraperTimeline.Normal Shape

section
variable {sat : String → Tree → Prop} {fields : List (String × Tree)}

/-! ### Rules -/

theorem admits_ref {target : String} : (ref target).Admits sat = sat target := by
  funext t
  rw [Admits]

theorem admits_type_object {t : Tree} :
    (type [.object]).Admits sat t ↔ ∃ fields, t = .map fields := by
  cases t with
  | float x => rw [Admits, Tree.plain_float]; split <;> simp [Kind.admits]
  | _ => simp [Admits, Kind.admits]

theorem admits_type_array {t : Tree} : (type [.array]).Admits sat t ↔ ∃ items, t = .seq items := by
  cases t with
  | float x => rw [Admits, Tree.plain_float]; split <;> simp [Kind.admits]
  | _ => simp [Admits, Kind.admits]

theorem admits_all_singleton {rule : Schema} {t : Tree} :
    (Schema.all [rule]).Admits sat t ↔ rule.Admits sat t := by
  rw [Admits, List.forall_mem_singleton]

theorem admits_required {keys : List String} :
    (required keys).Admits sat (.map fields) ↔ ∀ key ∈ keys, key ∈ Fields.keys fields := by
  rw [Admits]
  exact ⟨fun h => h fields rfl, fun h _ heq => Tree.map.inj heq ▸ h⟩

theorem admits_properties {declared : List (String × Schema)} :
    (properties declared).Admits sat (.map fields) ↔
      ∀ field ∈ declared, Optional field.1 (field.2.Admits sat) fields := by
  rw [Admits]
  exact ⟨fun h => h fields rfl, fun h _ heq => Tree.map.inj heq ▸ h⟩

theorem admits_propertyNames {name : Schema} :
    (propertyNames name).Admits sat (.map fields) ↔
      ∀ key ∈ Fields.keys fields, name.Admits sat (.string key) := by
  rw [Admits]
  exact ⟨fun h => h fields rfl, fun h _ heq => Tree.map.inj heq ▸ h⟩

theorem admits_closed {declared : List (String × Schema)} (hkeys : (Fields.keys declared).Nodup) :
    (additional declared (.const false)).Admits sat (.map fields) ↔
      Closed (declared.map fun field => (field.1, field.2.Admits sat)) fields := by
  simp only [Admits, Tree.map.injEq, forall_eq', Closed, List.mem_map, Prod.mk.injEq]
  refine forall₂_congr fun field _ => ⟨?_, ?_⟩
  · rintro ⟨hknown, hunknown⟩
    cases hs : declared.lookup field.1 with
    | none => cases hunknown hs
    | some s => exact ⟨_, ⟨(field.1, s), Fields.mem_of_lookup hs, rfl, rfl⟩, hknown s hs⟩
  · rintro ⟨P, ⟨⟨key, s⟩, hmem, rfl, rfl⟩, hvalue⟩
    rw [Fields.lookup_of_mem hkeys hmem]
    simpa using hvalue

theorem admits_values {s : Schema} :
    (additional [] s).Admits sat (.map fields) ↔ Values (s.Admits sat) fields := by
  simp [Admits, Values]

theorem admits_anyOf_pair {a b : Schema} {t : Tree} :
    (anyOf [a, b]).Admits sat t ↔ a.Admits sat t ∨ b.Admits sat t := by
  rw [Admits]
  change (∃ i : Fin 2, ([a, b][i]).Admits sat t) ↔ _
  simp [Fin.exists_fin_two]

theorem admits_oneOf_pair {a b : Schema} {t : Tree} (hne : ¬(a.Admits sat t ∧ b.Admits sat t)) :
    (oneOf [a, b]).Admits sat t ↔ a.Admits sat t ∨ b.Admits sat t := by
  rw [Admits]
  change (∃! i : Fin 2, ([a, b][i]).Admits sat t) ↔ _
  simp [ExistsUnique, Fin.exists_fin_two, Fin.forall_fin_two]
  tauto

end

namespace Packaged
variable {sat : String → Tree → Prop}

theorem admits_text : text.Admits sat = IsText := by
  funext t
  cases t with
  | float x =>
      rw [text, Admits, List.forall_mem_singleton, Admits, Tree.plain_float]
      split <;> simp [Kind.admits, IsText]
  | _ => simp [text, Admits, Kind.admits, IsText]

theorem admits_mapping {rules : List Schema} {P : List (String × Tree) → Prop}
    (h : ∀ fields, (∀ rule ∈ rules, rule.Admits sat (.map fields)) ↔ P fields) :
    (mapping rules).Admits sat = Mapping P := by
  funext t
  rw [mapping, Admits, List.forall_mem_append, List.forall_mem_singleton, admits_type_object]
  cases t with
  | map fields => simp [Mapping, h]
  | _ => simp [Mapping]

theorem admits_sequence {item : Schema} : (sequence item).Admits sat = Sequence (item.Admits sat) := by
  funext t
  rw [sequence, Admits, List.forall_mem_cons, List.forall_mem_singleton, admits_type_array]
  cases t with
  | seq items => simp [Admits, Sequence]
  | _ => simp [Sequence]

theorem admits_object : (mapping []).Admits sat = IsMapping :=
  admits_mapping fun fields => by simp

theorem admits_texts : (mapping [.additional [] text]).Admits sat = Mapping (Values IsText) := by
  refine admits_mapping fun fields => ?_
  rw [List.forall_mem_singleton, admits_values, admits_text]

theorem admits_whole : (Schema.all [.type [.integer]]).Admits sat = IsWhole := by
  funext t
  rw [Admits, List.forall_mem_singleton, Admits]
  cases t with
  | float x => rw [Tree.plain_float]; split <;> simp [Kind.admits, IsWhole, *]
  | _ => simp [Kind.admits, IsWhole]

theorem admits_position :
    (Schema.all [.minimum (.int 0), .type [.integer]]).Admits sat = IsPosition := by
  funext t
  rw [IsPosition, ← @admits_whole sat]
  simp [Admits, and_comm]

theorem admits_scalar : (Schema.all [.type [.string, .number]]).Admits sat = IsScalar := by
  funext t
  rw [Admits, List.forall_mem_singleton, Admits]
  cases t with
  | float x => rw [Tree.plain_float]; split <;> simp [Kind.admits, IsScalar, *]
  | _ => simp [Kind.admits, IsScalar]

theorem admits_name {key : String} :
    (Schema.all [.pattern "^[A-Za-z0-9_-]+$" namePattern]).Admits sat (.string key) ↔
      namePattern.accepts key.toList := by
  simp [Admits]

/-! ### Definitions -/

section
variable (stage : Stage)

@[simp] theorem mem_done {pass : Pass} : pass ∈ stage.done ↔ stage = .effective := by
  cases stage <;> cases pass <;> simp [Stage.done, Pass.order]

theorem admits_member : (member stage).Admits sat = IsMember stage.done := by
  refine admits_mapping fun fields => ?_
  rw [List.forall_mem_cons, admits_closed (by decide), List.forall_mem_cons, admits_anyOf_pair,
    List.forall_mem_singleton, admits_required]
  simp only [List.map_cons, List.map_nil, admits_position, admits_text, admits_whole, admits_scalar]
  refine and_congr_right' (and_congr ?_ ?_)
  · simp only [admits_all_singleton, admits_required, List.forall_mem_singleton]
  · cases stage <;> simp

theorem admits_axis (hmember : sat "#/definitions/member" = IsMember stage.done) :
    axis.Admits sat = IsAxis stage.done := by
  refine admits_mapping fun fields => ?_
  rw [List.forall_mem_singleton, admits_closed (by decide)]
  simp only [List.map_cons, List.map_nil, admits_sequence, admits_texts, admits_ref, hmember]

theorem admits_axes (haxis : sat "#/definitions/axis" = IsAxis stage.done) :
    (axes stage).Admits sat = IsAxes stage.done := by
  refine admits_mapping fun fields => ?_
  rw [List.forall_mem_cons, admits_closed (by decide)]
  simp only [List.map_cons, List.map_nil, admits_ref, haxis]
  refine and_congr_right' ?_
  cases stage <;> simp [admits_required]

theorem admits_dataDef (haxis : sat "#/definitions/axis" = IsAxis stage.done) :
    (dataDef stage).Admits sat = IsDefinition stage.done := by
  refine admits_mapping fun fields => ?_
  simp [admits_properties, admits_required, admits_axes stage haxis, admits_object, and_assoc]

theorem admits_step : step.Admits sat = IsStep := by
  refine admits_mapping fun fields => ?_
  simp [admits_properties, admits_required, admits_text, and_assoc]

-- A schema beside which a text may stand, where no text meets the schema itself.
theorem admits_orText {target : String} {t : Tree} (h : ¬(IsText t ∧ sat target t)) :
    (Schema.all [.oneOf [text, .ref target]]).Admits sat t ↔ sat target t ∨ IsText t := by
  rw [admits_all_singleton, admits_oneOf_pair, admits_text, admits_ref, or_comm]
  rwa [admits_text, admits_ref]

theorem admits_stepGroup (hstep : sat "#/definitions/step" = IsStep) (pass : Pass) :
    (stepGroup stage).Admits sat = IsSteps stage.done pass := by
  cases stage with
  | defined =>
      refine admits_sequence.trans (congrArg Sequence (funext fun t => ?_))
      rw [admits_orText, hstep]
      · simp
      · rintro ⟨⟨s, rfl⟩, ht⟩
        rw [hstep] at ht
        exact ht
  | effective => simp [stepGroup, IsSteps, admits_sequence, admits_ref, hstep]

theorem admits_task (hsteps : sat "#/definitions/stepGroup" = IsSteps stage.done .expandTaskSteps) :
    (task stage).Admits sat = IsTask stage.done := by
  refine admits_mapping fun fields => ?_
  cases stage with
  | defined =>
      have horText : (Schema.all [.oneOf [text, .ref "#/definitions/stepGroup"]]).Admits sat =
          fun t => IsSteps Stage.defined.done .expandTaskSteps t ∨ IsText t := by
        funext t
        rw [admits_orText, hsteps]
        rintro ⟨⟨s, rfl⟩, ht⟩
        rw [hsteps] at ht
        exact ht
      simp [admits_properties, admits_required, admits_text, horText, and_assoc]
  | effective => simp [admits_properties, admits_required, admits_text, admits_ref, hsteps, and_assoc]

theorem admits_defs (hdefinition : sat "#/definitions/dataDef" = IsDefinition stage.done)
    (hsteps : sat "#/definitions/stepGroup" = IsSteps stage.done .expandSteps)
    (htask : sat "#/definitions/task" = IsTask stage.done) :
    defs.Admits sat = IsDefs stage.done := by
  have hdefinitions : (mapping [.additional [] (.ref "#/definitions/dataDef"),
      .propertyNames (.all [.pattern "^[A-Za-z0-9_-]+$" namePattern])]).Admits sat =
      IsDefinitions stage.done := by
    refine admits_mapping fun fields => ?_
    simp [admits_values, admits_ref, admits_propertyNames, admits_name, hdefinition]
  have hgroups : (mapping [.additional [] (.ref "#/definitions/stepGroup")]).Admits sat =
      IsGroups stage.done := by
    refine admits_mapping fun fields => ?_
    rw [List.forall_mem_singleton, admits_values, admits_ref, hsteps]
  have htasks : (mapping [.additional [] (mapping [.additional [] (.ref "#/definitions/task")])]).Admits
      sat = IsTasks stage.done := by
    refine admits_mapping fun fields => ?_
    rw [List.forall_mem_singleton, admits_values, admits_mapping fun fields => ?_]
    rw [List.forall_mem_singleton, admits_values, admits_ref, htask]
  refine admits_mapping fun fields => ?_
  rw [List.forall_mem_cons, admits_closed (by decide), List.forall_mem_singleton, admits_required,
    List.forall_mem_singleton]
  simp only [List.map_cons, List.map_nil, hdefinitions, hgroups, htasks, admits_object]

end

section
variable (stage : Stage) (name : String)

theorem demands_of_lookup (n : Nat) {target : String} {s : Schema}
    (h : (definitions stage).lookup target = some s) :
    (contract stage name).Demands (n + 1) target = s.Admits ((contract stage name).Demands n) :=
  Contract.demands_of_lookup h n

-- Three references in a row are enough: from a definition to an axis to a member.
theorem demands_dataDef (n : Nat) :
    (contract stage name).Demands (n + 3) "#/definitions/dataDef" = IsDefinition stage.done := by
  have hmember : (contract stage name).Demands (n + 1) "#/definitions/member" = IsMember stage.done := by
    rw [demands_of_lookup stage name n rfl, admits_member]
  have haxis : (contract stage name).Demands (n + 2) "#/definitions/axis" = IsAxis stage.done := by
    rw [demands_of_lookup stage name (n + 1) rfl, admits_axis stage hmember]
  rw [demands_of_lookup stage name (n + 2) rfl, admits_dataDef stage haxis]

theorem admits_defs_demands (n : Nat) :
    defs.Admits ((contract stage name).Demands (n + 3)) = IsDefs stage.done := by
  have hstep (k : Nat) : (contract stage name).Demands (k + 1) "#/definitions/step" = IsStep := by
    rw [demands_of_lookup stage name k rfl, admits_step]
  have hsteps (k : Nat) (pass : Pass) :
      (contract stage name).Demands (k + 2) "#/definitions/stepGroup" = IsSteps stage.done pass := by
    rw [demands_of_lookup stage name (k + 1) rfl, admits_stepGroup stage (hstep k) pass]
  refine admits_defs stage (demands_dataDef stage name n) (hsteps (n + 1) _) ?_
  rw [demands_of_lookup stage name (n + 2) rfl, admits_task stage (hsteps n _)]

theorem exists_followBound_eq (t : Tree) : ∃ n, (contract stage name).followBound t.plain = n + 3 := by
  have hlt : 6 < (contract stage name).followBound t.plain :=
    (contract stage name).length_definitions_lt_followBound t.plain
  exact Nat.exists_eq_add_of_le' (by omega)

-- The contracts accept the trees of the shape of their stage and no others.
theorem validate_contract_iff (policy : Policy) (t : Tree) :
    (contract stage name).validate policy t = .ok () ↔ IsDefs stage.done t := by
  rw [Contract.validate_eq_ok_iff]
  obtain ⟨n, hn⟩ := exists_followBound_eq stage name t
  rw [hn]
  exact iff_of_eq (congrFun (admits_defs_demands stage name n) t)

theorem meets_dataDef_iff (t : Tree) :
    (contract stage name).Meets "#/definitions/dataDef" t ↔ IsDefinition stage.done t := by
  obtain ⟨n, hn⟩ := exists_followBound_eq stage name t
  rw [Contract.Meets, Contract.follow_eq_nil_iff, hn, demands_dataDef]

end

end Packaged
end ScraperTimeline.Schema
