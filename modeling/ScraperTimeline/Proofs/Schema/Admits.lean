import ScraperTimeline.Proofs.Schema.Check
import ScraperTimeline.Proofs.Tree.Plain

namespace ScraperTimeline.Schema

private theorem sizeOf_value_lt {field : String × Schema} {declared : List (String × Schema)}
    (h : field ∈ declared) : sizeOf field.2 < sizeOf declared := by
  obtain ⟨key, s⟩ := field
  have := List.sizeOf_lt_of_mem h
  simp only [Prod.mk.sizeOf_spec] at this ⊢
  omega

-- What a schema demands, where `sat` says what a reference does. Numbers are judged as plain data.
def Admits (sat : String → Tree → Prop) : Schema → Tree → Prop
  | .const accepts, _ => accepts
  | .ref target, t => sat target t
  | .all rules, t => ∀ rule ∈ rules, rule.Admits sat t
  | .type kinds, t => ∃ kind ∈ kinds, kind.admits t.plain
  | .minimum limit, t => lessThan t.plain limit = false
  | .required keys, t => ∀ fields, t = .map fields → keys ⊆ Fields.keys fields
  | .pattern _ p, t => ∀ s, t = .string s → p.accepts s.toList
  | .properties declared, t =>
    ∀ fields, t = .map fields → ∀ field ∈ declared, ∀ value,
      fields.lookup field.1 = some value → field.2.Admits sat value
  | .additional declared others, t =>
    ∀ fields, t = .map fields → ∀ field ∈ fields,
      (∀ s, declared.lookup field.1 = some s → s.Admits sat field.2) ∧
        (declared.lookup field.1 = none → others.Admits sat field.2)
  | .propertyNames name, t =>
    ∀ fields, t = .map fields → ∀ key ∈ Fields.keys fields, name.Admits sat (.string key)
  | .items item, t => ∀ items, t = .seq items → ∀ t ∈ items, item.Admits sat t
  | .anyOf options, t => ∃ i : Fin options.length, options[i].Admits sat t
  | .oneOf options, t => ∃! i : Fin options.length, options[i].Admits sat t
termination_by s => sizeOf s
decreasing_by
  all_goals simp only [all.sizeOf_spec, additional.sizeOf_spec, properties.sizeOf_spec,
    propertyNames.sizeOf_spec, Schema.items.sizeOf_spec, anyOf.sizeOf_spec, oneOf.sizeOf_spec]
  · have := List.sizeOf_lt_of_mem ‹rule ∈ rules›
    omega
  · have := sizeOf_value_lt ‹field ∈ declared›
    omega
  · have : sizeOf s < sizeOf declared :=
      sizeOf_value_lt (Fields.mem_of_lookup ‹declared.lookup field.1 = some s›)
    omega
  · omega
  · omega
  · omega
  · have : sizeOf options[i] < sizeOf options := List.sizeOf_lt_of_mem (List.getElem_mem i.isLt)
    omega
  · have : sizeOf options[i] < sizeOf options := List.sizeOf_lt_of_mem (List.getElem_mem i.isLt)
    omega

section
variable {follow : String → String → Tree → List Violation} {path : String}
  {fields : List (String × Tree)} {declared : List (String × Schema)} {others : Schema}

theorem checkDeclared_eq_nil_iff :
    checkDeclared follow path fields declared = [] ↔
      ∀ field ∈ declared, ∀ value, fields.lookup field.1 = some value →
        check follow (path ++ segment field.1) value field.2 = [] := by
  rw [checkDeclared_eq_flatMap, List.flatMap_eq_nil_iff]
  refine forall₂_congr fun field _ => ?_
  cases fields.lookup field.1 <;> simp

theorem check_ne_nil_of_isNever {s : Schema} {t : Tree} (h : s.isNever) : check follow path t s ≠ [] := by
  obtain rfl := isNever_iff.mp h
  simp [check]

theorem refusals_eq_nil_iff :
    refusals path fields declared others = [] ↔
      (others.isNever → ∀ field ∈ fields, declared.lookup field.1 ≠ none) := by
  rw [refusals]
  split
  next hrefuse =>
    obtain ⟨hdeclared, hnever⟩ := Bool.and_eq_true_iff.mp hrefuse
    obtain rfl := List.isEmpty_iff.mp hdeclared
    cases fields with
    | nil => simp
    | cons field rest => exact iff_of_false (by simp) fun h => h hnever field List.mem_cons_self rfl
  next => simp [List.filter_eq_nil_iff]

-- A schema that refuses everything reports unknown keys at the mapping, any other schema at their values.
theorem check_additional_eq_nil_iff :
    check follow path (.map fields) (.additional declared others) = [] ↔
      ∀ field ∈ fields,
        (∀ s, declared.lookup field.1 = some s → check follow (path ++ segment field.1) field.2 s = []) ∧
          (declared.lookup field.1 = none →
            check follow (path ++ segment field.1) field.2 others = []) := by
  rw [check_additional, List.append_eq_nil_iff, List.flatMap_eq_nil_iff, refusals_eq_nil_iff]
  constructor
  · rintro ⟨hfields, hknown⟩ field hfield
    have hnone := hfields field hfield
    rw [checkField] at hnone
    cases hs : declared.lookup field.1 with
    | some s => simpa [hs] using hnone
    | none =>
        have hnever : ¬others.isNever := fun hnever => hknown hnever field hfield hs
        simpa [hs, hnever] using hnone
  · intro h
    refine ⟨fun field hfield => ?_, fun hnever field hfield hnone => ?_⟩
    · rw [checkField]
      split
      next s hs => exact (h field hfield).1 s hs
      next hnone =>
        split
        · rfl
        · exact (h field hfield).2 hnone
    · exact check_ne_nil_of_isNever hnever ((h field hfield).2 hnone)

theorem check_propertyNames_eq_nil_iff {name : Schema} :
    check follow path (.map fields) (.propertyNames name) = [] ↔
      ∀ key ∈ Fields.keys fields, check follow path (.string key) name = [] := by
  rw [check]
  cases hnever : name.isNever with
  | true => simp [Fields.keys, check_ne_nil_of_isNever hnever, List.eq_nil_iff_forall_not_mem]
  | false => simp [Fields.keys, List.flatMap_eq_nil_iff]

theorem check_items_eq_nil_iff {item : Schema} {items : List Tree} :
    check follow path (.seq items) (.items item) = [] ↔
      ∀ i (hi : i < items.length), check follow (path ++ "/" ++ toString i) items[i] item = [] := by
  rw [check, List.flatten_eq_nil_iff]
  simp only [List.mem_mapIdx, forall_exists_index, forall_apply_eq_imp_iff,
    @forall_comm (List Violation)]

end

section
variable {follow : String → String → Tree → List Violation} {sat : String → Tree → Prop}

private theorem mem_plain {field : String × Tree} {fields : List (String × Tree)} :
    field ∈ Tree.sortByKey (fields.map fun field => (field.1, field.2.plain)) ↔
      ∃ value, (field.1, value) ∈ fields ∧ field.2 = value.plain := by
  obtain ⟨key, t⟩ := field
  rw [Tree.mem_sortByKey]
  simp [eq_comm]

private theorem mem_keys_plain {key : String} {fields : List (String × Tree)} :
    key ∈ Fields.keys (Tree.sortByKey (fields.map fun field => (field.1, field.2.plain))) ↔
      key ∈ Fields.keys fields := by
  rw [← not_iff_not, ← Fields.lookup_eq_none_iff, ← Fields.lookup_eq_none_iff, Tree.lookup_plain,
    Option.map_eq_none_iff]

private theorem length_filter_eq_one_iff {α : Type} {p : α → Bool} {as : List α} :
    (as.filter p).length = 1 ↔ ∃! i : Fin as.length, p as[i] := by
  induction as with
  | nil => simp [ExistsUnique]
  | cons a rest ih =>
      have hrest : (∀ i : Fin rest.length, p rest[i] = false) ↔ rest.filter p = [] := by
        simp [List.filter_eq_nil_iff, List.forall_mem_iff_forall_getElem, Fin.forall_iff]
      simp only [List.filter_cons, ExistsUnique, Fin.exists_fin_succ, Fin.forall_fin_succ,
        List.length_cons]
      cases hp : p a with
      | true => simp [hp, ← hrest, Fin.succ_ne_zero, eq_comm (a := (0 : Fin _))]
      | false => simp [hp, ih, ExistsUnique]

-- A schema whose violations are none is one that admits the tree, if references are followed soundly.
theorem check_eq_nil_iff
    (hfollow : ∀ target path (t : Tree), follow target path t.plain = [] ↔ sat target t)
    (s : Schema) (path : String) (t : Tree) : s.check follow path t.plain = [] ↔ s.Admits sat t := by
  induction s using induct generalizing path t with
  | const accepts => cases accepts <;> simp [check, Admits]
  | ref target => rw [check, Admits, hfollow]
  | all rules ih =>
      rw [check, checkAll_eq_flatMap, List.flatMap_eq_nil_iff, Admits]
      exact forall₂_congr fun rule hrule => ih rule hrule path t
  | type kinds => simp [check, Admits]
  | minimum limit => simp [check, Admits]
  | required keys =>
      cases t with
      | map fields =>
          simp only [Tree.plain_map, check, Admits, Tree.map.injEq, forall_eq', Tree.lookup_plain,
            List.map_eq_nil_iff, List.filter_eq_nil_iff, Option.isNone_map]
          refine forall₂_congr fun key _ => ?_
          rw [Option.isNone_iff_eq_none, Fields.lookup_eq_none_iff, not_not]
      | float x => rw [Tree.plain_float]; split <;> simp [check, Admits]
      | _ => simp [check, Admits]
  | pattern source p =>
      cases t with
      | float x => rw [Tree.plain_float]; split <;> simp [check, Admits]
      | _ => simp [check, Admits]
  | properties declared ih =>
      cases t with
      | map fields =>
          simp only [Tree.plain_map, check, Admits, Tree.map.injEq, forall_eq', checkDeclared_eq_nil_iff,
            Tree.lookup_plain, Option.map_eq_some_iff, forall_exists_index, and_imp, forall_apply_eq_imp_iff₂]
          exact forall₂_congr fun field hfield => forall₂_congr fun value _ => ih field hfield _ value
      | float x => rw [Tree.plain_float]; split <;> simp [check, Admits]
      | _ => simp [check, Admits]
  | additional declared others ih hothers =>
      cases t with
      | map fields =>
          rw [Tree.plain_map, check_additional_eq_nil_iff, Admits]
          simp only [Tree.map.injEq, forall_eq']
          constructor
          · rintro h ⟨key, value⟩ hfield
            obtain ⟨hknown, hunknown⟩ := h (key, value.plain) (mem_plain.mpr ⟨value, hfield, rfl⟩)
            exact ⟨fun s hs => (ih (key, s) (Fields.mem_of_lookup hs) _ value).mp (hknown s hs),
              fun hnone => (hothers _ value).mp (hunknown hnone)⟩
          · rintro h ⟨key, v⟩ hfield
            obtain ⟨value, hfield, rfl⟩ := mem_plain.mp hfield
            obtain ⟨hknown, hunknown⟩ := h (key, value) hfield
            exact ⟨fun s hs => (ih (key, s) (Fields.mem_of_lookup hs) _ value).mpr (hknown s hs),
              fun hnone => (hothers _ value).mpr (hunknown hnone)⟩
      | float x => rw [Tree.plain_float]; split <;> simp [check, Admits]
      | _ => simp [check, Admits]
  | propertyNames name ih =>
      cases t with
      | map fields =>
          rw [Tree.plain_map, check_propertyNames_eq_nil_iff, Admits]
          simp only [Tree.map.injEq, forall_eq', mem_keys_plain]
          exact forall₂_congr fun key _ => ih path (.string key)
      | float x => rw [Tree.plain_float]; split <;> simp [check, Admits]
      | _ => simp [check, Admits]
  | items item ih =>
      cases t with
      | seq items =>
          rw [Tree.plain_seq, check_items_eq_nil_iff, Admits]
          simp only [List.length_map, List.getElem_map, ih, Tree.seq.injEq, forall_eq']
          exact List.forall_mem_iff_forall_getElem.symm
      | float x => rw [Tree.plain_float]; split <;> simp [check, Admits]
      | _ => simp [check, Admits]
  | anyOf options ih =>
      have hoption (i : Fin options.length) := ih options[i] (List.getElem_mem i.isLt) path t
      rw [check, Admits, checkEach_eq_map, ite_eq_left_iff]
      simp only [reduceCtorEq, imp_false, not_not, List.any_map, List.any_eq_true, List.isEmpty_iff,
        Function.comp_apply, ← hoption, Fin.exists_iff, List.mem_iff_getElem]
      constructor
      · rintro ⟨s, ⟨i, hi, rfl⟩, hs⟩
        exact ⟨i, hi, hs⟩
      · rintro ⟨i, hi, hs⟩
        exact ⟨options[i], ⟨i, hi, rfl⟩, hs⟩
  | oneOf options ih =>
      have hoption (i : Fin options.length) := ih options[i] (List.getElem_mem i.isLt) path t
      have hone : ((checkEach follow path t.plain options).filter List.isEmpty).length = 1 ↔
          ∃! i : Fin options.length, options[i].Admits sat t := by
        rw [checkEach_eq_map, List.filter_map, List.length_map, length_filter_eq_one_iff]
        simp only [Function.comp_apply, List.isEmpty_iff, hoption]
      rw [check, Admits, ← hone]
      split
      next h => simp [h]
      next h => simp [h]
      next _ h => exact iff_of_false (by simp) h

end

end ScraperTimeline.Schema
