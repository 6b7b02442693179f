import ScraperTimeline.Proofs.Schema.Contract
import ScraperTimeline.Proofs.Schema.Pointer
import ScraperTimeline.Proofs.Tree.Associative

/-!
Locality of reports. What is reported of a value stands at or below the place of the value, so the report of one
entry of a tree is told apart from the rest, and it depends on nothing else in the tree.
-/
namespace ScraperTimeline.Schema

variable {follow : String → String → Tree → List Violation} {path place pointer key message : String}
  {t body : Tree} {s inner : Schema} {fields : List (String × Tree)} {declared : List (String × Schema)}
  {others : Schema} {violations more : List Violation}

/-! ### Places of violations -/

-- Violations at a place or below it.
def Inside (place : String) (violations : List Violation) : Prop := ∀ v ∈ violations, covers place v.path

namespace Inside

theorem nil : Inside place [] := fun _ hv => nomatch hv

theorem here (message : String) : Inside place [⟨place, message⟩] := by
  intro v hv
  rw [List.mem_singleton.mp hv]
  exact covers_self place

theorem append (h : Inside place violations) (hmore : Inside place more) :
    Inside place (violations ++ more) :=
  fun v hv => (List.mem_append.mp hv).elim (h v) (hmore v)

theorem flatMap {α : Type} {as : List α} {f : α → List Violation} (h : ∀ a ∈ as, Inside place (f a)) :
    Inside place (as.flatMap f) := by
  intro v hv
  obtain ⟨a, ha, hv⟩ := List.mem_flatMap.mp hv
  exact h a ha v hv

theorem around (h : Inside place violations) (hplace : covers path place) : Inside path violations :=
  fun v hv => covers_trans hplace (h v hv)

end Inside

-- What references report stands inside the place where they are checked.
def Local (follow : String → String → Tree → List Violation) : Prop :=
  ∀ target path t, Inside path (follow target path t)

-- Schemas that report at the place where they are checked and never below it.
def Flat (s : Schema) : Prop := ∀ follow path t, ∀ v ∈ check follow path t s, v.path = path

theorem Flat.inside (h : Flat s) : Inside path (check follow path t s) := by
  intro v hv
  rw [h follow path t v hv]
  exact covers_self path

theorem flat_type (kinds : List Kind) : Flat (.type kinds) := by
  intro follow path t v hv
  rw [check] at hv
  split at hv
  · cases hv
  · rw [List.mem_singleton.mp hv]

theorem flat_required (keys : List String) : Flat (.required keys) := by
  intro follow path t v hv
  cases t with
  | map fields =>
      obtain ⟨key, -, rfl⟩ := List.mem_map.mp hv
      rfl
  | _ => cases hv

theorem flat_pattern (source : String) (p : Text.Pattern) : Flat (.pattern source p) := by
  intro follow path t v hv
  cases t with
  | string text =>
      rw [check] at hv
      split at hv
      · cases hv
      · rw [List.mem_singleton.mp hv]
  | _ => cases hv

theorem path_of_mem_refusals {v : Violation} (h : v ∈ refusals path fields declared others) : v.path = path := by
  rw [refusals] at h
  split at h
  · obtain ⟨field, -, rfl⟩ := List.mem_map.mp h
    rfl
  · dsimp only at h
    split at h
    · rw [List.mem_singleton.mp h]
    · cases h

theorem inside_checkField (field : String × Tree)
    (hdeclared : ∀ d ∈ declared, ∀ path t, Inside path (check follow path t d.2))
    (hothers : ∀ path t, Inside path (check follow path t others)) :
    Inside (path ++ segment field.1) (checkField follow path declared others field) := by
  rw [checkField]
  split
  next s hs => exact hdeclared _ (Fields.mem_of_lookup hs) _ _
  next =>
    split
    · exact .nil
    · exact hothers _ _

theorem inside_check (hfollow : Local follow) (s : Schema) (path : String) (t : Tree) :
    Inside path (check follow path t s) := by
  induction s using induct generalizing path t with
  | const accepts =>
      cases accepts with
      | true => exact .nil
      | false => exact .here _
  | ref target => exact hfollow target path t
  | all rules ih =>
      rw [check, checkAll_eq_flatMap]
      exact .flatMap fun rule hrule => ih rule hrule path t
  | type kinds => exact (flat_type kinds).inside
  | minimum limit =>
      rw [check]
      split
      · exact .here _
      · exact .nil
  | required keys => exact (flat_required keys).inside
  | pattern source p => exact (flat_pattern source p).inside
  | properties declared ih =>
      cases t with
      | map fields =>
          rw [check, checkDeclared_eq_flatMap]
          refine .flatMap fun field hfield => ?_
          cases fields.lookup field.1 with
          | none => exact .nil
          | some value => exact (ih field hfield _ value).around (covers_append_segment path field.1)
      | _ => exact .nil
  | additional declared others ih hothers =>
      cases t with
      | map fields =>
          rw [check_additional]
          refine .append (.flatMap fun field _ => ?_) fun v hv => ?_
          · exact (inside_checkField field ih hothers).around (covers_append_segment path field.1)
          · rw [path_of_mem_refusals hv]
            exact covers_self path
      | _ => exact .nil
  | propertyNames name ih =>
      cases t with
      | map fields =>
          rw [check]
          split
          · split
            · exact .nil
            · exact .here _
          · exact .flatMap fun field _ => ih path _
      | _ => exact .nil
  | items item ih =>
      cases t with
      | seq items =>
          intro v hv
          rw [check, List.mem_flatten] at hv
          obtain ⟨reported, hreported, hv⟩ := hv
          obtain ⟨i, hi, rfl⟩ := List.mem_mapIdx.mp hreported
          exact (ih _ _).around (covers_append_slash path _) v hv
      | _ => exact .nil
  | anyOf options =>
      rw [check]
      split
      · exact .nil
      · exact .here _
  | oneOf options =>
      rw [check]
      split
      · exact .here _
      · exact .nil
      · exact .here _

/-! ### The report of one entry -/

-- What is reported inside a place, in its order.
def restrict (place : String) (violations : List Violation) : List Violation :=
  violations.filter fun v => covers place v.path

theorem restrict_append : restrict place (violations ++ more) = restrict place violations ++ restrict place more :=
  List.filter_append ..

theorem restrict_eq_self (h : Inside place violations) : restrict place violations = violations :=
  List.filter_eq_self.mpr h

section
variable (hplace : covers (path ++ segment key) place)
include hplace

theorem restrict_around (h : ∀ v ∈ violations, v.path = path) : restrict place violations = [] := by
  refine List.filter_eq_nil_iff.mpr fun v hv hcovers => ?_
  exact not_covers_around (h v hv ▸ covers_trans hplace hcovers)

theorem restrict_beside {other : String} (hne : other ≠ key) (h : Inside (path ++ segment other) violations) :
    restrict place violations = [] := by
  refine List.filter_eq_nil_iff.mpr fun v hv hcovers => hne ?_
  exact eq_of_covers (h v hv) (covers_trans hplace hcovers)

-- Of all fields of a mapping only the one with the key counts.
theorem restrict_flatMap {value : Tree} {report : String × Tree → List Violation}
    (hkeys : (Fields.keys fields).Nodup) (hvalue : fields.lookup key = some value)
    (hreport : ∀ field ∈ fields, Inside (path ++ segment field.1) (report field)) :
    restrict place (fields.flatMap report) = restrict place (report (key, value)) := by
  have hbeside {rest : List (String × Tree)} (hrest : ∀ field ∈ rest, field ∈ fields ∧ field.1 ≠ key) :
      restrict place (rest.flatMap report) = [] := by
    rw [restrict, List.filter_flatMap, List.flatMap_eq_nil_iff]
    exact fun field hfield => restrict_beside hplace (hrest field hfield).2 (hreport field (hrest field hfield).1)
  obtain ⟨before, after, rfl⟩ := List.append_of_mem (Fields.mem_of_lookup hvalue)
  rw [Fields.keys, List.map_append, List.map_cons, List.nodup_append, List.nodup_cons] at hkeys
  obtain ⟨-, ⟨hafter, -⟩, hbefore⟩ := hkeys
  rw [List.flatMap_append, List.flatMap_cons, restrict_append, restrict_append, hbeside, hbeside,
    List.nil_append, List.append_nil]
  · refine fun field hfield => ⟨by simp [hfield], fun heq => hafter ?_⟩
    have hmem : field.1 ∈ after.map Prod.fst := List.mem_map_of_mem hfield
    rwa [heq] at hmem
  · refine fun field hfield => ⟨by simp [hfield], fun heq => ?_⟩
    exact hbefore field.1 (List.mem_map_of_mem hfield) key List.mem_cons_self heq

end

-- Whatever a schema reports inside the value of a key is what another schema reports of the value.
def Passes (s : Schema) (key : String) (inner : Schema) : Prop :=
  ∀ follow, Local follow → ∀ path fields value, (Fields.keys fields).Nodup → fields.lookup key = some value →
    ∀ place, covers (path ++ segment key) place →
      restrict place (check follow path (.map fields) s) =
        restrict place (check follow (path ++ segment key) value inner)

theorem flat_all {rules : List Schema} (h : ∀ rule ∈ rules, Flat rule) : Flat (.all rules) := by
  intro follow path t v hv
  rw [check, checkAll_eq_flatMap] at hv
  obtain ⟨rule, hrule, hv⟩ := List.mem_flatMap.mp hv
  exact h rule hrule follow path t v hv

-- What is wrong with a key is reported at the mapping.
theorem flat_propertyNames {name : Schema} (h : Flat name) : Flat (.propertyNames name) := by
  intro follow path t v hv
  cases t with
  | map fields =>
      rw [check] at hv
      split at hv
      · split at hv
        · cases hv
        · rw [List.mem_singleton.mp hv]
      · obtain ⟨field, -, hv⟩ := List.mem_flatMap.mp hv
        exact h follow path _ v hv
  | _ => cases hv

theorem passes_additional {rules : List Schema} (hrules : ∀ rule ∈ rules, Flat rule)
    (hinner : declared.lookup key = some inner ∨ declared.lookup key = none ∧ others.isNever = false ∧ others = inner) :
    Passes (.all (.additional declared others :: rules)) key inner := by
  intro follow hfollow path fields value hkeys hvalue place hplace
  have hfield : checkField follow path declared others (key, value) =
      check follow (path ++ segment key) value inner := by
    rw [checkField]
    rcases hinner with hs | ⟨hnone, hnever, rfl⟩
    · simp [hs]
    · simp [hnone, hnever]
  have hrest : ∀ v ∈ rules.flatMap (check follow path (.map fields)), v.path = path := by
    intro v hv
    obtain ⟨rule, hrule, hv⟩ := List.mem_flatMap.mp hv
    exact hrules rule hrule follow path _ v hv
  have hinside (field : String × Tree) :
      Inside (path ++ segment field.1) (checkField follow path declared others field) :=
    inside_checkField field (fun d _ => inside_check hfollow d.2) (inside_check hfollow others)
  rw [check, checkAll, checkAll_eq_flatMap, check_additional, restrict_append, restrict_append,
    restrict_flatMap hplace hkeys hvalue fun field _ => hinside field,
    restrict_around hplace fun v hv => path_of_mem_refusals hv, restrict_around hplace hrest, hfield,
    List.append_nil, List.append_nil]

-- Along keys, each schema judges the value of the key by the next one.
def Reaches : Schema → List String → Schema → Prop
  | s, [], inner => s = inner
  | s, key :: rest, inner => ∃ next, Passes s key next ∧ Reaches next rest inner

theorem restrict_check (hfollow : Local follow) {keys : List String} (hreaches : Reaches s keys inner)
    (path : String) (hkeyed : t.keyed) (hbody : t.sight keys = .found body) :
    restrict (path ++ pointerTo keys) (check follow path t s) = check follow (path ++ pointerTo keys) body inner := by
  induction keys generalizing path s t with
  | nil =>
      obtain rfl : s = inner := hreaches
      cases hbody
      rw [pointerTo, String.append_empty]
      exact restrict_eq_self (inside_check hfollow s path _)
  | cons key rest ih =>
      obtain ⟨next, hpasses, hnext⟩ := hreaches
      obtain ⟨value, hvalue, hrest⟩ := Tree.sight_cons_eq_found_iff.mp hbody
      cases t with
      | map fields =>
          obtain ⟨hkeys, hvalues⟩ := Tree.keyed_map_iff.mp hkeyed
          rw [pointerTo, ← String.append_assoc,
            hpasses follow hfollow path fields value hkeys hvalue _ (covers_append_pointerTo _ rest)]
          exact ih hnext _ (hvalues _ (Fields.mem_of_lookup hvalue)) hrest
      | _ => cases hvalue

/-! ### References -/

theorem refsOfList_eq_flatMap (rules : List Schema) : refsOfList rules = rules.flatMap refs := by
  induction rules with
  | nil => rfl
  | cons s rest ih => rw [refsOfList, ih, List.flatMap_cons]

theorem refsOfFields_eq_flatMap (declared : List (String × Schema)) :
    refsOfFields declared = declared.flatMap fun field => refs field.2 := by
  induction declared with
  | nil => rfl
  | cons field rest ih => rw [refsOfFields, ih, List.flatMap_cons]

-- A report is settled by what the references of the schema report.
theorem check_congr {other : String → String → Tree → List Violation} {s : Schema}
    (h : ∀ target ∈ s.refs, follow target = other target) (path : String) (t : Tree) :
    check follow path t s = check other path t s := by
  induction s using induct generalizing path t with
  | const accepts => cases accepts <;> rw [check, check]
  | ref target =>
      rw [check, check, h target (by simp [refs])]
  | all rules ih =>
      rw [refs, refsOfList_eq_flatMap] at h
      rw [check, check, checkAll_eq_flatMap, checkAll_eq_flatMap]
      exact List.flatMap_congr fun rule hrule =>
        ih rule hrule (fun target htarget => h target (List.mem_flatMap.mpr ⟨rule, hrule, htarget⟩)) path t
  | type kinds => rw [check, check]
  | minimum limit => rw [check, check]
  | required keys => cases t <;> simp only [check]
  | pattern source p => cases t <;> simp only [check]
  | properties declared ih =>
      rw [refs, refsOfFields_eq_flatMap] at h
      cases t with
      | map fields =>
          rw [check, check, checkDeclared_eq_flatMap, checkDeclared_eq_flatMap]
          refine List.flatMap_congr fun field hfield => ?_
          cases fields.lookup field.1 with
          | none => rfl
          | some value =>
              exact ih field hfield (fun target htarget => h target (List.mem_flatMap.mpr ⟨field, hfield, htarget⟩)) _ _
      | _ => simp only [check]
  | additional declared others ih hothers =>
      rw [refs, refsOfFields_eq_flatMap] at h
      cases t with
      | map fields =>
          rw [check_additional, check_additional]
          refine congrArg (· ++ _) (List.flatMap_congr fun field _ => ?_)
          rw [checkField, checkField]
          split
          next s hs =>
            have hmem := Fields.mem_of_lookup hs
            refine ih _ hmem (fun target htarget => h target (List.mem_append_left _ ?_)) _ _
            exact List.mem_flatMap.mpr ⟨_, hmem, htarget⟩
          next =>
            rw [hothers (fun target htarget => h target (List.mem_append_right _ htarget))]
      | _ => simp only [check]
  | propertyNames name ih =>
      cases t with
      | map fields =>
          rw [check, check]
          simp only [ih h]
      | _ => simp only [check]
  | items item ih =>
      cases t with
      | seq items =>
          rw [check, check]
          simp only [ih h]
      | _ => simp only [check]
  | anyOf options ih =>
      rw [refs, refsOfList_eq_flatMap] at h
      rw [check, check, checkEach_eq_map, checkEach_eq_map, List.map_congr_left fun s hs =>
        ih s hs (fun target htarget => h target (List.mem_flatMap.mpr ⟨s, hs, htarget⟩)) path t]
  | oneOf options ih =>
      rw [refs, refsOfList_eq_flatMap] at h
      rw [check, check, checkEach_eq_map, checkEach_eq_map, List.map_congr_left fun s hs =>
        ih s hs (fun target htarget => h target (List.mem_flatMap.mpr ⟨s, hs, htarget⟩)) path t]

end ScraperTimeline.Schema
