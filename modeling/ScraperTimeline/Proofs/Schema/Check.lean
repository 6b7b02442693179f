import ScraperTimeline.Proofs.Tree.Fields
import ScraperTimeline.Schema.Check

/-!
The checker as functions on lists: what it reports of rules, options, declared properties and the fields of a
mapping, each from what it reports of one of them.
-/
namespace ScraperTimeline.Schema

-- Induction in which the schemas inside a schema come as members of a list.
theorem induct {P : Schema → Prop} (const : ∀ accepts, P (.const accepts))
    (ref : ∀ target, P (.ref target)) (all : ∀ rules, (∀ s ∈ rules, P s) → P (.all rules))
    (type : ∀ kinds, P (.type kinds)) (minimum : ∀ limit, P (.minimum limit))
    (required : ∀ keys, P (.required keys)) (pattern : ∀ source p, P (.pattern source p))
    (properties : ∀ declared, (∀ field ∈ declared, P field.2) → P (.properties declared))
    (additional : ∀ declared others, (∀ field ∈ declared, P field.2) → P others →
      P (.additional declared others))
    (propertyNames : ∀ name, P name → P (.propertyNames name)) (items : ∀ item, P item → P (.items item))
    (anyOf : ∀ options, (∀ s ∈ options, P s) → P (.anyOf options))
    (oneOf : ∀ options, (∀ s ∈ options, P s) → P (.oneOf options)) (s : Schema) : P s := by
  refine @Schema.rec P (fun rules => ∀ s ∈ rules, P s) (fun declared => ∀ field ∈ declared, P field.2)
    (fun field => P field.2) const ref all type minimum required pattern properties additional
    propertyNames items anyOf oneOf ?_ ?_ ?_ ?_ ?_ s
  · simp
  · intro head tail hhead htail
    exact List.forall_mem_cons.mpr ⟨hhead, htail⟩
  · simp
  · intro head tail hhead htail
    exact List.forall_mem_cons.mpr ⟨hhead, htail⟩
  · intro key s hs
    exact hs

variable {follow : String → String → Tree → List Violation} {path : String} {t : Tree}
  {fields : List (String × Tree)} {declared : List (String × Schema)} {others : Schema}

theorem checkAll_eq_flatMap (rules : List Schema) :
    checkAll follow path t rules = rules.flatMap (check follow path t) := by
  induction rules with
  | nil => rfl
  | cons s rest ih => rw [checkAll, ih, List.flatMap_cons]

theorem checkDeclared_eq_flatMap (declared : List (String × Schema)) :
    checkDeclared follow path fields declared = declared.flatMap fun field =>
      (fields.lookup field.1).elim [] fun value => check follow (path ++ segment field.1) value field.2 := by
  induction declared with
  | nil => rfl
  | cons field rest ih =>
      rw [checkDeclared, ih, List.flatMap_cons]
      cases fields.lookup field.1 <;> rfl

theorem checkEach_eq_map (options : List Schema) :
    checkEach follow path t options = options.map (check follow path t) := by
  induction options with
  | nil => rfl
  | cons s rest ih => rw [checkEach, ih, List.map_cons]

theorem checkKey_eq_map {key : String} (declared : List (String × Schema)) :
    checkKey follow path t key declared = (declared.lookup key).map (check follow path t) := by
  induction declared with
  | nil => rfl
  | cons field rest ih =>
      obtain ⟨k, s⟩ := field
      by_cases h : k = key
      · subst h
        simp [checkKey]
      · have hne : (key == k) = false := by simpa using Ne.symm h
        rw [checkKey, if_neg h, ih, List.lookup_cons, hne]

theorem isNever_iff {s : Schema} : s.isNever ↔ s = .const false := by
  cases s <;> simp [isNever]

-- What is reported of one field of a mapping.
def checkField (follow : String → String → Tree → List Violation) (path : String)
    (declared : List (String × Schema)) (others : Schema) (field : String × Tree) : List Violation :=
  match declared.lookup field.1 with
  | some s => check follow (path ++ segment field.1) field.2 s
  | none => if others.isNever then [] else check follow (path ++ segment field.1) field.2 others

-- What is reported of the keys that are refused.
def refusals (path : String) (fields : List (String × Tree)) (declared : List (String × Schema))
    (others : Schema) : List Violation :=
  if declared.isEmpty && others.isNever then
    (fields.take 1).map fun (_, value) => ⟨path, refusalMessage value⟩
  else
    let unexpected := fields.filter fun (key, _) => (declared.lookup key).isNone
    if others.isNever && !unexpected.isEmpty then [⟨path, unexpectedMessage (unexpected.map (·.1))⟩] else []

-- The fields are reported one by one, and then the keys that are refused, at the mapping itself.
theorem check_additional (follow : String → String → Tree → List Violation) (path : String)
    (fields : List (String × Tree)) (declared : List (String × Schema)) (others : Schema) :
    check follow path (.map fields) (.additional declared others) =
      fields.flatMap (checkField follow path declared others) ++ refusals path fields declared others := by
  rw [check, refusals]
  split
  next hrefuse =>
    obtain ⟨hdeclared, hnever⟩ := Bool.and_eq_true_iff.mp hrefuse
    obtain rfl := List.isEmpty_iff.mp hdeclared
    have hnothing : fields.flatMap (checkField follow path [] others) = [] := by
      simp [List.flatMap_eq_nil_iff, checkField, hnever]
    rw [hnothing, List.nil_append]
  next =>
    refine congrArg (· ++ _) (List.flatMap_congr fun field _ => ?_)
    obtain ⟨key, value⟩ := field
    rw [checkField]
    dsimp only
    rw [checkKey_eq_map]
    cases declared.lookup key <;> rfl

end ScraperTimeline.Schema
