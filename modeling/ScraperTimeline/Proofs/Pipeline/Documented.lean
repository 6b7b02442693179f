import ScraperTimeline.Proofs.Axis.Declared
import ScraperTimeline.Proofs.Normal.Names

/-!
The documented shape of definition trees, as authors write them and as normalization leaves them. It is
said of the fields of each mapping and of the values of numbers, and the packaged contracts accept the trees
that have it and no others.
-/
namespace ScraperTimeline

open Shape

/-! ### Numbers -/

namespace Tree

theorem isScalar_iff {t : Tree} : IsScalar t ↔ IsText t ∨ ∃ q : ℚ, t.number? = some q := by
  cases t with
  | float x => simp [IsScalar, IsText, number?]
  | _ => simp [IsScalar, IsText, number?]

theorem isInteger_of_toQuotient {x : Binary64} (h : x.isFinite) {n : ℤ}
    (hn : (x.toQuotient.1 / x.toQuotient.2 : ℚ) = n) : x.isInteger := by
  have hpos : (0 : ℚ) < x.toQuotient.2 := by exact_mod_cast Nat.pow_pos (by decide)
  have hnumerator : x.toQuotient.1 = n * x.toQuotient.2 := by
    rw [div_eq_iff hpos.ne'] at hn
    exact_mod_cast hn
  have hmod : x.significand % Nat.pow 2 (-x.exponent).toNat = 0 := by
    by_cases hexp : 0 ≤ x.exponent
    · rw [Int.toNat_of_nonpos (by omega)]
      exact Nat.mod_one _
    · -- A negative power of two is all in the denominator.
      have hmagnitude : x.toQuotient.1.natAbs = x.significand := by
        have hscaled : x.exponent.toNat = 0 := by omega
        rw [Binary64.toQuotient]
        dsimp only
        split <;> simp [hscaled]
      rw [← hmagnitude, hnumerator, Int.natAbs_mul, Int.natAbs_natCast]
      exact Nat.mul_mod_left _ _
  simpa [Binary64.isInteger, h] using hmod

theorem isWhole_iff {t : Tree} : IsWhole t ↔ ∃ n : ℤ, t.number? = some (n : ℚ) := by
  refine ⟨exists_number_of_isWhole, fun ⟨n, hn⟩ => ?_⟩
  cases t with
  | int _ => trivial
  | float x =>
      rw [number?] at hn
      split at hn
      · exact ⟨‹_›, isInteger_of_toQuotient ‹_› (Option.some.inj hn)⟩
      · cases hn
  | _ => cases hn

-- The order of numbers is that of their values.
theorem lessThan_zero_iff {t : Tree} {q : ℚ} (h : t.number? = some q) :
    Schema.lessThan t.plain (.int 0) ↔ q < 0 := by
  cases t with
  | int n =>
      obtain rfl : (n.toInt : ℚ) = q := Option.some.inj h
      change Schema.lessThan (.int n) (.int 0) ↔ _
      simp [Schema.lessThan, Schema.lessThan.quotient?]
  | float x =>
      rw [number?] at h
      split at h
      · rename_i hfinite
        obtain rfl := Option.some.inj h
        have hpos : (0 : ℚ) < x.toQuotient.2 := by exact_mod_cast Nat.pow_pos (by decide)
        rw [Tree.plain_float, if_pos hfinite, Schema.lessThan, div_lt_iff₀ hpos]
        simp [Schema.lessThan.quotient?]
      · cases h
  | _ => cases h

theorem isPosition_iff {t : Tree} : IsPosition t ↔ ∃ n : ℕ, t.number? = some (n : ℚ) := by
  rw [IsPosition, isWhole_iff]
  constructor
  · rintro ⟨⟨n, hn⟩, hless⟩
    have hnonneg : 0 ≤ n := by
      have : ¬(n : ℚ) < 0 := fun hlt => by simp [(lessThan_zero_iff hn).mpr hlt] at hless
      exact_mod_cast not_lt.mp this
    exact ⟨n.toNat, by rw [hn, ← Int.cast_natCast, Int.toNat_of_nonneg hnonneg]⟩
  · rintro ⟨n, hn⟩
    refine ⟨⟨n, by exact_mod_cast hn⟩, ?_⟩
    rw [← Bool.not_eq_true, lessThan_zero_iff hn]
    exact_mod_cast Nat.not_lt_zero n

end Tree

/-! ### The shape -/

namespace Documented
open Schema.Packaged (Stage)

-- One of the characters that names are made of.
def NameChar (c : Char) : Prop :=
  ('A' ≤ c ∧ c ≤ 'Z') ∨ ('a' ≤ c ∧ c ≤ 'z') ∨ ('0' ≤ c ∧ c ≤ '9') ∨ c = '_' ∨ c = '-'

structure Step (fields : List (String × Tree)) : Prop where
  name : ∃ t, fields.lookup "name" = some t ∧ IsText t
  className : ∃ t, fields.lookup "class" = some t ∧ IsText t
  previous : ∀ t, fields.lookup "previous" = some t → IsText t
  next : ∀ t, fields.lookup "next" = some t → IsText t

section
variable (stage : Stage) (fields : List (String × Tree))

-- Authors may write the name of a group in the place of its steps.
def Steps : Tree → Prop := Sequence fun t => Mapping Step t ∨ (stage = .defined ∧ IsText t)

structure Task : Prop where
  dataDef : ∃ t, fields.lookup "dataDef" = some t ∧ IsText t
  steps : ∀ t, fields.lookup "steps" = some t → Steps stage t ∨ (stage = .defined ∧ IsText t)
  planned : stage = .effective → "steps" ∈ Fields.keys fields

structure Member : Prop where
  keys : Fields.keys fields ⊆ ["index", "match", "name", "order", "value"]
  index : ∀ t, ("index", t) ∈ fields → ∃ n : ℕ, t.number? = some (n : ℚ)
  pattern : ∀ t, ("match", t) ∈ fields → IsText t
  name : ∀ t, ("name", t) ∈ fields → IsText t
  order : ∀ t, ("order", t) ∈ fields → ∃ n : ℤ, t.number? = some (n : ℚ)
  value : ∀ t, ("value", t) ∈ fields → IsText t ∨ ∃ q : ℚ, t.number? = some q
  named : "name" ∈ Fields.keys fields
  resolvable : "value" ∈ Fields.keys fields ∨ "match" ∈ Fields.keys fields
  placed : stage = .effective → "index" ∈ Fields.keys fields ∧ "order" ∈ Fields.keys fields

structure Axis : Prop where
  keys : Fields.keys fields ⊆ ["members", "query"]
  members : ∀ t, ("members", t) ∈ fields → Sequence (Mapping (Member stage)) t
  query : ∀ t, ("query", t) ∈ fields → Mapping (Values IsText) t

structure Axes : Prop where
  keys : Fields.keys fields ⊆ ["col", "fact", "row"]
  axis : ∀ field ∈ fields, Mapping (Axis stage) field.2
  fact : stage = .effective → "fact" ∈ Fields.keys fields

structure Definition : Prop where
  axis : ∃ t, fields.lookup "axis" = some t ∧ Mapping (Axes stage) t
  query : ∀ t, fields.lookup "query" = some t → IsMapping t

structure Definitions : Prop where
  names : ∀ name ∈ Fields.keys fields, name ≠ "" ∧ ∀ c ∈ name.toList, NameChar c
  bodies : Values (Mapping (Definition stage)) fields

structure Defs : Prop where
  keys : Fields.keys fields ⊆ ["dataDefs", "locatorGroups", "steps", "taskGroups"]
  dataDefs : ∀ t, ("dataDefs", t) ∈ fields → Mapping (Definitions stage) t
  locatorGroups : ∀ t, ("locatorGroups", t) ∈ fields → IsMapping t
  steps : ∀ t, ("steps", t) ∈ fields → Mapping (Values (Steps stage)) t
  taskGroups : ∀ t, ("taskGroups", t) ∈ fields →
    Mapping (Values (Mapping (Values (Mapping (Task stage))))) t
  declared : "dataDefs" ∈ Fields.keys fields

end

/-! ### The shape of the contracts -/

section
variable {declared : List (String × (Tree → Prop))} {fields : List (String × Tree)}

theorem closed_iff (hkeys : (Fields.keys declared).Nodup) :
    Closed declared fields ↔ Fields.keys fields ⊆ Fields.keys declared ∧
      ∀ d ∈ declared, ∀ t, (d.1, t) ∈ fields → d.2 t := by
  constructor
  · intro h
    refine ⟨fun key hkey => ?_, fun d hd t ht => ?_⟩
    · obtain ⟨t, ht⟩ := Fields.exists_of_mem_keys hkey
      obtain ⟨P, hP, -⟩ := h _ ht
      exact List.mem_map_of_mem hP
    · obtain ⟨P, hP, hholds⟩ := h _ ht
      have heq : some P = some d.2 :=
        (Fields.lookup_of_mem hkeys hP).symm.trans (Fields.lookup_of_mem hkeys hd)
      exact Option.some.inj heq ▸ hholds
  · rintro ⟨hsub, hvalues⟩ field hfield
    obtain ⟨P, hP⟩ := Fields.exists_of_mem_keys (hsub (List.mem_map_of_mem hfield))
    exact ⟨P, hP, hvalues _ hP _ hfield⟩

theorem required_iff {key : String} {P : Tree → Prop} :
    (∃ t, fields.lookup key = some t ∧ P t) ↔ Optional key P fields ∧ key ∈ Fields.keys fields := by
  constructor
  · rintro ⟨t, ht, hP⟩
    refine ⟨fun u hu => ?_, List.mem_map_of_mem (Fields.mem_of_lookup ht)⟩
    exact Option.some.inj (ht.symm.trans hu) ▸ hP
  · rintro ⟨hoptional, hkey⟩
    exact hoptional.exists_of_mem hkey

theorem isName_iff {name : String} :
    Store.isName name ↔ name ≠ "" ∧ ∀ c ∈ name.toList, NameChar c := by
  simp [Store.isName, Store.isNameChar, NameChar, Text.isDigit, or_assoc, or_left_comm]

theorem mapping_congr {P Q : List (String × Tree) → Prop} (h : ∀ fields, P fields ↔ Q fields) :
    Mapping P = Mapping Q :=
  congrArg Mapping (funext fun fields => propext (h fields))

end

open ScraperTimeline.Normal

theorem mapping_step : Mapping Step = IsStep := by
  rw [IsStep]
  refine mapping_congr fun fields => ?_
  constructor
  · rintro ⟨hname, hclass, hprevious, hnext⟩
    obtain ⟨hname, hnamed⟩ := required_iff.mp hname
    obtain ⟨hclass, hclassed⟩ := required_iff.mp hclass
    exact ⟨by simpa using ⟨hclass, hname, hnext, hprevious⟩, hnamed, hclassed⟩
  · rintro ⟨htexts, hnamed, hclassed⟩
    exact ⟨required_iff.mpr ⟨htexts _ (by simp), hnamed⟩, required_iff.mpr ⟨htexts _ (by simp), hclassed⟩,
      htexts "previous" (by simp), htexts "next" (by simp)⟩

section
variable (stage : Stage)

-- No pass is done where authors write, and all are done where normalization ends.
theorem notMem_done {pass : Pass} : pass ∉ stage.done ↔ stage = .defined := by
  cases stage <;> simp

theorem steps_eq (pass : Pass) : Steps stage = IsSteps stage.done pass := by
  simp only [Steps, IsSteps, mapping_step, notMem_done]

theorem mapping_task : Mapping (Task stage) = IsTask stage.done := by
  rw [IsTask]
  refine mapping_congr fun fields => ?_
  simp only [← steps_eq, notMem_done]
  constructor
  · rintro ⟨hdataDef, hsteps, hplanned⟩
    obtain ⟨hdataDef, hnamed⟩ := required_iff.mp hdataDef
    exact ⟨hdataDef, hsteps, hnamed, fun h => hplanned ((Schema.Packaged.mem_done stage).mp h)⟩
  · rintro ⟨hdataDef, hsteps, hnamed, hplanned⟩
    exact ⟨required_iff.mpr ⟨hdataDef, hnamed⟩, hsteps,
      fun h => hplanned ((Schema.Packaged.mem_done stage).mpr h)⟩

theorem mapping_member : Mapping (Member stage) = IsMember stage.done := by
  rw [IsMember]
  refine mapping_congr fun fields => ?_
  rw [closed_iff (by simp [Fields.keys])]
  simp only [List.forall_mem_cons, Tree.isPosition_iff, Tree.isWhole_iff, Tree.isScalar_iff,
    Schema.Packaged.mem_done]
  constructor
  · intro h
    exact ⟨⟨h.keys, h.index, h.pattern, h.name, h.order, h.value, by simp⟩, h.resolvable, h.named,
      fun hstage => (h.placed hstage).1, fun hstage => (h.placed hstage).2⟩
  · rintro ⟨⟨hkeys, hindex, hpattern, hname, horder, hvalue, -⟩, hresolvable, hnamed, hindexed, hordered⟩
    exact ⟨hkeys, hindex, hpattern, hname, horder, hvalue, hnamed, hresolvable,
      fun hstage => ⟨hindexed hstage, hordered hstage⟩⟩

theorem mapping_axis : Mapping (Axis stage) = IsAxis stage.done := by
  rw [IsAxis]
  refine mapping_congr fun fields => ?_
  rw [closed_iff (by simp [Fields.keys])]
  simp only [List.forall_mem_cons, ← mapping_member]
  constructor
  · intro h
    exact ⟨h.keys, h.members, h.query, by simp⟩
  · rintro ⟨hkeys, hmembers, hquery, -⟩
    exact ⟨hkeys, hmembers, hquery⟩

theorem mapping_axes : Mapping (Axes stage) = IsAxes stage.done := by
  rw [IsAxes]
  refine mapping_congr fun fields => ?_
  rw [closed_iff (by simp [Fields.keys])]
  simp only [List.forall_mem_cons, ← mapping_axis, Schema.Packaged.mem_done]
  constructor
  · rintro ⟨hkeys, haxis, hfact⟩
    exact ⟨⟨hkeys, fun t => haxis (_, t), fun t => haxis (_, t), fun t => haxis (_, t), by simp⟩, hfact⟩
  · rintro ⟨⟨hkeys, hcol, hfact, hrow, -⟩, hfacts⟩
    refine ⟨hkeys, ?_, hfacts⟩
    rintro ⟨key, t⟩ hfield
    have hkey : key ∈ ["col", "fact", "row"] := hkeys (List.mem_map_of_mem hfield)
    simp only [List.mem_cons, List.not_mem_nil, or_false] at hkey
    obtain rfl | rfl | rfl := hkey
    · exact hcol t hfield
    · exact hfact t hfield
    · exact hrow t hfield

theorem mapping_definition : Mapping (Definition stage) = IsDefinition stage.done := by
  rw [IsDefinition]
  refine mapping_congr fun fields => ?_
  rw [← mapping_axes]
  constructor
  · rintro ⟨haxis, hquery⟩
    obtain ⟨haxis, hkey⟩ := required_iff.mp haxis
    exact ⟨haxis, hquery, hkey⟩
  · rintro ⟨haxis, hquery, hkey⟩
    exact ⟨required_iff.mpr ⟨haxis, hkey⟩, hquery⟩

theorem mapping_definitions : Mapping (Definitions stage) = IsDefinitions stage.done := by
  rw [IsDefinitions]
  refine mapping_congr fun fields => ?_
  simp only [← mapping_definition, accepts_namePattern, isName_iff]
  exact ⟨fun h => ⟨h.bodies, h.names⟩, fun h => ⟨h.2, h.1⟩⟩

theorem mapping_defs : Mapping (Defs stage) = IsDefs stage.done := by
  rw [IsDefs]
  refine mapping_congr fun fields => ?_
  rw [closed_iff (by simp [Fields.keys])]
  simp only [List.forall_mem_cons, ← mapping_definitions, IsTasks, ← mapping_task, IsGroups,
    ← steps_eq]
  constructor
  · intro h
    exact ⟨⟨h.keys, h.dataDefs, h.locatorGroups, h.steps, h.taskGroups, by simp⟩, h.declared⟩
  · rintro ⟨⟨hkeys, hdataDefs, hlocators, hsteps, htasks, -⟩, hdeclared⟩
    exact ⟨hkeys, hdataDefs, hlocators, hsteps, htasks, hdeclared⟩

end

end Documented

-- The packaged contracts can be loaded, and each accepts exactly the mappings of the shape of its stage.
theorem Pipeline.accepts_exactly_documented :
    ∃ defined effective : Contract,
      (∀ base fs, loadContracts (.below base) fs ["defined", "effective"] =
        .ok [("defined", defined), ("effective", effective)]) ∧
      ∀ (policy : Policy) (t : Tree),
        (defined.validate policy t = .ok () ↔ Mapping (Documented.Defs .defined) t) ∧
        (effective.validate policy t = .ok () ↔ Mapping (Documented.Defs .effective) t) := by
  refine ⟨_, _, loadContracts_packaged, fun policy t => ⟨?_, ?_⟩⟩
  · rw [Schema.Packaged.validate_contract_iff, Documented.mapping_defs]
  · rw [Schema.Packaged.validate_contract_iff, Documented.mapping_defs]

end ScraperTimeline
