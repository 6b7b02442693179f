import ScraperTimeline.Axis.Members
import ScraperTimeline.Proofs.Pipeline.Contracts
import ScraperTimeline.Proofs.Timeline.Collected
import ScraperTimeline.Proofs.Timeline.Rewritten
import Mathlib.Algebra.Order.Field.Rat

/-!
The axes of a definition, against what it declares. The effective contract accepts whole numbers however
they are written; an axis takes over those that are written as integers.
-/
namespace ScraperTimeline

open ScraperTimeline.Normal Shape

/-! ### Numbers -/

namespace Tree

-- The value of a number.
def number? : Tree → Option ℚ
  | .int n => some n.toInt
  | .float x => if x.isFinite then some (x.toQuotient.1 / x.toQuotient.2) else none
  | _ => none

theorem exists_toQuotient_of_isInteger {x : Binary64} (h : x.isInteger) :
    ∃ n : ℤ, (x.toQuotient.1 / x.toQuotient.2 : ℚ) = n := by
  obtain ⟨-, hmod⟩ : x.isFinite ∧ x.significand % Nat.pow 2 (-x.exponent).toNat = 0 := by
    simpa [Binary64.isInteger] using h
  have hscaled : Nat.pow 2 (-x.exponent).toNat ∣ x.significand * Nat.pow 2 x.exponent.toNat :=
    Dvd.dvd.mul_right (Nat.dvd_of_mod_eq_zero hmod) _
  have hdvd : (x.toQuotient.2 : ℤ) ∣ x.toQuotient.1 := by
    rw [Binary64.toQuotient]
    dsimp only
    split
    · exact Int.dvd_neg.mpr (Int.natCast_dvd_natCast.mpr hscaled)
    · exact Int.natCast_dvd_natCast.mpr hscaled
  have hpos : 0 < x.toQuotient.2 := Nat.pow_pos (by decide)
  exact ⟨x.toQuotient.1 / x.toQuotient.2, by rw [Int.cast_div hdvd (by exact_mod_cast hpos.ne'), Int.cast_natCast]⟩

theorem exists_number_of_isWhole {t : Tree} (h : IsWhole t) : ∃ n : ℤ, t.number? = some (n : ℚ) := by
  cases t with
  | int n => exact ⟨n.toInt, rfl⟩
  | float x =>
      obtain ⟨n, hn⟩ := exists_toQuotient_of_isInteger h.2
      exact ⟨n, by rw [number?, if_pos h.1, hn]⟩
  | _ => exact h.elim

end Tree

/-! ### Members -/

-- An integer is declared, and it is taken over unless a float stands for it.
structure Taken (declared : Option Tree) (taken : Option Int64) : Prop where
  number : ∃ n : ℤ, declared.bind Tree.number? = some (n : ℚ) ∧
    (taken.map Int64.toInt = some n ↔ ∃ w, declared = some (.int w))
  none_iff : taken = none ↔ ∃ x, declared = some (.float x)

theorem taken_of_isWhole {t : Tree} (h : IsWhole t) : Taken (some t) t.integer? := by
  obtain ⟨n, hn⟩ := Tree.exists_number_of_isWhole h
  cases t with
  | int w =>
      have hw : w.toInt = n := by simpa [Tree.number?] using hn
      exact ⟨⟨n, hn, by simp [Tree.integer?, hw]⟩, by simp [Tree.integer?]⟩
  | float x => exact ⟨⟨n, hn, by simp [Tree.integer?]⟩, by simp [Tree.integer?]⟩
  | _ => exact h.elim

-- What an axis has of the member that declares it.
structure Axis.Copies (member : Tree) (a : Axis) : Prop where
  name : ∃ name, member.field? "name" = some (.string name) ∧ a.name = some name
  value : a.value.isSome ↔ (member.field? "value").isSome
  pattern : a.pattern.map .string = member.field? "match"
  resolvable : a.value.isSome ∨ a.pattern.isSome
  index : Taken (member.field? "index") a.index
  order : Taken (member.field? "order") a.order

theorem Tree.isSome_text?_of_isScalar {t : Tree} (h : IsScalar t) : t.text?.isSome := by
  cases t with
  | string _ | int _ | float _ => rfl
  | _ => exact h.elim

theorem Axis.copies_ofDeclaration (kind : AxisKind) {done : List Pass} {member : Tree}
    (hindexed : .addIndex ∈ done) (hordered : .addOrder ∈ done) (h : IsMember done member) :
    (Axis.ofDeclaration kind member).Copies member := by
  obtain ⟨fields, rfl, hclosed, hresolvable, hname, hindex, horder⟩ := Mapping.eq_map h
  have hdeclared {key : String} {P : Tree → Prop} (hP : (key, P) ∈ _) : Optional key P fields :=
    hclosed.optional (by simp [Fields.keys]) hP
  obtain ⟨_, hname, name, rfl⟩ := (hdeclared (show ("name", IsText) ∈ _ by simp)).exists_of_mem hname
  obtain ⟨index, hindex, hposition⟩ :=
    (hdeclared (show ("index", IsPosition) ∈ _ by simp)).exists_of_mem (hindex hindexed)
  obtain ⟨order, horder, hwhole⟩ :=
    (hdeclared (show ("order", IsWhole) ∈ _ by simp)).exists_of_mem (horder hordered)
  have hvalue : ((fields.lookup "value").bind Tree.text?).isSome ↔ (fields.lookup "value").isSome := by
    cases hfound : fields.lookup "value" with
    | none => simp
    | some value =>
        have hscalar := hdeclared (show ("value", IsScalar) ∈ _ by simp) value hfound
        simp [Tree.isSome_text?_of_isScalar hscalar]
  have hpattern : ((fields.lookup "match").bind Tree.text?).map .string = fields.lookup "match" := by
    cases hfound : fields.lookup "match" with
    | none => rfl
    | some pattern =>
        obtain ⟨text, rfl⟩ := hdeclared (show ("match", IsText) ∈ _ by simp) pattern hfound
        rfl
  refine ⟨⟨name, hname, ?_⟩, hvalue, hpattern, ?_, ?_, ?_⟩
  · simp [Axis.ofDeclaration, Tree.field?, hname, Tree.text?]
  · rw [← Fields.has_iff, ← Fields.has_iff] at hresolvable
    refine hresolvable.imp hvalue.mpr fun hfound => ?_
    rwa [Fields.has, ← hpattern, Option.isSome_map] at hfound
  · simpa [Axis.ofDeclaration, Tree.field?, hindex] using taken_of_isWhole hposition.1
  · simpa [Axis.ofDeclaration, Tree.field?, horder] using taken_of_isWhole hwhole

/-! ### Axes -/

section
variable {done : List Pass} {t : Tree} {declared : List (String × Tree)}

-- The members that an axis declares.
def Tree.members (t : Tree) : List Tree := ((t.field? "members").bind Tree.items?).getD []

theorem Normal.IsAxis.isMember (h : IsAxis done t) : ∀ member ∈ t.members, IsMember done member := by
  obtain ⟨fields, rfl, hclosed⟩ := Mapping.eq_map h
  have hmembers : Optional "members" (Sequence (IsMember done)) fields :=
    hclosed.optional (by simp [Fields.keys]) (by simp)
  cases hfound : fields.lookup "members" with
  | none => simp [Tree.members, Tree.field?, hfound]
  | some found =>
      have hitems := hmembers found hfound
      cases found with
      | seq items =>
          have hmembers : (Tree.map fields).members = items := by
            simp [Tree.members, Tree.field?, Tree.items?, hfound]
          exact hmembers ▸ hitems
      | _ => exact hitems.elim

theorem Normal.IsAxes.kind_of_mem (h : IsAxes done (.map declared)) {field : String × Tree}
    (hfield : field ∈ declared) :
    (∃ kind : AxisKind, kind.key = field.1) ∧ IsAxis done field.2 := by
  obtain ⟨P, hP, haxis⟩ := h.1 field hfield
  simp only [List.mem_cons, Prod.mk.injEq, List.not_mem_nil, or_false] at hP
  obtain ⟨hkey, rfl⟩ | ⟨hkey, rfl⟩ | ⟨hkey, rfl⟩ := hP
  · exact ⟨⟨.col, hkey.symm⟩, haxis⟩
  · exact ⟨⟨.fact, hkey.symm⟩, haxis⟩
  · exact ⟨⟨.row, hkey.symm⟩, haxis⟩

theorem Normal.IsAxes.exists_kind (h : IsAxes done (.map declared)) {key : String}
    (hkey : key ∈ Fields.keys declared) :
    ∃ kind : AxisKind, kind.key = key := by
  obtain ⟨t, hfield⟩ := Fields.exists_of_mem_keys hkey
  exact (h.kind_of_mem hfield).1

theorem Normal.IsDefinition.exists_axes (h : IsDefinition done t) :
    ∃ declared, t.field? "axis" = some (.map declared) ∧ IsAxes done (.map declared) := by
  obtain ⟨fields, rfl, haxis, -, hkey⟩ := Mapping.eq_map h
  obtain ⟨axes, hfound, haxes⟩ := haxis.exists_of_mem hkey
  obtain ⟨declared, rfl, -⟩ := Mapping.eq_map haxes
  exact ⟨declared, hfound, haxes⟩

end

namespace AxisKind

theorem mem_all (kind : AxisKind) : kind ∈ all := by
  cases kind <;> decide

theorem isSome_ofKey?_iff {key : String} : (ofKey? key).isSome ↔ ∃ kind : AxisKind, kind.key = key := by
  rw [ofKey?, List.find?_isSome]
  constructor
  · rintro ⟨kind, -, hkey⟩
    exact ⟨kind, of_decide_eq_true hkey⟩
  · rintro ⟨kind, hkey⟩
    exact ⟨kind, kind.mem_all, decide_eq_true hkey⟩

end AxisKind

namespace AxisSets

theorem mem_distinct {α : Type} [DecidableEq α] {a : α} {l : List α} : a ∈ distinct l ↔ a ∈ l := by
  induction l with
  | nil => simp [distinct]
  | cons b rest ih =>
      rw [distinct, List.mem_cons, List.mem_filter, ih, List.mem_cons]
      by_cases h : a = b <;> simp [h]

-- The sets of the axes that are declared.
def ofFields (declared : List (String × Tree)) : AxisSets :=
  AxisKind.all.filterMap fun kind => (declared.lookup kind.key).map fun t => (kind, ofKind kind t)

variable {declared : List (String × Tree)} {v : Version} {sets : AxisSets}

theorem ofVersion_eq_ok_iff : ofVersion v = .ok sets ↔
    ∃ declared, v.body.field? "axis" = some (.map declared) ∧
      (∀ key ∈ Fields.keys declared, ∃ kind : AxisKind, kind.key = key) ∧ ofFields declared = sets := by
  rw [ofVersion]
  cases haxis : v.body.field? "axis" with
  | none => simp
  | some axes =>
      cases axes with
      | map declared =>
          simp only [Option.bind_some, Tree.fields?, Option.some.injEq, Tree.map.injEq, exists_eq_left',
            ← AxisKind.isSome_ofKey?_iff]
          split
          next key t hfound =>
            have hunknown := List.find?_some hfound
            have hkey := Fields.mem_keys (List.mem_of_find?_eq_some hfound)
            simp only [reduceCtorEq, false_iff, not_and]
            exact fun hknown => absurd (hknown key hkey) (by simpa using hunknown)
          next hknown =>
            have hall : ∀ key ∈ Fields.keys declared, (AxisKind.ofKey? key).isSome := fun key hkey => by
              obtain ⟨t, hfield⟩ := Fields.exists_of_mem_keys hkey
              simpa [Option.isSome_iff_ne_none] using List.find?_eq_none.mp hknown _ hfield
            exact ⟨fun h => ⟨hall, Except.ok.inj h⟩, fun h => congrArg Except.ok h.2⟩
      | _ => simp [Tree.fields?]

theorem ofVersion_eq_ok (haxis : v.body.field? "axis" = some (.map declared))
    (hkinds : ∀ key ∈ Fields.keys declared, ∃ kind : AxisKind, kind.key = key) :
    ofVersion v = .ok (ofFields declared) :=
  ofVersion_eq_ok_iff.mpr ⟨declared, haxis, hkinds, rfl⟩

theorem kinds_ofFields :
    (ofFields declared).map (·.1) = AxisKind.all.filter fun kind => (declared.lookup kind.key).isSome := by
  rw [ofFields, List.map_filterMap, ← List.filterMap_eq_filter]
  congr 1
  funext kind
  cases h : declared.lookup kind.key <;> simp [Option.guard, h]

theorem mem_ofFields {set : AxisKind × List Axis} :
    set ∈ ofFields declared ↔ ∃ t, declared.lookup set.1.key = some t ∧ ofKind set.1 t = set.2 := by
  obtain ⟨kind, axes⟩ := set
  simp [ofFields, kind.mem_all]

theorem mem_ofKind {kind : AxisKind} {t : Tree} {a : Axis} :
    a ∈ ofKind kind t ↔ ∃ member ∈ t.members, Axis.ofDeclaration kind member = a := by
  rw [ofKind, mem_distinct, List.mem_map]
  rfl

end AxisSets

/-! ### Versions -/

namespace Version
variable {v : Version}

-- The keys of the axes, and the members of one of them, as they are declared.
def axisKeys (v : Version) : List String := Fields.keys (((v.body.field? "axis").bind Tree.fields?).getD [])

def declarations (kind : AxisKind) (v : Version) : List Tree :=
  (((v.body.field? "axis").bind (Tree.field? kind.key)).map Tree.members).getD []

theorem declarations_eq {declared : List (String × Tree)} (haxis : v.body.field? "axis" = some (.map declared))
    (kind : AxisKind) : v.declarations kind = ((declared.lookup kind.key).map Tree.members).getD [] := by
  rw [declarations, haxis]
  rfl

-- A set for each declared key, with a copy of each member and nothing else.
structure Copied (v : Version) (sets : AxisSets) : Prop where
  kinds : (sets.map (·.1)).Sublist AxisKind.all
  keys : ∀ key, key ∈ v.axisKeys ↔ ∃ set ∈ sets, set.1.key = key
  copy : ∀ set ∈ sets, ∀ a ∈ set.2, a.kind = set.1 ∧ ∃ member ∈ v.declarations set.1, a.Copies member
  complete : ∀ set ∈ sets, ∀ member ∈ v.declarations set.1, ∃ a ∈ set.2, a.Copies member

theorem copied_of_isDefinition {done : List Pass} (hindexed : .addIndex ∈ done) (hordered : .addOrder ∈ done)
    (h : IsDefinition done v.body) : ∃ sets, AxisSets.ofVersion v = .ok sets ∧ v.Copied sets := by
  obtain ⟨declared, haxis, haxes⟩ := h.exists_axes
  have hkeys : v.axisKeys = Fields.keys declared := by simp [axisKeys, haxis, Tree.fields?]
  have hset (set : AxisKind × List Axis) (h : set ∈ AxisSets.ofFields declared) :
      ∃ t, v.declarations set.1 = t.members ∧ AxisSets.ofKind set.1 t = set.2 ∧ IsAxis done t := by
    obtain ⟨t, hfound, hset⟩ := AxisSets.mem_ofFields.mp h
    exact ⟨t, by simp [declarations_eq haxis, hfound], hset,
      (haxes.kind_of_mem (Fields.mem_of_lookup hfound)).2⟩
  refine ⟨_, AxisSets.ofVersion_eq_ok haxis fun _ => haxes.exists_kind, ?_, fun key => ?_, fun set h a ha => ?_,
    fun set h member hmember => ?_⟩
  · rw [AxisSets.kinds_ofFields]
    exact List.filter_sublist
  · rw [hkeys]
    constructor
    · intro hkey
      obtain ⟨kind, rfl⟩ := haxes.exists_kind hkey
      obtain ⟨t, hfound⟩ := Option.isSome_iff_exists.mp (Fields.has_iff.mpr hkey)
      exact ⟨(kind, AxisSets.ofKind kind t), AxisSets.mem_ofFields.mpr ⟨t, hfound, rfl⟩, rfl⟩
    · rintro ⟨set, hmem, rfl⟩
      obtain ⟨t, hfound, -⟩ := AxisSets.mem_ofFields.mp hmem
      exact Fields.mem_keys (Fields.mem_of_lookup hfound)
  · obtain ⟨t, hmembers, hset, haxis⟩ := hset set h
    obtain ⟨member, hmember, rfl⟩ := AxisSets.mem_ofKind.mp (hset ▸ ha)
    exact ⟨rfl, member, hmembers ▸ hmember,
      Axis.copies_ofDeclaration set.1 hindexed hordered (haxis.isMember member hmember)⟩
  · obtain ⟨t, hmembers, hset, haxis⟩ := hset set h
    rw [hmembers] at hmember
    exact ⟨_, hset ▸ AxisSets.mem_ofKind.mpr ⟨member, hmember, rfl⟩,
      Axis.copies_ofDeclaration set.1 hindexed hordered (haxis.isMember member hmember)⟩

end Version

/-! ### A definition with one fact -/

section
variable {done : List Pass} {member value index : Tree}

def factBody (member : Tree) : Tree :=
  .map [("axis", .map [("fact", .map [("members", .seq [member])])])]

def quote (value index : Tree) : Tree :=
  .map [("name", .string "open"), ("value", value), ("index", index), ("order", .int (-1))]

theorem isMember_quote (hvalue : IsScalar value) (hindex : IsPosition index) :
    IsMember done (quote value index) := by
  simp [quote, IsMember, Mapping, Closed, Fields.keys, IsText, IsWhole, hvalue, hindex]

theorem isDefinition_factBody (h : IsMember done member) : IsDefinition done (factBody member) := by
  have haxis : IsAxis done (.map [("members", .seq [member])]) := by
    simpa [IsAxis, Mapping, Closed, Sequence] using h
  simp [factBody, IsDefinition, IsAxes, Mapping, Closed, Optional, Fields.keys, List.lookup_cons, haxis]

def quotes (member : Tree) : Tree := .map [("dataDefs", .map [("price", factBody member)])]

theorem validate_quotes_of_isMember (stage : Schema.Packaged.Stage) (name : String) (h : IsMember stage.done member) :
    (Schema.Packaged.contract stage name).validate .failFast (quotes member) = .ok () := by
  have hname : namePattern.accepts ['p', 'r', 'i', 'c', 'e'] := by decide
  rw [Schema.Packaged.validate_contract_iff]
  simpa [quotes, IsDefs, IsDefinitions, Mapping, Closed, Values, Fields.keys] using
    ⟨isDefinition_factBody h, hname⟩

theorem validate_quotes (h : IsMember Pass.order member) :
    (Schema.Packaged.contract .effective "effective").validate .failFast (quotes member) = .ok () :=
  validate_quotes_of_isMember .effective "effective" h

end

namespace Timeline
variable {base : Option String} {fs : Files} {defined effective : Contract} {policy : Policy} {t : Tree}
  {high run : Instant} {vs : List Version} {v : Version}

-- The axes of what is compiled from an effective tree are copies of what it declares.
theorem compiled_axes_copied
    (hload : Pipeline.loadContracts (.below base) fs ["defined", "effective"] =
      .ok [("defined", defined), ("effective", effective)])
    (hvalid : effective.validate policy t = .ok ()) (hcompile : compile high run t = .ok vs) (hv : v ∈ vs) :
    ∃ sets, AxisSets.ofVersion v = .ok sets ∧ v.Copied sets := by
  obtain ⟨-, rfl⟩ := Pipeline.eq_of_loadContracts hload
  obtain ⟨-, rfl⟩ := compile_eq_ok_iff.mp hcompile
  obtain ⟨field, hfield, rfl⟩ := List.mem_map.mp hv
  obtain ⟨hdefinitions, -⟩ :=
    isDefinitions_definitions ((Schema.Packaged.validate_contract_iff .effective _ policy t).mp hvalid)
  exact Version.copied_of_isDefinition (by decide) (by decide) (hdefinitions field hfield)

theorem compiled_axes_copied_quotes :
    ∃ defined effective v sets,
      Pipeline.loadContracts (.below none) .empty ["defined", "effective"] =
        .ok [("defined", defined), ("effective", effective)] ∧
      effective.validate .failFast (quotes (quote (.int 2) (.int 1))) = .ok () ∧
      compile ⟨9, 0⟩ ⟨4, 0⟩ (quotes (quote (.int 2) (.int 1))) = .ok [v] ∧
      AxisSets.ofVersion v = .ok sets ∧ v.Copied sets ∧
      sets = [(.fact, [⟨.fact, some "open", some "2", none, some 1, some (-1)⟩])] := by
  have hload := Pipeline.loadContracts_packaged none .empty
  have hindex : IsPosition (.int 1) := ⟨trivial, by decide⟩
  have hvalid := validate_quotes (isMember_quote (show IsScalar (.int 2) from trivial) hindex)
  obtain ⟨v, hcompile⟩ : ∃ v, compile ⟨9, 0⟩ ⟨4, 0⟩ (quotes (quote (.int 2) (.int 1))) = .ok [v] := ⟨_, rfl⟩
  obtain ⟨sets, hsets, hcopied⟩ := compiled_axes_copied hload hvalid hcompile List.mem_cons_self
  refine ⟨_, _, v, sets, hload, hvalid, hcompile, hsets, hcopied, ?_⟩
  cases hcompile
  cases hsets
  decide +kernel

-- The same index as a float: the contract accepts it, and the axis has none.
theorem axis_without_float_index :
    ∃ defined effective v member,
      Pipeline.loadContracts (.below none) .empty ["defined", "effective"] =
        .ok [("defined", defined), ("effective", effective)] ∧
      effective.validate .failFast (quotes (quote (.int 2) (.float ⟨0x3FF0000000000000⟩))) = .ok () ∧
      compile ⟨9, 0⟩ ⟨4, 0⟩ (quotes (quote (.int 2) (.float ⟨0x3FF0000000000000⟩))) = .ok [v] ∧
      v.declarations .fact = [member] ∧ (member.field? "index").bind Tree.number? = some 1 ∧
      AxisSets.ofVersion v = .ok [(.fact, [⟨.fact, some "open", some "2", none, none, some (-1)⟩])] := by
  have hindex : IsPosition (.float ⟨0x3FF0000000000000⟩) := ⟨⟨by decide, by decide⟩, by decide +kernel⟩
  refine ⟨_, _, _, _, Pipeline.loadContracts_packaged none .empty,
    validate_quotes (isMember_quote trivial hindex), rfl, rfl, ?_, ?_⟩
  · decide +kernel
  · decide +kernel

end Timeline
end ScraperTimeline
