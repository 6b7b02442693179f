import ScraperTimeline.Proofs.Tree.Basic
import ScraperTimeline.Proofs.Tree.Fields
import ScraperTimeline.Schema.Check
import ScraperTimeline.Tree.Update
import Mathlib.Data.List.Forall2
import Mathlib.Logic.Relation

namespace ScraperTimeline.Shape

def Mapping (P : List (String × Tree) → Prop) : Tree → Prop
  | .map fields => P fields
  | _ => False

def Sequence (P : Tree → Prop) : Tree → Prop
  | .seq items => ∀ t ∈ items, P t
  | _ => False

theorem Mapping.eq_map {P : List (String × Tree) → Prop} {t : Tree} (h : Mapping P t) :
    ∃ fields, t = .map fields ∧ P fields := by
  cases t with
  | map fields => exact ⟨fields, rfl, h⟩
  | _ => exact h.elim

theorem Mapping.mono {P Q : List (String × Tree) → Prop} {t : Tree} (h : Mapping P t)
    (himp : ∀ fields, P fields → Q fields) : Mapping Q t := by
  cases t with
  | map fields => exact himp fields h
  | _ => exact h.elim

theorem Sequence.mono {P Q : Tree → Prop} {t : Tree} (h : Sequence P t) (himp : ∀ t, P t → Q t) :
    Sequence Q t := by
  cases t with
  | seq items => exact fun t ht => himp t (h t ht)
  | _ => exact h.elim

-- Each field is among the declared ones and as declared.
def Closed (declared : List (String × (Tree → Prop))) (fields : List (String × Tree)) : Prop :=
  ∀ field ∈ fields, ∃ P, (field.1, P) ∈ declared ∧ P field.2

def Values (P : Tree → Prop) (fields : List (String × Tree)) : Prop := ∀ field ∈ fields, P field.2

-- A field need not be there.
def Optional (key : String) (P : Tree → Prop) (fields : List (String × Tree)) : Prop :=
  ∀ value, fields.lookup key = some value → P value

def IsMapping : Tree → Prop := Mapping fun _ => True

def IsText (t : Tree) : Prop := ∃ s, t = .string s

-- A number without a fraction.
def IsWhole : Tree → Prop
  | .int _ => True
  | .float x => x.isFinite ∧ x.isInteger
  | _ => False

def IsPosition (t : Tree) : Prop := IsWhole t ∧ Schema.lessThan t.plain (.int 0) = false

def IsScalar : Tree → Prop
  | .string _ => True
  | .int _ => True
  | .float x => x.isFinite
  | _ => False

theorem Closed.mono {declared declared' : List (String × (Tree → Prop))} {fields : List (String × Tree)}
    (h : Closed declared fields) (himp : List.Forall₂ (fun before after =>
      after.1 = before.1 ∧ ∀ v, before.2 v → after.2 v) declared declared') : Closed declared' fields := by
  intro field hfield
  obtain ⟨P, hP, hfield⟩ := h field hfield
  clear h
  induction himp with
  | nil => cases hP
  | @cons before after rest rest' hhead _ ih =>
      rcases List.mem_cons.mp hP with rfl | hP
      · exact ⟨after.2, List.mem_cons.mpr (.inl (Prod.ext hhead.1.symm rfl)), hhead.2 _ hfield⟩
      · obtain ⟨Q, hQ, hfield⟩ := ih hP
        exact ⟨Q, List.mem_cons_of_mem _ hQ, hfield⟩

-- A declared field is as declared, if it is there.
theorem Closed.optional {declared : List (String × (Tree → Prop))} {fields : List (String × Tree)}
    {key : String} {P : Tree → Prop} (h : Closed declared fields) (hkeys : (Fields.keys declared).Nodup)
    (hP : (key, P) ∈ declared) : Optional key P fields := by
  intro value hvalue
  obtain ⟨Q, hQ, hvalue⟩ := h _ (Fields.mem_of_lookup hvalue)
  obtain rfl := Option.some.inj ((Fields.lookup_of_mem hkeys hQ).symm.trans (Fields.lookup_of_mem hkeys hP))
  exact hvalue

theorem Optional.exists_of_mem {key : String} {P : Tree → Prop} {fields : List (String × Tree)}
    (h : Optional key P fields) (hkey : key ∈ Fields.keys fields) :
    ∃ value, fields.lookup key = some value ∧ P value := by
  obtain ⟨value, hvalue⟩ := Option.isSome_iff_exists.mp (Fields.has_iff.mpr hkey)
  exact ⟨value, hvalue, h value hvalue⟩

theorem Closed.default {declared : List (String × (Tree → Prop))} {fields : List (String × Tree)}
    {key : String} {value : Tree} {P : Tree → Prop} (h : Closed declared fields)
    (hP : (key, P) ∈ declared) (hvalue : P value) :
    Closed declared (Fields.default key value fields) := by
  by_cases hkey : key ∈ Fields.keys fields
  · rwa [Fields.default_of_mem hkey]
  · rw [Fields.default_of_notMem hkey]
    intro field hfield
    rcases List.mem_append.mp hfield with hfield | hfield
    · exact h field hfield
    · obtain rfl := List.mem_singleton.mp hfield
      exact ⟨P, hP, hvalue⟩

theorem Optional.default {key other : String} {value : Tree} {P : Tree → Prop}
    {fields : List (String × Tree)} (h : Optional other P fields) (hvalue : other = key → P value) :
    Optional other P (Fields.default key value fields) := by
  by_cases hkey : key ∈ Fields.keys fields
  · rwa [Fields.default_of_mem hkey]
  · rw [Fields.default_of_notMem hkey]
    intro v hv
    rw [List.lookup_append, Option.or_eq_some_iff] at hv
    rcases hv with hv | ⟨-, hv⟩
    · exact h v hv
    · by_cases heq : other = key
      · obtain rfl : value = v := by simpa [heq] using hv
        exact hvalue heq
      · have hne : (other == key) = false := by simpa using heq
        simp [List.lookup_cons, hne] at hv

theorem Optional.put {key other : String} {value : Tree} {P : Tree → Prop}
    {fields : List (String × Tree)} (h : other ≠ key → Optional other P fields)
    (hvalue : other = key → P value) : Optional other P (Fields.put key value fields) := by
  intro v hv
  by_cases heq : other = key
  · subst heq
    obtain rfl : value = v := by simpa using hv
    exact hvalue rfl
  · rw [Fields.lookup_put_of_ne heq] at hv
    exact h heq v hv

/-! ### Changes under the keys -/

-- The same keys in the same order, each with a value that comes from the one before.
def Related (R : String → Tree → Tree → Prop) (fields fields' : List (String × Tree)) : Prop :=
  List.Forall₂ (fun before after => after.1 = before.1 ∧ R before.1 before.2 after.2) fields fields'

section
variable {R : String → Tree → Tree → Prop} {fields fields' : List (String × Tree)}

theorem related_map {g : String × Tree → String × Tree}
    (h : ∀ field ∈ fields, (g field).1 = field.1 ∧ R field.1 field.2 (g field).2) :
    Related R fields (fields.map g) :=
  List.forall₂_map_right_iff.mpr (List.forall₂_same.mpr h)

theorem related_modify (key : String) (f : Tree → Tree) (fields : List (String × Tree)) :
    Related (fun k v v' => ((Tree.map fields).indexable → v.indexable) ∧ v' = if k = key then f v else v)
      fields (fields.map fun (k, v) => if k = key then (k, f v) else (k, v)) := by
  refine related_map fun field hfield => ?_
  have hindex : (Tree.map fields).indexable → field.2.indexable := fun h =>
    Tree.indexable_map_iff.mp h field hfield
  by_cases hkey : field.1 = key
  · simpa [hkey] using hindex
  · simpa [hkey] using hindex

theorem related_modifyAll (f : Tree → Tree) (fields : List (String × Tree)) :
    Related (fun _ v v' => ((Tree.map fields).indexable → v.indexable) ∧ v' = f v) fields
      (fields.map fun (k, v) => (k, f v)) := by
  refine related_map fun field hfield => ⟨rfl, fun h => ?_, rfl⟩
  exact Tree.indexable_map_iff.mp h field hfield

theorem Related.mono {S : String → Tree → Tree → Prop} (h : Related R fields fields')
    (himp : ∀ key v v', R key v v' → S key v v') : Related S fields fields' :=
  h.imp fun _ _ hfield => ⟨hfield.1, himp _ _ _ hfield.2⟩

theorem Related.comp {S : String → Tree → Tree → Prop} {fields'' : List (String × Tree)}
    (h : Related R fields fields') (h' : Related S fields' fields'') :
    Related (fun key => Relation.Comp (R key) (S key)) fields fields'' := by
  induction h generalizing fields'' with
  | nil =>
      cases h'
      exact .nil
  | @cons before between rest rest' hfield _ ih =>
      rcases h' with _ | ⟨hfield', hrest'⟩
      refine .cons ⟨hfield'.1.trans hfield.1, between.2, hfield.2, ?_⟩ (ih hrest')
      rw [← hfield.1]
      exact hfield'.2

theorem Related.keys_eq (h : Related R fields fields') : Fields.keys fields' = Fields.keys fields := by
  induction h with
  | nil => rfl
  | cons hfield _ ih => rw [Fields.keys, List.map_cons, hfield.1, ← Fields.keys, ih]; rfl

theorem Related.exists_of_mem (h : Related R fields fields') {field : String × Tree}
    (hfield : field ∈ fields') : ∃ value, (field.1, value) ∈ fields ∧ R field.1 value field.2 := by
  induction h with
  | nil => cases hfield
  | @cons before after rest rest' hhead _ ih =>
      rcases List.mem_cons.mp hfield with rfl | hfield
      · exact ⟨before.2, by rw [hhead.1]; exact List.mem_cons_self, by rw [hhead.1]; exact hhead.2⟩
      · obtain ⟨value, hvalue, hR⟩ := ih hfield
        exact ⟨value, List.mem_cons_of_mem _ hvalue, hR⟩

theorem Related.rel_lookup (h : Related R fields fields') (key : String) :
    Option.Rel (R key) (fields.lookup key) (fields'.lookup key) := by
  induction h with
  | nil => exact .none
  | @cons before after rest rest' hhead _ ih =>
      obtain ⟨k, v⟩ := before
      obtain ⟨k', v'⟩ := after
      obtain ⟨rfl, hR⟩ := hhead
      by_cases hkey : key = k'
      · subst hkey
        simpa using Option.Rel.some hR
      · have hne : (key == k') = false := by simpa using hkey
        rw [List.lookup_cons, List.lookup_cons, hne]
        exact ih

theorem Related.exists_of_lookup (h : Related R fields fields') {key : String} {value' : Tree}
    (hvalue : fields'.lookup key = some value') :
    ∃ value, fields.lookup key = some value ∧ R key value value' := by
  have hrel := h.rel_lookup key
  rw [hvalue] at hrel
  generalize fields.lookup key = found at hrel ⊢
  cases hrel with
  | some hR => exact ⟨_, rfl, hR⟩

theorem Related.lookup_eq_map {f : Tree → Tree} {key : String} (h : Related R fields fields')
    (heq : ∀ v v', R key v v' → v' = f v) : fields'.lookup key = (fields.lookup key).map f := by
  have hrel := h.rel_lookup key
  generalize fields.lookup key = before, fields'.lookup key = after at hrel ⊢
  cases hrel with
  | some hR => exact congrArg some (heq _ _ hR)
  | none => rfl

theorem Related.lookup_eq {key : String} (h : Related R fields fields')
    (heq : ∀ v v', R key v v' → v' = v) : fields'.lookup key = fields.lookup key :=
  (h.lookup_eq_map heq).trans Option.map_id'

theorem Related.closed {declared declared' : List (String × (Tree → Prop))}
    (h : Related R fields fields') (hclosed : Closed declared fields)
    (himp : ∀ key P, (key, P) ∈ declared → ∀ value value', P value → R key value value' →
      ∃ Q, (key, Q) ∈ declared' ∧ Q value') : Closed declared' fields' := by
  intro field hfield
  obtain ⟨value, hvalue, hR⟩ := h.exists_of_mem hfield
  obtain ⟨P, hP, hvalue⟩ := hclosed _ hvalue
  exact himp _ P hP value field.2 hvalue hR

theorem Related.values {P Q : Tree → Prop} (h : Related R fields fields') (hvalues : Values P fields)
    (himp : ∀ key value value', P value → R key value value' → Q value') : Values Q fields' := by
  intro field hfield
  obtain ⟨value, hvalue, hR⟩ := h.exists_of_mem hfield
  exact himp _ value field.2 (hvalues _ hvalue) hR

theorem Related.optional {P Q : Tree → Prop} {key : String} (h : Related R fields fields')
    (hoptional : Optional key P fields)
    (himp : ∀ value value', P value → R key value value' → Q value') : Optional key Q fields' := by
  intro value' hvalue'
  obtain ⟨value, hvalue, hR⟩ := h.exists_of_lookup hvalue'
  exact himp value value' (hoptional value hvalue) hR

end

end ScraperTimeline.Shape
