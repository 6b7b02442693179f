import ScraperTimeline.Proofs.Tree.Update

/-!
Trees before and after a change, place by place. A node of another kind than a place expects stays as it is.
-/
namespace ScraperTimeline

/-! ### Fields that are added -/

namespace Fields
variable {α : Type}

-- The fields as they stand, and after them those whose keys are missing.
def withMissing (added fields : List (String × α)) : List (String × α) :=
  fields ++ added.filter fun field => field.1 ∉ keys fields

theorem withMissing_nil (fields : List (String × α)) : withMissing [] fields = fields := List.append_nil fields

theorem withMissing_cons {key : String} {added : List (String × α)} (hkey : key ∉ keys added) (value : α)
    (fields : List (String × α)) :
    withMissing ((key, value) :: added) fields = withMissing added (Fields.default key value fields) := by
  by_cases hfields : key ∈ keys fields
  · rw [default_of_mem hfields]
    simp [withMissing, hfields]
  · have hrest : (added.filter fun field => field.1 ∉ keys (fields ++ [(key, value)])) =
        added.filter fun field => field.1 ∉ keys fields := by
      refine List.filter_congr fun field hfield => ?_
      have hne : field.1 ≠ key := fun heq => hkey (heq ▸ mem_keys hfield)
      rw [decide_eq_decide]
      simp [keys, hne]
    rw [default_of_notMem hfields, withMissing, withMissing, hrest]
    simp [hfields]

theorem withMissing_singleton (key : String) (value : α) (fields : List (String × α)) :
    withMissing [(key, value)] fields = Fields.default key value fields := by
  rw [withMissing_cons List.not_mem_nil, withMissing_nil]

end Fields

namespace Shape

/-! ### Places -/

def OnMapping (R : List (String × Tree) → List (String × Tree) → Prop) : Tree → Tree → Prop
  | .map fields, t' => ∃ fields', t' = .map fields' ∧ R fields fields'
  | t, t' => t' = t

def OnSequence (R : List Tree → List Tree → Prop) : Tree → Tree → Prop
  | .seq items, t' => ∃ items', t' = .seq items' ∧ R items items'
  | t, t' => t' = t

-- As many items, each one as its position has it.
def Itemwise (R : Nat → Tree → Tree → Prop) (items items' : List Tree) : Prop :=
  ∀ n : Nat, Option.Rel (R n) items[n]? items'[n]?

-- The values of one key may change, and those of the others do not.
def Only (key : String) (R : Tree → Tree → Prop) (k : String) (v v' : Tree) : Prop :=
  if k = key then R v v' else v' = v

-- Fields in their places, and those after them that were missing.
def Extended (R : String → Tree → Tree → Prop) (added fields fields' : List (String × Tree)) : Prop :=
  ∃ kept, Related R fields kept ∧ fields' = Fields.withMissing added kept

section
variable {R S : List (String × Tree) → List (String × Tree) → Prop} {t t' t'' : Tree}

theorem OnMapping.mono (h : OnMapping R t t') (himp : ∀ fields fields', R fields fields' → S fields fields') :
    OnMapping S t t' := by
  cases t with
  | map fields =>
      obtain ⟨fields', rfl, hR⟩ := h
      exact ⟨fields', rfl, himp fields fields' hR⟩
  | _ => exact h

theorem OnMapping.comp (h : OnMapping R t t') (h' : OnMapping S t' t'') :
    OnMapping (Relation.Comp R S) t t'' := by
  cases t with
  | map fields =>
      obtain ⟨fields', rfl, hR⟩ := h
      obtain ⟨fields'', rfl, hS⟩ := h'
      exact ⟨fields'', rfl, fields', hR, hS⟩
  | _ =>
      obtain rfl := h
      exact h'

end

/-! ### Changes -/

section
variable {R : Tree → Tree → Prop} {T : String → Tree → Tree → Prop} {f : Tree → Tree}

theorem only_self (h : ∀ v, R v v) (key k : String) (v : Tree) : Only key R k v v := by
  rw [Only]
  split
  · exact h v
  · rfl

-- What comes of a field where the values of one key change.
theorem only_ite (hf : ∀ v, R v (f v)) (key : String) (field : String × Tree) :
    (if field.1 = key then (field.1, f field.2) else field).1 = field.1 ∧
      Only key R field.1 field.2 (if field.1 = key then (field.1, f field.2) else field).2 := by
  rw [Only]
  split
  · exact ⟨rfl, hf field.2⟩
  · exact ⟨rfl, rfl⟩

theorem onMapping_modifyFields {P : List (String × Tree) → List (String × Tree) → Prop}
    {f : List (String × Tree) → List (String × Tree)} (hf : ∀ fields, P fields (f fields)) (t : Tree) :
    OnMapping P t (t.modifyFields f) := by
  cases t with
  | map fields => exact ⟨_, rfl, hf fields⟩
  | _ => rfl

theorem onSequence_modifyItems {P : Nat → Tree → Tree → Prop} {f : Nat → Tree → Tree} (hf : ∀ n v, P n v (f n v))
    (t : Tree) : OnSequence (Itemwise P) t (t.modifyItems f) := by
  cases t with
  | seq items =>
      refine ⟨_, rfl, fun n => ?_⟩
      rw [List.getElem?_mapIdx]
      cases items[n]? with
      | none => exact .none
      | some v => exact .some (hf n v)
  | _ => rfl

theorem onMapping_modify (hf : ∀ v, R v (f v)) (key : String) (t : Tree) :
    OnMapping (Related (Only key R)) t (t.modify key f) := by
  cases t with
  | map fields => exact ⟨_, rfl, related_map fun field _ => only_ite hf key field⟩
  | _ => rfl

theorem onMapping_modifyAll (hf : ∀ v, R v (f v)) (t : Tree) :
    OnMapping (Related fun _ => R) t (t.modifyAll f) := by
  cases t with
  | map fields => exact ⟨_, rfl, related_map fun field _ => ⟨rfl, hf field.2⟩⟩
  | _ => rfl

-- A value that is added before a change takes part in it.
theorem extended_map_default {g : String × Tree → String × Tree} {key : String} {value value' : Tree}
    (hg : ∀ field, (g field).1 = field.1 ∧ T field.1 field.2 (g field).2) (hvalue : g (key, value) = (key, value'))
    (fields : List (String × Tree)) :
    Extended T [(key, value')] fields ((Fields.default key value fields).map g) := by
  have hrel : Related T fields (fields.map g) := related_map fun field _ => hg field
  refine ⟨_, hrel, ?_⟩
  rw [Fields.withMissing_singleton]
  by_cases hkey : key ∈ Fields.keys fields
  · rw [Fields.default_of_mem hkey, Fields.default_of_mem (hrel.keys_eq ▸ hkey)]
  · rw [Fields.default_of_notMem hkey, Fields.default_of_notMem (hrel.keys_eq ▸ hkey), List.map_append,
      List.map_singleton, hvalue]

theorem onMapping_modify_default (hf : ∀ v, R v (f v)) (key : String) (value t : Tree) :
    OnMapping (Extended (Only key R) [(key, f value)]) t
      ((t.modifyFields (Fields.default key value)).modify key f) := by
  cases t with
  | map fields => exact ⟨_, rfl, extended_map_default (only_ite hf key) (if_pos rfl) fields⟩
  | _ => rfl

theorem onMapping_modifyAll_default (hf : ∀ v, R v (f v)) (key : String) (value t : Tree) :
    OnMapping (Extended (fun _ => R) [(key, f value)]) t
      ((t.modifyFields (Fields.default key value)).modifyAll f) := by
  cases t with
  | map fields =>
      exact ⟨_, rfl, extended_map_default (g := fun field => (field.1, f field.2))
        (fun field => ⟨rfl, hf field.2⟩) rfl fields⟩
  | _ => rfl

theorem related_only_self (hself : ∀ v, R v v) (key : String) (fields : List (String × Tree)) :
    Related (Only key R) fields fields :=
  List.forall₂_same.mpr fun _ _ => ⟨rfl, only_self hself key _ _⟩

theorem related_put {key : String} {value : Tree} {fields : List (String × Tree)} (hself : ∀ v, R v v)
    (hvalue : ∀ v, R v value) (hkey : key ∈ Fields.keys fields) :
    Related (Only key R) fields (Fields.put key value fields) := by
  induction fields with
  | nil => cases hkey
  | cons field rest ih =>
      obtain ⟨k, v⟩ := field
      rw [Fields.put]
      split
      next heq =>
        refine .cons ⟨rfl, ?_⟩ (related_only_self hself key rest)
        rw [Only, if_pos heq]
        exact hvalue v
      next hne =>
        refine .cons ⟨rfl, only_self hself key k v⟩ (ih ?_)
        exact (List.mem_cons.mp hkey).resolve_left (Ne.symm hne)

theorem extended_put {key : String} {value : Tree} (hself : ∀ v, R v v) (hvalue : ∀ v, R v value)
    (fields : List (String × Tree)) :
    Extended (Only key R) [(key, value)] fields (Fields.put key value fields) := by
  by_cases hkey : key ∈ Fields.keys fields
  · have hrel := related_put hself hvalue hkey
    refine ⟨_, hrel, ?_⟩
    rw [Fields.withMissing_singleton, Fields.default_of_mem (hrel.keys_eq ▸ hkey)]
  · refine ⟨fields, related_only_self hself key fields, ?_⟩
    rw [Fields.withMissing_singleton, Fields.default_of_notMem hkey, Fields.put_of_notMem hkey]

end

end Shape
end ScraperTimeline
