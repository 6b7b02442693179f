import ScraperTimeline.Proofs.Tree.Shape

/-!
Shapes of the nodes at some places of a tree. A node of another kind than the place expects is not
restricted, and changes leave it as it is.
-/
namespace ScraperTimeline.Shape

def IfMapping (P : List (String × Tree) → Prop) : Tree → Prop
  | .map fields => P fields
  | _ => True

def IfSequence (P : Tree → Prop) : Tree → Prop
  | .seq items => ∀ t ∈ items, P t
  | _ => True

-- Each value of a key, of which a list of fields may have several.
def At (key : String) (P : Tree → Prop) (fields : List (String × Tree)) : Prop :=
  ∀ v, (key, v) ∈ fields → P v

section
variable {P Q : List (String × Tree) → Prop} {R S : Tree → Prop} {t : Tree}

theorem IfMapping.mono (h : IfMapping P t) (himp : ∀ fields, P fields → Q fields) : IfMapping Q t := by
  cases t with
  | map fields => exact himp fields h
  | _ => trivial

theorem ifMapping_of_forall (h : ∀ fields, P fields) : IfMapping P t := by
  cases t with
  | map fields => exact h fields
  | _ => trivial

theorem ifSequence_of_forall (h : ∀ t, R t) : IfSequence R t := by
  cases t with
  | seq items => exact fun t _ => h t
  | _ => trivial

theorem At.mono {key : String} {fields : List (String × Tree)} (h : At key R fields)
    (himp : ∀ v, R v → S v) : At key S fields := fun v hv => himp v (h v hv)

theorem at_of_lookup {key : String} {fields : List (String × Tree)} (hkeys : (Fields.keys fields).Nodup)
    (h : ∀ v, fields.lookup key = some v → R v) : At key R fields :=
  fun v hv => h v (Fields.lookup_of_mem hkeys hv)

theorem Related.at {T : String → Tree → Tree → Prop} {key : String} {fields fields' : List (String × Tree)}
    (h : Related T fields fields') (hat : At key R fields)
    (himp : ∀ v v', R v → T key v v' → S v') : At key S fields' := by
  intro v' hv'
  obtain ⟨v, hv, hT⟩ := h.exists_of_mem hv'
  exact himp v v' (hat v hv) hT

-- Trees that differ under one key at most.
def Elsewhere (key : String) (t t' : Tree) : Prop :=
  t' = t ∨ ∃ fields fields', t = .map fields ∧ t' = .map fields' ∧
    Related (fun k v v' => k ≠ key → v' = v) fields fields'

theorem elsewhere_modify (key : String) (f : Tree → Tree) (t : Tree) : Elsewhere key t (t.modify key f) := by
  cases t with
  | map fields =>
      refine .inr ⟨fields, _, rfl, rfl, related_map fun field _ => ?_⟩
      by_cases hkey : field.1 = key
      · simp [hkey]
      · simp [hkey]
  | _ => exact .inl rfl

theorem Elsewhere.at {key other : String} {t' : Tree} (h : Elsewhere key t t')
    (hat : IfMapping (At other R) t) (hne : other ≠ key) : IfMapping (At other R) t' := by
  rcases h with rfl | ⟨fields, fields', rfl, rfl, hrel⟩
  · exact hat
  · refine hrel.at hat fun v v' hv hv' => ?_
    rwa [hv' hne]

theorem Elsewhere.field? {key other : String} {t' : Tree} (h : Elsewhere key t t') (hne : other ≠ key) :
    t'.field? other = t.field? other := by
  rcases h with rfl | ⟨fields, fields', rfl, rfl, hrel⟩
  · rfl
  · exact hrel.lookup_eq fun v v' hv => hv hne

/-! ### Changes that keep a shape or give it -/

theorem IfMapping.modify {key other : String} {f : Tree → Tree} (h : IfMapping (At other R) t)
    (hf : ∀ v, R v → S (if other = key then f v else v)) : IfMapping (At other S) (t.modify key f) := by
  cases t with
  | map fields =>
      refine (related_modify key f fields).at h fun v v' hv hv' => ?_
      rw [hv'.2]
      exact hf v hv
  | _ => trivial

theorem IfMapping.modifyAll {f : Tree → Tree} (h : IfMapping (Values R) t) (hf : ∀ v, R v → S (f v)) :
    IfMapping (Values S) (t.modifyAll f) := by
  cases t with
  | map fields =>
      refine (related_modifyAll f fields).values h fun key v v' hv hv' => ?_
      rw [hv'.2]
      exact hf v hv
  | _ => trivial

theorem IfMapping.modifyFields {f : List (String × Tree) → List (String × Tree)} (h : IfMapping P t)
    (hf : ∀ fields, P fields → Q (f fields)) : IfMapping Q (t.modifyFields f) := by
  cases t with
  | map fields => exact hf fields h
  | _ => trivial

theorem IfSequence.modifyItems {f : Nat → Tree → Tree} (h : IfSequence R t)
    (hf : ∀ n v, R v → S (f n v)) : IfSequence S (t.modifyItems f) := by
  cases t with
  | seq items =>
      intro item hitem
      obtain ⟨n, hn, rfl⟩ := List.mem_mapIdx.mp hitem
      exact hf n _ (h _ (List.getElem_mem hn))
  | _ => trivial

/-! ### Changes of nothing -/

theorem map_eq_self {α : Type} {f : α → α} {as : List α} (h : ∀ a ∈ as, f a = a) : as.map f = as :=
  (List.map_congr_left h).trans (List.map_id as)

theorem modify_eq_self {key : String} {f : Tree → Tree} (h : IfMapping (At key R) t)
    (hf : ∀ v, R v → f v = v) : t.modify key f = t := by
  cases t with
  | map fields =>
      refine congrArg Tree.map (map_eq_self ?_)
      rintro ⟨k, v⟩ hfield
      by_cases hkey : k = key
      · subst hkey
        simp [hf v (h v hfield)]
      · simp [hkey]
  | _ => rfl

theorem modifyAll_eq_self {f : Tree → Tree} (h : IfMapping (Values R) t) (hf : ∀ v, R v → f v = v) :
    t.modifyAll f = t := by
  cases t with
  | map fields =>
      refine congrArg Tree.map (map_eq_self ?_)
      rintro ⟨k, v⟩ hfield
      simp [hf v (h _ hfield)]
  | _ => rfl

theorem modifyFields_eq_self {f : List (String × Tree) → List (String × Tree)} (h : IfMapping P t)
    (hf : ∀ fields, P fields → f fields = fields) : t.modifyFields f = t := by
  cases t with
  | map fields => exact congrArg Tree.map (hf fields h)
  | _ => rfl

theorem modifyItems_eq_self {f : Nat → Tree → Tree} (h : IfSequence R t) (hf : ∀ n v, R v → f n v = v) :
    t.modifyItems f = t := by
  cases t with
  | seq items =>
      refine congrArg Tree.seq (List.ext_getElem (by simp) fun n _ hn => ?_)
      rw [List.getElem_mapIdx]
      exact hf n _ (h _ (List.getElem_mem hn))
  | _ => rfl

end

end ScraperTimeline.Shape
