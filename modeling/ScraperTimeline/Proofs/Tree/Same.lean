import ScraperTimeline.Proofs.Tree.Equality
import ScraperTimeline.Proofs.Tree.Within
import ScraperTimeline.Tree.Merge

/-!
Trees that differ in the order of fields at most. What reads a mapping by its keys keeps them so.
-/
namespace ScraperTimeline

namespace Fields

variable {α : Type} {key other : String} {value : α} {fields : List (String × α)}

theorem lookup_isSome_iff : (fields.lookup key).isSome ↔ key ∈ keys fields := has_iff

theorem lookup_put :
    (put key value fields).lookup other = if other = key then some value else fields.lookup other := by
  split
  next h => rw [h, lookup_put_self]
  next h => exact lookup_put_of_ne h value fields

theorem lookup_default :
    (Fields.default key value fields).lookup other =
      if other = key then some ((fields.lookup key).getD value) else fields.lookup other := by
  by_cases hkey : key ∈ keys fields
  · obtain ⟨v, hv⟩ := Option.isSome_iff_exists.mp (lookup_isSome_iff.mpr hkey)
    rw [default_of_mem hkey, hv]
    split
    next h => rw [h, hv, Option.getD_some]
    next => rfl
  · have hnone := lookup_eq_none_iff.mpr hkey
    rw [default_of_notMem hkey, List.lookup_append, hnone, Option.getD_none]
    split
    next h => simp [h, hnone]
    next h =>
      have hne : (other == key) = false := by simpa using h
      simp [List.lookup_cons, hne]

theorem nodup_keys_default (key : String) (value : α) (h : (keys fields).Nodup) :
    (keys (Fields.default key value fields)).Nodup := by
  by_cases hkey : key ∈ keys fields
  · rwa [default_of_mem hkey]
  · rw [default_of_notMem hkey, ← put_of_notMem hkey]
    exact nodup_keys_put key value h

end Fields

namespace Tree
open Shape

def Same (a b : Tree) : Prop := a.keyed ∧ b.keyed ∧ a.equal b

-- The same keys in some order, each with the same value.
structure SameFields (as bs : List (String × Tree)) : Prop where
  left : (Fields.keys as).Nodup
  right : (Fields.keys bs).Nodup
  lookup : ∀ key, Option.Rel Same (as.lookup key) (bs.lookup key)

section
variable {a b c : Tree} {as bs as' bs' : List (String × Tree)} {key : String}

theorem same_refl (hkeyed : a.keyed) (hnan : a.nanFree) : Same a a :=
  ⟨hkeyed, hkeyed, equal_refl hkeyed hnan⟩

theorem Same.symm (h : Same a b) : Same b a := ⟨h.2.1, h.1, equal_symm h.1 h.2.1 h.2.2⟩

theorem SameFields.symm (h : SameFields as bs) : SameFields bs as where
  left := h.right
  right := h.left
  lookup := by
    intro key
    have hrel := h.lookup key
    generalize as.lookup key = x, bs.lookup key = y at hrel ⊢
    cases hrel with
    | some hsame => exact .some hsame.symm
    | none => exact .none

theorem forall₂_same_iff {as bs : List Tree} :
    List.Forall₂ Same as bs ↔
      (∀ a ∈ as, a.keyed) ∧ (∀ b ∈ bs, b.keyed) ∧ List.Forall₂ (fun a b => equal a b) as bs := by
  constructor
  · intro h
    induction h with
    | nil => simp
    | cons hhead _ ih =>
        rw [List.forall_mem_cons, List.forall_mem_cons]
        exact ⟨⟨hhead.1, ih.1⟩, ⟨hhead.2.1, ih.2.1⟩, .cons hhead.2.2 ih.2.2⟩
  · rintro ⟨has, hbs, h⟩
    induction h with
    | nil => exact .nil
    | cons hhead _ ih =>
        rw [List.forall_mem_cons] at has hbs
        exact .cons ⟨has.1, hbs.1, hhead⟩ (ih has.2 hbs.2)

theorem same_seq_iff {as : List Tree} :
    Same (.seq as) b ↔ ∃ bs, b = .seq bs ∧ List.Forall₂ Same as bs := by
  constructor
  · rintro ⟨ha, hb, hequal⟩
    obtain ⟨bs, rfl, hitems⟩ := equal_seq_iff.mp hequal
    exact ⟨bs, rfl, forall₂_same_iff.mpr ⟨keyed_seq_iff.mp ha, keyed_seq_iff.mp hb, hitems⟩⟩
  · rintro ⟨bs, rfl, h⟩
    obtain ⟨has, hbs, hitems⟩ := forall₂_same_iff.mp h
    exact ⟨keyed_seq_iff.mpr has, keyed_seq_iff.mpr hbs, equal_seq_iff.mpr ⟨bs, rfl, hitems⟩⟩

theorem SameFields.exists_of_lookup (h : SameFields as bs) (ha : as.lookup key = some a) :
    ∃ b, bs.lookup key = some b ∧ Same a b := by
  have hrel := h.lookup key
  rw [ha] at hrel
  generalize bs.lookup key = found at hrel ⊢
  cases hrel with
  | some hsame => exact ⟨_, rfl, hsame⟩

theorem SameFields.mem_keys_iff (h : SameFields as bs) : key ∈ Fields.keys as ↔ key ∈ Fields.keys bs := by
  rw [← Fields.lookup_isSome_iff, ← Fields.lookup_isSome_iff]
  have hrel := h.lookup key
  generalize as.lookup key = x, bs.lookup key = y at hrel ⊢
  cases hrel <;> simp

theorem SameFields.length_eq (h : SameFields as bs) : as.length = bs.length := by
  have hperm := (List.perm_ext_iff_of_nodup h.left h.right).mpr fun key => h.mem_keys_iff
  simpa [Fields.keys] using hperm.length_eq

theorem same_map_iff : Same (.map as) b ↔ ∃ bs, b = .map bs ∧ SameFields as bs := by
  constructor
  · rintro ⟨ha, hb, hequal⟩
    obtain ⟨bs, rfl, -, hsub⟩ := equal_map_iff.mp hequal
    obtain ⟨cs, hcs, -, hsup⟩ := equal_map_iff.mp (equal_symm ha hb hequal)
    obtain rfl : as = cs := by simpa using hcs
    obtain ⟨haskeys, hasvalues⟩ := keyed_map_iff.mp ha
    obtain ⟨hbskeys, hbsvalues⟩ := keyed_map_iff.mp hb
    refine ⟨bs, rfl, haskeys, hbskeys, fun key => ?_⟩
    cases hvalue : as.lookup key with
    | some value =>
        have hfield := Fields.mem_of_lookup hvalue
        obtain ⟨other, hother, hequal⟩ := hsub _ hfield
        rw [hother]
        exact .some ⟨hasvalues _ hfield, hbsvalues _ (Fields.mem_of_lookup hother), hequal⟩
    | none =>
        cases hother : bs.lookup key with
        | none => exact .none
        | some other =>
            obtain ⟨value, hvalue', -⟩ := hsup _ (Fields.mem_of_lookup hother)
            cases hvalue.symm.trans hvalue'
  · rintro ⟨bs, rfl, h⟩
    have hleft (field : String × Tree) (hfield : field ∈ as) :
        ∃ b, bs.lookup field.1 = some b ∧ Same field.2 b :=
      h.exists_of_lookup (Fields.lookup_of_mem h.left hfield)
    refine ⟨keyed_map_iff.mpr ⟨h.left, fun field hfield => ?_⟩,
      keyed_map_iff.mpr ⟨h.right, fun field hfield => ?_⟩,
      equal_map_iff.mpr ⟨bs, rfl, h.length_eq, fun field hfield => ?_⟩⟩
    · obtain ⟨b, -, hsame⟩ := hleft field hfield
      exact hsame.1
    · obtain ⟨a, ha⟩ := Fields.exists_of_mem_keys (h.mem_keys_iff.mpr (Fields.mem_keys hfield))
      obtain ⟨b, hb, hsame⟩ := hleft _ ha
      obtain rfl := Option.some.inj (hb.symm.trans (Fields.lookup_of_mem h.right hfield))
      exact hsame.2.1
    · obtain ⟨b, hb, hsame⟩ := hleft field hfield
      exact ⟨b, hb, hsame.2.2⟩

theorem Same.eq_or (h : Same a b) :
    a = b ∨ (∃ x y, a = .float x ∧ b = .float y) ∨ (∃ as bs, a = .seq as ∧ b = .seq bs) ∨
      ∃ as bs, a = .map as ∧ b = .map bs := by
  obtain ⟨-, -, h⟩ := h
  cases a with
  | null => exact .inl (equal_null_iff.mp h)
  | bool _ => exact .inl (equal_bool_iff.mp h)
  | int _ => exact .inl (equal_int_iff.mp h)
  | string _ => exact .inl (equal_string_iff.mp h)
  | float x =>
      obtain ⟨y, hb, -⟩ := equal_float_iff.mp h
      exact .inr (.inl ⟨x, y, rfl, hb⟩)
  | seq as =>
      obtain ⟨bs, hb, -⟩ := equal_seq_iff.mp h
      exact .inr (.inr (.inl ⟨as, bs, rfl, hb⟩))
  | map as =>
      obtain ⟨bs, hb, -⟩ := equal_map_iff.mp h
      exact .inr (.inr (.inr ⟨as, bs, rfl, hb⟩))

theorem Same.kind_eq (h : Same a b) : a.kind = b.kind := kind_eq_of_equal h.2.2

theorem Same.integer?_eq (h : Same a b) : a.integer? = b.integer? := by
  rcases h.eq_or with rfl | ⟨_, _, rfl, rfl⟩ | ⟨_, _, rfl, rfl⟩ | ⟨_, _, rfl, rfl⟩ <;> rfl

theorem Same.items?_isSome_eq (h : Same a b) : a.items?.isSome = b.items?.isSome := by
  rcases h.eq_or with rfl | ⟨_, _, rfl, rfl⟩ | ⟨_, _, rfl, rfl⟩ | ⟨_, _, rfl, rfl⟩ <;> rfl

theorem Same.fields?_eq_none_iff (h : Same a b) : a.fields? = none ↔ b.fields? = none := by
  rcases h.eq_or with rfl | ⟨_, _, rfl, rfl⟩ | ⟨_, _, rfl, rfl⟩ | ⟨_, _, rfl, rfl⟩ <;> simp [fields?]

-- Both are mappings, or none is.
theorem Same.mapping_or (h : Same a b) :
    (∃ as bs, a = .map as ∧ b = .map bs ∧ SameFields as bs) ∨ (a.fields? = none ∧ b.fields? = none) := by
  rw [← h.fields?_eq_none_iff]
  cases a with
  | map as =>
      obtain ⟨bs, rfl, hfields⟩ := same_map_iff.mp h
      exact .inl ⟨as, bs, rfl, rfl, hfields⟩
  | _ => exact .inr ⟨rfl, rfl⟩

theorem sameFields_nil : SameFields [] [] := ⟨List.nodup_nil, List.nodup_nil, fun _ => .none⟩

theorem Same.rel_field? (h : Same a b) (key : String) : Option.Rel Same (a.field? key) (b.field? key) := by
  rcases h.mapping_or with ⟨as, bs, rfl, rfl, hfields⟩ | ⟨ha, hb⟩
  · exact hfields.lookup key
  · have hnone (t : Tree) (ht : t.fields? = none) : t.field? key = none := by
      cases t with
      | map fields => cases ht
      | _ => rfl
    rw [hnone a ha, hnone b hb]
    exact .none

-- The fields of a section, none if it is missing or no mapping.
theorem Same.sameFields_section (h : Same a b) (key : String) :
    SameFields (((a.field? key).bind fields?).getD []) (((b.field? key).bind fields?).getD []) := by
  have hrel := h.rel_field? key
  generalize a.field? key = x, b.field? key = y at hrel ⊢
  cases hrel with
  | none => exact sameFields_nil
  | some hsame =>
      rcases hsame.mapping_or with ⟨as, bs, rfl, rfl, hfields⟩ | ⟨ha, hb⟩
      · exact hfields
      · rw [Option.bind_some, Option.bind_some, ha, hb]
        exact sameFields_nil

/-! ### Changes of fields -/

theorem SameFields.of_related {R S : String → Tree → Tree → Prop} (h : SameFields as bs)
    (has : Related R as as') (hbs : Related S bs bs')
    (hsame : ∀ key a b a' b', Same a b → R key a a' → S key b b' → Same a' b') : SameFields as' bs' where
  left := has.keys_eq ▸ h.left
  right := hbs.keys_eq ▸ h.right
  lookup := by
    intro key
    cases ha' : as'.lookup key with
    | some a' =>
        obtain ⟨a, ha, hR⟩ := has.exists_of_lookup ha'
        obtain ⟨b, hb, hab⟩ := h.exists_of_lookup ha
        have hkey : key ∈ Fields.keys bs' := hbs.keys_eq ▸ Fields.mem_keys (Fields.mem_of_lookup hb)
        obtain ⟨b', hb'⟩ := Option.isSome_iff_exists.mp (Fields.lookup_isSome_iff.mpr hkey)
        obtain ⟨other, hother, hS⟩ := hbs.exists_of_lookup hb'
        obtain rfl := Option.some.inj (hb.symm.trans hother)
        rw [hb']
        exact .some (hsame key a b a' b' hab hR hS)
    | none =>
        rw [Fields.lookup_eq_none_iff, has.keys_eq, h.mem_keys_iff, ← hbs.keys_eq,
          ← Fields.lookup_eq_none_iff] at ha'
        rw [ha']
        exact .none

theorem SameFields.map {f g : String × Tree → String × Tree} (h : SameFields as bs)
    (hf : ∀ field, (f field).1 = field.1) (hg : ∀ field, (g field).1 = field.1)
    (hsame : ∀ key a b, Same a b → Same (f (key, a)).2 (g (key, b)).2) :
    SameFields (as.map f) (bs.map g) := by
  refine h.of_related (R := fun key a a' => a' = (f (key, a)).2) (S := fun key b b' => b' = (g (key, b)).2)
    (related_map fun field _ => ⟨hf field, rfl⟩) (related_map fun field _ => ⟨hg field, rfl⟩) ?_
  rintro key a b _ _ hab rfl rfl
  exact hsame key a b hab

theorem SameFields.default (h : SameFields as bs) (hab : Same a b) :
    SameFields (Fields.default key a as) (Fields.default key b bs) where
  left := Fields.nodup_keys_default key a h.left
  right := Fields.nodup_keys_default key b h.right
  lookup := by
    intro other
    rw [Fields.lookup_default, Fields.lookup_default]
    split
    · have hrel := h.lookup key
      generalize as.lookup key = x, bs.lookup key = y at hrel ⊢
      cases hrel with
      | some hsame => exact .some hsame
      | none => exact .some hab
    · exact h.lookup other

theorem SameFields.put (h : SameFields as bs) (hab : Same a b) :
    SameFields (Fields.put key a as) (Fields.put key b bs) where
  left := Fields.nodup_keys_put key a h.left
  right := Fields.nodup_keys_put key b h.right
  lookup := by
    intro other
    rw [Fields.lookup_put, Fields.lookup_put]
    split
    · exact .some hab
    · exact h.lookup other

/-! ### Changes of trees -/

def Respects (f : Tree → Tree) : Prop := ∀ a b, Same a b → Same (f a) (f b)

def RespectsFields (f : List (String × Tree) → List (String × Tree)) : Prop :=
  ∀ as bs, SameFields as bs → SameFields (f as) (f bs)

theorem RespectsFields.modifyFields {f : List (String × Tree) → List (String × Tree)}
    (hf : RespectsFields f) : Respects (Tree.modifyFields f) := by
  intro a b h
  rcases h.mapping_or with ⟨as, bs, rfl, rfl, hfields⟩ | ⟨ha, hb⟩
  · exact same_map_iff.mpr ⟨_, rfl, hf as bs hfields⟩
  · have hkept (t : Tree) (ht : t.fields? = none) : t.modifyFields f = t := by
      cases t with
      | map fields => cases ht
      | _ => rfl
    rwa [hkept a ha, hkept b hb]

section
variable {f : Tree → Tree}

theorem Respects.field (key : String) (hf : Respects f) :
    RespectsFields (List.map fun (k, v) => if k = key then (k, f v) else (k, v)) := by
  have hkey (field : String × Tree) : (if field.1 = key then (field.1, f field.2) else field).1 = field.1 := by
    split <;> rfl
  refine fun as bs h => h.map hkey hkey fun k a b hab => ?_
  dsimp only
  split
  · exact hf a b hab
  · exact hab

theorem Respects.modify (key : String) (hf : Respects f) : Respects (Tree.modify key f) := by
  have heq : Tree.modify key f =
      Tree.modifyFields (List.map fun (k, v) => if k = key then (k, f v) else (k, v)) := by
    funext t
    cases t <;> rfl
  rw [heq]
  exact (hf.field key).modifyFields

theorem Respects.modifyAll (hf : Respects f) : Respects (Tree.modifyAll f) := by
  have hfields : RespectsFields (List.map fun (k, v) => (k, f v)) := fun as bs h =>
    h.map (fun _ => rfl) (fun _ => rfl) fun _ => hf
  have heq : Tree.modifyAll f = Tree.modifyFields (List.map fun (k, v) => (k, f v)) := by
    funext t
    cases t <;> rfl
  rw [heq]
  exact hfields.modifyFields

theorem respects_modifyItems {f : Nat → Tree → Tree} (hf : ∀ n, Respects (f n)) :
    Respects (Tree.modifyItems f) := by
  intro a b h
  cases a with
  | seq as =>
      obtain ⟨bs, rfl, hitems⟩ := same_seq_iff.mp h
      refine same_seq_iff.mpr ⟨_, rfl, ?_⟩
      clear h
      induction hitems generalizing f with
      | nil => exact .nil
      | cons hhead _ ih =>
          rw [List.mapIdx_cons, List.mapIdx_cons]
          exact .cons (hf 0 _ _ hhead) (ih fun n => hf (n + 1))
  | _ =>
      cases b with
      | seq bs => cases h.kind_eq
      | _ => exact h

end

/-! ### Merging -/

theorem lookup_mergeFields {fields changes : List (String × Tree)} (hkeys : (Fields.keys changes).Nodup) :
    (mergeFields fields changes).lookup key = match changes.lookup key with
      | none => fields.lookup key
      | some value => some (match fields.lookup key with
        | some previous => merge previous value
        | none => value) := by
  induction changes generalizing fields with
  | nil => simp [mergeFields]
  | cons change rest ih =>
      obtain ⟨k, value⟩ := change
      obtain ⟨hnew, hrest⟩ := List.nodup_cons.mp hkeys
      rw [mergeFields, ih hrest, Fields.lookup_put]
      by_cases hkey : key = k
      · subst hkey
        have hlater : rest.lookup key = none := Fields.lookup_eq_none_iff.mpr hnew
        cases fields.lookup key <;> simp [hlater]
      · have hne : (key == k) = false := by simpa using hkey
        simp only [if_neg hkey, List.lookup_cons, hne]

theorem nodup_keys_mergeFields {fields : List (String × Tree)} (h : (Fields.keys fields).Nodup)
    (changes : List (String × Tree)) : (Fields.keys (mergeFields fields changes)).Nodup := by
  induction changes generalizing fields with
  | nil => simpa [mergeFields] using h
  | cons change rest ih =>
      rw [mergeFields]
      exact ih (Fields.nodup_keys_put _ _ h)

theorem merge_of_not_map {base overlay : Tree} (h : overlay.fields? = none) :
    merge base overlay = overlay := by
  cases overlay with
  | map changes => cases h
  | _ => rw [merge]; simp

theorem merge_map_of_not_map {base : Tree} (h : base.fields? = none) (changes : List (String × Tree)) :
    merge base (.map changes) = .map changes := by
  cases base with
  | map fields => cases h
  | _ => rfl

theorem SameFields.mergeFields {fields fields' changes changes' : List (String × Tree)}
    (h : SameFields fields fields') (hchanges : SameFields changes changes')
    (hmerge : ∀ change ∈ changes, ∀ base base' value, Same base base' → Same change.2 value →
      Same (merge base change.2) (merge base' value)) :
    SameFields (Tree.mergeFields fields changes) (Tree.mergeFields fields' changes') where
  left := nodup_keys_mergeFields h.left changes
  right := nodup_keys_mergeFields h.right changes'
  lookup := by
    intro key
    rw [lookup_mergeFields hchanges.left, lookup_mergeFields hchanges.right]
    have hfields := h.lookup key
    have hvalues := hchanges.lookup key
    cases hvalue : changes.lookup key with
    | none =>
        rw [hvalue] at hvalues
        generalize changes'.lookup key = found at hvalues ⊢
        cases hvalues
        exact hfields
    | some value =>
        obtain ⟨value', hvalue', hsame⟩ := hchanges.exists_of_lookup hvalue
        rw [hvalue']
        refine .some ?_
        generalize fields.lookup key = x, fields'.lookup key = y at hfields ⊢
        cases hfields with
        | some hbase => exact hmerge _ (Fields.mem_of_lookup hvalue) _ _ _ hbase hsame
        | none => exact hsame

theorem Same.merge {base base' overlay overlay' : Tree} (hbase : Same base base')
    (hoverlay : Same overlay overlay') : Same (Tree.merge base overlay) (Tree.merge base' overlay') := by
  induction overlay generalizing base base' overlay' with
  | map changes ih =>
      obtain ⟨changes', rfl, hchanges⟩ := same_map_iff.mp hoverlay
      rcases hbase.mapping_or with ⟨fields, fields', rfl, rfl, hfields⟩ | ⟨hnone, hnone'⟩
      · rw [Tree.merge, Tree.merge]
        refine same_map_iff.mpr ⟨_, rfl, hfields.mergeFields hchanges ?_⟩
        exact fun change hchange _ _ _ hbase hvalue => ih change hchange hbase hvalue
      · rwa [merge_map_of_not_map hnone, merge_map_of_not_map hnone']
  | _ => rwa [merge_of_not_map rfl, merge_of_not_map (hoverlay.fields?_eq_none_iff.mp rfl)]

theorem rel_mergeAll? {ts us : List Tree} (h : List.Forall₂ Same ts us) :
    Option.Rel Same (mergeAll? ts) (mergeAll? us) := by
  cases h with
  | nil => exact .none
  | cons hfirst hrest => exact .some (List.rel_foldl (fun _ _ hbase _ _ => hbase.merge) hfirst hrest)

end
end Tree
end ScraperTimeline
