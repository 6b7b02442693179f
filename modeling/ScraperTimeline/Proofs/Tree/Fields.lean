import ScraperTimeline.Tree.Update
import Mathlib.Data.List.Nodup
import Mathlib.Data.List.Perm.Subperm

namespace ScraperTimeline.Fields

variable {α : Type} {key : String} {value : α} {fields : List (String × α)}

theorem mem_of_lookup (h : fields.lookup key = some value) : (key, value) ∈ fields := by
  obtain ⟨before, after, rfl, -⟩ := List.lookup_eq_some_iff.mp h
  simp

theorem mem_keys (h : (key, value) ∈ fields) : key ∈ keys fields :=
  List.mem_map.mpr ⟨(key, value), h, rfl⟩

theorem exists_of_mem_keys (h : key ∈ keys fields) : ∃ value, (key, value) ∈ fields := by
  obtain ⟨⟨k, value⟩, hfield, rfl⟩ := List.mem_map.mp h
  exact ⟨value, hfield⟩

theorem lookup_eq_none_iff : fields.lookup key = none ↔ key ∉ keys fields := by
  induction fields with
  | nil => simp [keys]
  | cons field rest ih =>
      obtain ⟨k, v⟩ := field
      by_cases h : key = k
      · simp [keys, h]
      · have hne : (key == k) = false := by simpa using h
        simp only [List.lookup_cons, hne, ih]
        simp [keys, h]

theorem lookup_of_mem (hkeys : (keys fields).Nodup) (h : (key, value) ∈ fields) :
    fields.lookup key = some value := by
  induction fields with
  | nil => cases h
  | cons field rest ih =>
      obtain ⟨hnew, hrest⟩ := List.nodup_cons.mp hkeys
      rcases List.mem_cons.mp h with rfl | h
      · simp
      · have hne : (key == field.1) = false := by
          rw [beq_eq_false_iff_ne]
          rintro rfl
          exact hnew (mem_keys h)
        rw [List.lookup_cons, hne]
        exact ih hrest h

theorem has_iff : has key fields ↔ key ∈ keys fields := by
  rw [has, ← not_iff_not, Bool.not_eq_true, Option.isSome_eq_false_iff, Option.isNone_iff_eq_none,
    lookup_eq_none_iff]

theorem default_of_mem (h : key ∈ keys fields) : Fields.default key value fields = fields := by
  rw [Fields.default, if_pos (has_iff.mpr h)]

theorem default_of_notMem (h : key ∉ keys fields) :
    Fields.default key value fields = fields ++ [(key, value)] := by
  rw [Fields.default, if_neg (mt has_iff.mp h)]

theorem keys_subset_default (key : String) (value : α) (fields : List (String × α)) :
    keys fields ⊆ keys (Fields.default key value fields) := by
  by_cases h : key ∈ keys fields
  · rw [default_of_mem h]
    exact List.Subset.refl _
  · simp [default_of_notMem h, keys]

theorem mem_keys_default (key : String) (value : α) (fields : List (String × α)) :
    key ∈ keys (Fields.default key value fields) := by
  by_cases h : key ∈ keys fields
  · rwa [default_of_mem h]
  · simp [default_of_notMem h, keys]

theorem put_eq_self (h : fields.lookup key = some value) : put key value fields = fields := by
  induction fields with
  | nil => cases h
  | cons field rest ih =>
      obtain ⟨k, v⟩ := field
      by_cases hkey : k = key
      · subst hkey
        obtain rfl : v = value := by simpa using h
        simp [put]
      · have hne : (key == k) = false := by simpa using Ne.symm hkey
        rw [List.lookup_cons, hne] at h
        rw [put, if_neg hkey, ih h]

theorem mem_keys_put {other : String} : other ∈ keys (put key value fields) ↔ other ∈ keys fields ∨ other = key := by
  rw [keys_put]
  split
  next hkey => exact ⟨.inl, fun h => h.elim id fun heq => heq ▸ hkey⟩
  next => simp

theorem keys_subset_put (key : String) (value : α) (fields : List (String × α)) :
    keys fields ⊆ keys (put key value fields) := fun _ h => mem_keys_put.mpr (.inl h)

theorem nodup_keys_put (key : String) (value : α) (h : (keys fields).Nodup) :
    (keys (put key value fields)).Nodup := by
  rw [keys_put]
  split
  next => exact h
  next hnot => exact List.nodup_append.mpr ⟨h, List.nodup_singleton key, by
    rintro k hk _ hkey rfl
    rw [List.mem_singleton.mp hkey] at hk
    exact hnot hk⟩

theorem put_append (h : key ∉ keys fields) (value : α) (rest : List (String × α)) :
    put key value (fields ++ rest) = fields ++ put key value rest := by
  induction fields with
  | nil => rfl
  | cons field fields ih =>
      obtain ⟨k, v⟩ := field
      simp only [keys, List.map_cons, List.mem_cons, not_or] at h
      rw [List.cons_append, put, if_neg (Ne.symm h.1), ih h.2, List.cons_append]

theorem put_of_notMem (h : key ∉ keys fields) : put key value fields = fields ++ [(key, value)] := by
  simpa [put] using put_append h value []

theorem put_default (key : String) (value other : α) (fields : List (String × α)) :
    put key value (Fields.default key other fields) = put key value fields := by
  by_cases hkey : key ∈ keys fields
  · rw [default_of_mem hkey]
  · rw [default_of_notMem hkey, put_of_notMem hkey, put_append hkey]
    simp [put]

theorem mem_put {field : String × α} (h : field ∈ put key value fields) :
    field = (key, value) ∨ field ∈ fields := by
  induction fields with
  | nil => exact .inl (List.mem_singleton.mp h)
  | cons first rest ih =>
      obtain ⟨k, v⟩ := first
      rw [put] at h
      split at h
      next hkey =>
        subst hkey
        rcases List.mem_cons.mp h with h | h
        · exact .inl h
        · exact .inr (List.mem_cons_of_mem _ h)
      next =>
        rcases List.mem_cons.mp h with rfl | h
        · exact .inr List.mem_cons_self
        · exact (ih h).imp_right (List.mem_cons_of_mem _)

-- Fields are the same if they have the same keys in one order and the same values.
theorem eq_of_lookup {others : List (String × α)} (hkeys : keys fields = keys others)
    (hnodup : (keys fields).Nodup) (h : ∀ key, fields.lookup key = others.lookup key) : fields = others := by
  induction fields generalizing others with
  | nil =>
      cases others with
      | nil => rfl
      | cons other others => cases hkeys
  | cons field rest ih =>
      cases others with
      | nil => cases hkeys
      | cons other others =>
          obtain ⟨k, v⟩ := field
          obtain ⟨k', v'⟩ := other
          obtain ⟨rfl, hrest⟩ : k = k' ∧ keys rest = keys others := List.cons.inj hkeys
          obtain ⟨hnew, hnodup⟩ := List.nodup_cons.mp hnodup
          obtain rfl : v = v' := by simpa using h k
          refine congrArg _ (ih hrest hnodup fun key => ?_)
          have hkey := h key
          by_cases heq : key = k
          · subst heq
            rw [lookup_eq_none_iff.mpr hnew, lookup_eq_none_iff.mpr (hrest ▸ hnew)]
          · have hne : (key == k) = false := by simpa using heq
            rwa [List.lookup_cons, List.lookup_cons, hne] at hkey

/-! ### Lists of entries -/

section
variable {entries : List (String × α)}

-- Entries that are put in one after another.
def putAll (before entries : List (String × α)) : List (String × α) :=
  entries.foldl (fun fields entry => put entry.1 entry.2 fields) before

theorem nodup_keys_putAll (h : (keys fields).Nodup) (entries : List (String × α)) :
    (keys (putAll fields entries)).Nodup := by
  induction entries generalizing fields with
  | nil => exact h
  | cons entry rest ih => exact ih (nodup_keys_put entry.1 entry.2 h)

theorem nodup_keys_ofList (entries : List (String × α)) : (keys (ofList entries)).Nodup :=
  @nodup_keys_putAll α [] List.nodup_nil entries

theorem mem_of_mem_ofList {field : String × α} (h : field ∈ ofList entries) : field ∈ entries := by
  have hput (before : List (String × α)) :
      field ∈ putAll before entries → field ∈ before ∨ field ∈ entries := by
    clear h
    induction entries generalizing before with
    | nil => exact .inl
    | cons entry rest ih =>
        intro h
        rcases ih _ h with h | h
        · rcases mem_put h with rfl | h
          · exact .inr List.mem_cons_self
          · exact .inl h
        · exact .inr (List.mem_cons_of_mem _ h)
  simpa using hput [] h

theorem ofList_eq_self (h : (keys entries).Nodup) : ofList entries = entries := by
  have hput (before : List (String × α)) :
      (keys (before ++ entries)).Nodup → putAll before entries = before ++ entries := by
    clear h
    induction entries generalizing before with
    | nil => simp [putAll]
    | cons entry rest ih =>
        intro h
        have hkey : entry.1 ∉ keys before := by
          simp only [keys, List.map_append, List.map_cons, List.nodup_append] at h
          intro hk
          exact h.2.2 _ hk _ List.mem_cons_self rfl
        rw [List.append_cons] at h ⊢
        rw [putAll, List.foldl_cons, put_of_notMem hkey]
        exact ih _ h
  exact hput [] h

end

-- As many distinct keys, all of them here, leave no key out.
theorem keys_subset_of_length_eq {β : Type} {others : List (String × β)} (hkeys : (keys fields).Nodup)
    (hlen : fields.length = others.length) (hsub : keys fields ⊆ keys others) :
    keys others ⊆ keys fields := by
  have hperm := (hkeys.subperm hsub).perm_of_length_le (by simp [keys, hlen])
  exact hperm.symm.subset

end ScraperTimeline.Fields
