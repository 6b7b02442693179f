import ScraperTimeline.Normal.Steps
import ScraperTimeline.Proofs.Tree.Merged
import ScraperTimeline.Source.Basic

/-!
Default step groups. They are put among the groups of the definitions one by one. That is what a merge does, except
that it would merge a default group into a mapping of the same name.
-/
namespace ScraperTimeline

/-! ### Entries over fields -/

namespace Fields

variable {α : Type} {fields entries : List (String × α)}

-- Entries have come over fields: each has its value, nothing else has changed, and new keys follow in their order.
structure Overlaid (before entries after : List (String × α)) : Prop where
  given : ∀ key value, entries.lookup key = some value → after.lookup key = some value
  kept : ∀ key, entries.lookup key = none → after.lookup key = before.lookup key
  keys_eq : keys after = keys before ++ (keys entries).removeAll (keys before)

theorem lookup_putAll (hkeys : (keys entries).Nodup) (fields : List (String × α)) (key : String) :
    (putAll fields entries).lookup key = (entries.lookup key).or (fields.lookup key) := by
  induction entries generalizing fields with
  | nil => rfl
  | cons entry rest ih =>
      obtain ⟨k, v⟩ := entry
      obtain ⟨hnew, hrest⟩ := List.nodup_cons.mp hkeys
      rw [putAll, List.foldl_cons, ← putAll, ih hrest, lookup_put]
      by_cases hkey : key = k
      · subst hkey
        have hlater : rest.lookup key = none := lookup_eq_none_iff.mpr hnew
        simp [hlater]
      · have hne : (key == k) = false := by simpa using hkey
        rw [if_neg hkey, List.lookup_cons, hne]

theorem keys_putAll (hkeys : (keys entries).Nodup) (fields : List (String × α)) :
    keys (putAll fields entries) = keys fields ++ (keys entries).removeAll (keys fields) := by
  induction entries generalizing fields with
  | nil => exact (List.append_nil _).symm
  | cons entry rest ih =>
      obtain ⟨k, v⟩ := entry
      obtain ⟨hnew, hrest⟩ := List.nodup_cons.mp hkeys
      rw [putAll, List.foldl_cons, ← putAll, ih hrest, keys_put,
        show keys ((k, v) :: rest) = k :: keys rest from rfl, List.removeAll, List.removeAll]
      by_cases hkey : k ∈ keys fields
      · rw [if_pos hkey, List.filter_cons_of_neg (by simpa using hkey)]
      · have hlater : (keys rest).filter (fun key => !(keys fields ++ [k]).elem key) =
            (keys rest).filter fun key => !(keys fields).elem key := by
          refine List.filter_congr fun key hmem => ?_
          have hne : key ≠ k := ne_of_mem_of_not_mem hmem hnew
          simp [hne]
        rw [if_neg hkey, List.filter_cons_of_pos (by simpa using hkey), hlater, List.append_assoc]
        rfl

theorem overlaid_putAll (hkeys : (keys entries).Nodup) (fields : List (String × α)) :
    Overlaid fields entries (putAll fields entries) where
  given := by
    intro key value hvalue
    rw [lookup_putAll hkeys, hvalue, Option.some_or]
  kept := by
    intro key hnone
    rw [lookup_putAll hkeys, hnone, Option.none_or]
  keys_eq := keys_putAll hkeys fields

-- What is there already changes nothing.
theorem putAll_eq_self (h : ∀ entry ∈ entries, fields.lookup entry.1 = some entry.2) :
    putAll fields entries = fields := by
  induction entries with
  | nil => rfl
  | cons entry rest ih =>
      obtain ⟨hentry, hrest⟩ := List.forall_mem_cons.mp h
      rw [putAll, List.foldl_cons, put_eq_self hentry]
      exact ih hrest

end Fields

namespace Tree

variable {old new : Tree} {fields changes : List (String × Tree)}

theorem merge_of_not_both (h : ¬(old.isMap ∧ new.isMap)) : merge old new = new := by
  cases hnew : new.fields? with
  | none => exact merge_of_not_map hnew
  | some changes =>
      cases new with
      | map changes =>
          have hold : old.fields? = none := by simpa [isMap, hnew] using h
          exact merge_map_of_not_map hold changes
      | _ => cases hnew

-- Where no two mappings meet, merging fields is putting them in.
theorem mergeFields_eq_putAll (hfields : (Fields.keys fields).Nodup) (hchanges : (Fields.keys changes).Nodup)
    (h : ∀ key old new, fields.lookup key = some old → changes.lookup key = some new → ¬(old.isMap ∧ new.isMap)) :
    mergeFields fields changes = Fields.putAll fields changes := by
  refine Fields.eq_of_lookup ?_ (nodup_keys_mergeFields hfields changes) fun key => ?_
  · rw [keys_mergeFields_of_nodup hchanges, Fields.keys_putAll hchanges]
  · rw [lookup_mergeFields hchanges, Fields.lookup_putAll hchanges]
    cases hnew : changes.lookup key with
    | none => rfl
    | some new =>
        cases hold : fields.lookup key with
        | none => rfl
        | some old => exact congrArg some (merge_of_not_both (h key old new hold hnew))

end Tree

/-! ### Default groups -/

namespace Source
open ScraperTimeline.Normal ScraperTimeline.Tree

variable {defaults : Tree} {fields groups : List (String × Tree)}

theorem mergeDefaultSteps_map (hsteps : defaults.field? "steps" = some (.map groups))
    (fields : List (String × Tree)) :
    mergeDefaultSteps defaults (.map fields) =
      .map (Fields.put "steps" (.map (Fields.putAll (groupsOf (.map fields)) groups)) fields) := by
  have hgroups : putGroups groups ((fields.lookup "steps").getD (.map [])) =
      .map (Fields.putAll (groupsOf (.map fields)) groups) := by
    rw [groupsOf, field?]
    cases fields.lookup "steps" <;> rfl
  rw [mergeDefaultSteps, hsteps, ← hgroups]
  rfl

theorem merge_steps (hfields : (Tree.map fields).keyed) (hgroups : (Fields.keys groups).Nodup)
    (h : ∀ name old new, (groupsOf (.map fields)).lookup name = some old → groups.lookup name = some new →
      ¬(old.isMap ∧ new.isMap)) :
    merge (.map fields) (.map [("steps", .map groups)]) =
      .map (Fields.put "steps" (.map (Fields.putAll (groupsOf (.map fields)) groups)) fields) := by
  rw [merge, mergeFields, mergeFields]
  refine congrArg (fun steps => Tree.map (Fields.put "steps" steps fields)) ?_
  rw [groupsOf, field?] at h ⊢
  cases hold : fields.lookup "steps" with
  | none => exact congrArg Tree.map (Fields.ofList_eq_self hgroups).symm
  | some old =>
      rw [hold] at h
      cases old with
      | map previous =>
          have hkeyed := (keyed_map_iff.mp hfields).2 _ (Fields.mem_of_lookup hold)
          exact congrArg Tree.map (mergeFields_eq_putAll (keyed_map_iff.mp hkeyed).1 hgroups h)
      | _ => exact congrArg Tree.map (Fields.ofList_eq_self hgroups).symm

-- Default groups replace groups of their names, and leave all else as it is. That is done once, and it is the merge
-- with them unless two mappings meet.
theorem mergeDefaultSteps_overlays (hdefs : (Tree.map fields).keyed) (hdefaults : defaults.keyed)
    (hsteps : defaults.field? "steps" = some (.map groups)) :
    ∃ after steps, mergeDefaultSteps defaults (.map fields) = .map after ∧
      Fields.Overlaid fields [("steps", .map steps)] after ∧
      Fields.Overlaid (groupsOf (.map fields)) groups steps ∧
      mergeDefaultSteps defaults (.map after) = .map after ∧
      ((∀ name old new, (groupsOf (.map fields)).lookup name = some old → groups.lookup name = some new →
          ¬(old.isMap ∧ new.isMap)) →
        merge (.map fields) (.map [("steps", .map groups)]) = .map after) := by
  have hgroups : (Fields.keys groups).Nodup := by
    cases defaults with
    | map sections =>
        have hkeyed := (keyed_map_iff.mp hdefaults).2 _ (Fields.mem_of_lookup hsteps)
        exact (keyed_map_iff.mp hkeyed).1
    | _ => cases hsteps
  have hoverlaid := Fields.overlaid_putAll hgroups (groupsOf (.map fields))
  have hsame : Fields.putAll (Fields.putAll (groupsOf (.map fields)) groups) groups =
      Fields.putAll (groupsOf (.map fields)) groups :=
    Fields.putAll_eq_self fun group hgroup => hoverlaid.given _ _ (Fields.lookup_of_mem hgroups hgroup)
  refine ⟨_, _, mergeDefaultSteps_map hsteps fields, Fields.overlaid_putAll (by simp [Fields.keys]) fields,
    hoverlaid, ?_, merge_steps hdefs hgroups⟩
  rw [mergeDefaultSteps_map hsteps, groupsOf, field?, Fields.lookup_put_self]
  change Tree.map
    (Fields.put "steps" (.map (Fields.putAll (Fields.putAll (groupsOf (.map fields)) groups) groups)) _) = _
  rw [hsame, Fields.put_eq_self (Fields.lookup_put_self ..)]

-- A group that is a mapping is replaced as well, where a merge would go into it.
theorem mergeDefaultSteps_overlays_mapping :
    let defaults : Tree := .map [("steps", .map [("fetch", .seq [.string "get"]), ("parse", .map [("css", .null)])])]
    let steps : List (String × Tree) := [("parse", .map [("xpath", .null)]), ("mine", .seq []), ("fetch", .seq [])]
    ∃ after steps', mergeDefaultSteps defaults (.map [("steps", .map steps), ("dataDefs", .map [])]) = .map after ∧
      after.lookup "steps" = some (.map steps') ∧ after.lookup "dataDefs" = some (.map []) ∧
      Fields.keys steps' = ["parse", "mine", "fetch"] ∧ steps'.lookup "fetch" = some (.seq [.string "get"]) ∧
      steps'.lookup "parse" = some (.map [("css", .null)]) ∧ steps'.lookup "mine" = some (.seq []) := by
  intro defaults steps
  obtain ⟨after, steps', hafter, hsections, hgroups, -, -⟩ :=
    @mergeDefaultSteps_overlays defaults [("steps", .map steps), ("dataDefs", .map [])] _ (by decide) (by decide) rfl
  exact ⟨after, steps', hafter, hsections.given _ _ rfl, hsections.kept _ rfl, hgroups.keys_eq.trans (by decide),
    hgroups.given _ _ rfl, hgroups.given _ _ rfl, hgroups.kept _ rfl⟩

end Source
end ScraperTimeline
