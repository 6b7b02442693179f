import ScraperTimeline.Proofs.Tree.Same
import Mathlib.Data.List.DropRight

/-!
What merged documents have at a path of keys. The last document that decides the path has its way; where it
has a mapping there, the mappings since the last document with something else are merged.
-/
namespace ScraperTimeline.Tree

-- What a walk along a path of keys comes to: a mapping without the next key, a node before the end that is
-- no mapping, or the node at the path.
inductive Sight where
  | missing
  | blocked
  | found (t : Tree)

def sight : List String → Tree → Sight
  | [], t => .found t
  | key :: rest, .map fields =>
    match fields.lookup key with
    | some t => sight rest t
    | none => .missing
  | _ :: _, _ => .blocked

namespace Sight

def node? : Sight → Option Tree
  | found t => some t
  | _ => none

-- Whether the document says what is at the path.
def decides : Sight → Bool
  | missing => false
  | _ => true

-- Whether the document leaves nothing of what was at the path before it.
def resets : Sight → Bool
  | missing => false
  | blocked => true
  | found t => !t.isMap

-- What is at the path when the document is merged onto others.
def onto (before : Option Tree) : Sight → Option Tree
  | missing => before
  | blocked => none
  | found t => some (before.elim t (merge · t))

end Sight

-- The keys of a mapping, and none of anything else.
def keysOf : Option Tree → List String
  | some (.map fields) => Fields.keys fields
  | _ => []

/-! ### Two documents -/

section
variable {base overlay : Tree} {fields : List (String × Tree)} {key : String} {rest : List String}

theorem sight_map : (Tree.map fields).sight (key :: rest) = (fields.lookup key).elim .missing (·.sight rest) := by
  rw [sight]
  cases fields.lookup key <;> rfl

theorem keyed_of_sight {t node : Tree} {path : List String} (hkeyed : t.keyed)
    (h : t.sight path = .found node) : node.keyed := by
  induction path generalizing t with
  | nil =>
      cases h
      exact hkeyed
  | cons key rest ih =>
      cases t with
      | map fields =>
          rw [sight_map] at h
          cases hvalue : fields.lookup key with
          | none =>
              rw [hvalue] at h
              cases h
          | some value =>
              rw [hvalue] at h
              exact ih ((keyed_map_iff.mp hkeyed).2 _ (Fields.mem_of_lookup hvalue)) h
      | _ => cases h

theorem Sight.onto_found {before : Option Tree} {t : Tree} (h : t.isMap = false) :
    Sight.onto before (.found t) = some t := by
  have hfields : t.fields? = none := by simpa [isMap] using h
  cases before with
  | none => rfl
  | some base => exact congrArg some (merge_of_not_map hfields)

theorem Sight.exists_onto_found {before : Option Tree} {t : Tree} (h : t.isMap) :
    ∃ fields, Sight.onto before (.found t) = some (.map fields) := by
  cases t with
  | map changes =>
      cases before with
      | none => exact ⟨changes, rfl⟩
      | some base =>
          cases base with
          | map fields => exact ⟨mergeFields fields changes, rfl⟩
          | _ => exact ⟨changes, rfl⟩
  | _ => cases h

theorem node?_sight_merge (hkeyed : overlay.keyed) (path : List String) :
    ((merge base overlay).sight path).node? = (overlay.sight path).onto (base.sight path).node? := by
  induction path generalizing base overlay with
  | nil => rfl
  | cons key rest ih =>
      have hnew (s : Sight) : s.node? = s.onto none := by cases s <;> rfl
      cases overlay with
      | map changes =>
          cases base with
          | map fields =>
              obtain ⟨hkeys, hvalues⟩ := keyed_map_iff.mp hkeyed
              rw [merge, sight_map, sight_map, sight_map, lookup_mergeFields hkeys]
              cases hvalue : changes.lookup key with
              | none => rfl
              | some value =>
                  cases fields.lookup key with
                  | some previous => exact ih (hvalues _ (Fields.mem_of_lookup hvalue))
                  | none => exact hnew (value.sight rest)
          | _ =>
              rw [merge_map_of_not_map rfl]
              exact hnew _
      | _ =>
          rw [merge_of_not_map rfl]
          rfl

-- Keys that are there keep their places, new ones follow.
theorem keys_mergeFields (fields changes : List (String × Tree)) :
    Fields.keys (mergeFields fields changes) =
      Fields.keys fields ++ ((Fields.keys changes).removeAll (Fields.keys fields)).eraseDups := by
  induction changes generalizing fields with
  | nil => simp [mergeFields, Fields.keys, List.removeAll]
  | cons change rest ih =>
      obtain ⟨key, value⟩ := change
      rw [mergeFields, ih, Fields.keys_put, show Fields.keys ((key, value) :: rest) = key :: Fields.keys rest from rfl]
      by_cases hkey : key ∈ Fields.keys fields
      · rw [if_pos hkey, List.removeAll, List.removeAll, List.filter_cons_of_neg (by simpa using hkey)]
      · have hboth : (Fields.keys rest).removeAll (Fields.keys fields ++ [key]) =
            ((Fields.keys rest).removeAll (Fields.keys fields)).filter (!· == key) := by
          rw [List.removeAll, List.removeAll, List.filter_filter]
          simp [Bool.and_comm, Bool.beq_eq_decide_eq]
        rw [if_neg hkey, hboth, List.append_assoc, List.removeAll, List.removeAll,
          List.filter_cons_of_pos (by simpa using hkey), List.eraseDups_cons, List.singleton_append]

theorem eraseDups_eq_self {keys : List String} (h : keys.Nodup) : keys.eraseDups = keys := by
  induction keys with
  | nil => rfl
  | cons key rest ih =>
      obtain ⟨hnew, hrest⟩ := List.nodup_cons.mp h
      have hkept : rest.filter (!· == key) = rest := by
        rw [List.filter_eq_self]
        rintro k hk
        simpa using ne_of_mem_of_not_mem hk hnew
      rw [List.eraseDups_cons, hkept, ih hrest]

theorem keys_mergeFields_of_nodup {changes : List (String × Tree)} (hkeys : (Fields.keys changes).Nodup)
    (fields : List (String × Tree)) :
    Fields.keys (mergeFields fields changes) =
      Fields.keys fields ++ (Fields.keys changes).removeAll (Fields.keys fields) := by
  have hnew : ((Fields.keys changes).removeAll (Fields.keys fields)).Nodup := hkeys.filter _
  rw [keys_mergeFields, eraseDups_eq_self hnew]

theorem keysOf_onto {before : Option Tree} {changes : List (String × Tree)}
    (hkeys : (Fields.keys changes).Nodup) :
    keysOf (Sight.onto before (.found (.map changes))) =
      keysOf before ++ ((Fields.keys changes).removeAll (keysOf before)).eraseDups := by
  have hnew : Fields.keys changes = ((Fields.keys changes).removeAll []).eraseDups := by
    simp [List.removeAll, eraseDups_eq_self hkeys]
  cases before with
  | none => exact hnew
  | some base =>
      cases base with
      | map fields =>
          change keysOf (some (merge _ _)) = _
          rw [merge]
          exact keys_mergeFields fields changes
      | _ => exact hnew

theorem keyed_mergeFields {changes : List (String × Tree)} (hfields : (Tree.map fields).keyed) (hchanges : (Tree.map changes).keyed)
    (hmerge : ∀ change ∈ changes, ∀ base : Tree, base.keyed → (merge base change.2).keyed) :
    (Tree.map (mergeFields fields changes)).keyed := by
  induction changes generalizing fields with
  | nil => exact hfields
  | cons change rest ih =>
      obtain ⟨key, value⟩ := change
      obtain ⟨hkeys, hvalues⟩ := keyed_map_iff.mp hfields
      obtain ⟨hnew, hrest⟩ := keyed_map_iff.mp hchanges
      obtain ⟨hvalue, hrest⟩ := List.forall_mem_cons.mp hrest
      obtain ⟨hmergevalue, hmerge⟩ := List.forall_mem_cons.mp hmerge
      rw [mergeFields]
      refine ih (keyed_map_iff.mpr ⟨Fields.nodup_keys_put key _ hkeys, fun field hfield => ?_⟩)
        (keyed_map_iff.mpr ⟨(List.nodup_cons.mp hnew).2, hrest⟩) hmerge
      rcases Fields.mem_put hfield with rfl | hfield
      · cases hprevious : fields.lookup key with
        | none => exact hvalue
        | some previous => exact hmergevalue previous (hvalues _ (Fields.mem_of_lookup hprevious))
      · exact hvalues field hfield

-- No mapping of a merged tree has a key twice.
theorem keyed_merge (hbase : base.keyed) (hoverlay : overlay.keyed) : (merge base overlay).keyed := by
  induction overlay using Tree.induct generalizing base with
  | map changes ih =>
      cases base with
      | map fields =>
          rw [merge]
          exact keyed_mergeFields hbase hoverlay fun change hchange base hbase =>
            ih change hchange hbase ((keyed_map_iff.mp hoverlay).2 change hchange)
      | _ => exact hoverlay
  | _ => exact hoverlay

end

/-! ### All documents -/

section
variable {docs : List Tree} {path : List String} {d : Tree}

theorem keyed_mergeAll? {t : Tree} (hdocs : ∀ t ∈ docs, t.keyed) (h : mergeAll? docs = some t) : t.keyed := by
  cases docs with
  | nil => cases h
  | cons first rest =>
      cases h
      obtain ⟨hfirst, hrest⟩ := List.forall_mem_cons.mp hdocs
      induction rest generalizing first with
      | nil => exact hfirst
      | cons next rest ih =>
          obtain ⟨hnext, hrest⟩ := List.forall_mem_cons.mp hrest
          have hmerged := keyed_merge hfirst hnext
          exact ih _ (List.forall_mem_cons.mpr ⟨hmerged, hrest⟩) hmerged hrest

-- What the merged documents have at a path.
def mergedAt (path : List String) (docs : List Tree) : Option Tree :=
  (mergeAll? docs).bind fun t => (t.sight path).node?

-- Where the keys of a mapping at the path come from: the documents since the last one that resets it.
def since (path : List String) (docs : List Tree) : List Tree :=
  docs.rtakeWhile fun t => !(t.sight path).resets

theorem mergeAll?_concat (docs : List Tree) (d : Tree) :
    mergeAll? (docs ++ [d]) = some ((mergeAll? docs).elim d (merge · d)) := by
  cases docs with
  | nil => rfl
  | cons first rest => simp [mergeAll?]

theorem mergedAt_concat (hkeyed : d.keyed) :
    mergedAt path (docs ++ [d]) = (d.sight path).onto (mergedAt path docs) := by
  rw [mergedAt, mergedAt, mergeAll?_concat]
  cases mergeAll? docs with
  | some base => exact node?_sight_merge hkeyed path
  | none =>
      change (d.sight path).node? = _
      cases d.sight path <;> rfl

theorem mergedAt_append_of_silent {after : List Tree} (hkeyed : ∀ t ∈ after, t.keyed)
    (hsilent : ∀ t ∈ after, ¬(t.sight path).decides) :
    mergedAt path (docs ++ after) = mergedAt path docs := by
  induction after using List.reverseRecOn with
  | nil => rw [List.append_nil]
  | append_singleton after d ih =>
      simp only [List.forall_mem_append, List.forall_mem_singleton] at hkeyed hsilent
      rw [← List.append_assoc, mergedAt_concat hkeyed.2, ← ih hkeyed.1 hsilent.1]
      cases hd : d.sight path with
      | missing => rfl
      | _ =>
          rw [hd] at hsilent
          exact absurd rfl hsilent.2

theorem keysOf_mergedAt (hkeyed : ∀ t ∈ docs, t.keyed) :
    keysOf (mergedAt path docs) =
      ((since path docs).flatMap fun t => keysOf (t.sight path).node?).eraseDups := by
  induction docs using List.reverseRecOn with
  | nil => rfl
  | append_singleton docs d ih =>
      simp only [List.forall_mem_append, List.forall_mem_singleton] at hkeyed
      have ih := ih hkeyed.1
      rw [mergedAt_concat hkeyed.2]
      cases hd : d.sight path with
      | missing =>
          rw [since, List.rtakeWhile_concat_pos _ _ _ (by simp [hd, Sight.resets]), ← since,
            List.flatMap_append, List.flatMap_singleton, hd]
          simpa [Sight.onto, Sight.node?, keysOf] using ih
      | blocked =>
          rw [since, List.rtakeWhile_concat_neg _ _ _ (by simp [hd, Sight.resets])]
          rfl
      | found t =>
          cases t with
          | map changes =>
              have hkeys := (keyed_map_iff.mp (keyed_of_sight hkeyed.2 hd)).1
              rw [since, List.rtakeWhile_concat_pos _ _ _ (by simp [hd, Sight.resets, isMap, fields?]), ← since,
                List.flatMap_append, List.flatMap_singleton, hd, keysOf_onto hkeys, ih, List.eraseDups_append]
              simp [List.removeAll, Sight.node?, keysOf]
          | _ =>
              rw [since, List.rtakeWhile_concat_neg _ _ _ (by simp [hd, Sight.resets, isMap, fields?]),
                Sight.onto_found rfl]
              rfl

-- What is at a path in the merged documents is up to the last one that decides the path. A mapping has its
-- keys in the order in which they first appear since the last document that resets the path.
theorem mergeAll?_decided (hne : docs ≠ []) (hkeyed : ∀ t ∈ docs, t.keyed) (path : List String) :
    ∃ merged, mergeAll? docs = some merged ∧
      ((∀ t ∈ docs, ¬(t.sight path).decides) → (merged.sight path).node? = none) ∧
      ∀ before d after, docs = before ++ d :: after → (d.sight path).decides →
        (∀ t ∈ after, ¬(t.sight path).decides) →
          (d.sight path = .blocked → (merged.sight path).node? = none) ∧
          ∀ t, d.sight path = .found t →
            (¬t.isMap → (merged.sight path).node? = some t) ∧
            (t.isMap → ∃ fields, (merged.sight path).node? = some (.map fields) ∧
              Fields.keys fields =
                ((since path docs).flatMap fun t => keysOf (t.sight path).node?).eraseDups) := by
  obtain ⟨merged, hmerged⟩ : ∃ merged, mergeAll? docs = some merged := by
    cases docs with
    | nil => exact absurd rfl hne
    | cons first rest => exact ⟨_, rfl⟩
  have hat : (merged.sight path).node? = mergedAt path docs := by rw [mergedAt, hmerged, Option.bind_some]
  refine ⟨merged, hmerged, ?_⟩
  rw [hat]
  refine ⟨fun hsilent => @mergedAt_append_of_silent [] path docs hkeyed hsilent, ?_⟩
  intro before d after hdocs _ hsilent
  have hlast : mergedAt path docs = (d.sight path).onto (mergedAt path before) := by
    rw [hdocs, List.forall_mem_append, List.forall_mem_cons] at hkeyed
    rw [hdocs, List.append_cons, mergedAt_append_of_silent hkeyed.2.2 hsilent, mergedAt_concat hkeyed.2.1]
  refine ⟨fun hd => ?_, fun t hd => ⟨fun ht => ?_, fun ht => ?_⟩⟩
  · rw [hlast, hd, Sight.onto]
  · rw [hlast, hd, Sight.onto_found (by simpa using ht)]
  · obtain ⟨fields, hfields⟩ : ∃ fields, (Sight.found t).onto (mergedAt path before) = some (.map fields) :=
      Sight.exists_onto_found ht
    have hnode : mergedAt path docs = some (.map fields) := by rw [hlast, hd, hfields]
    exact ⟨fields, hnode, by rw [← keysOf_mergedAt hkeyed, hnode, keysOf]⟩

-- A mapping that was replaced and comes back has forgotten its keys, and what was under them.
theorem mergeAll?_decided_replaced :
    let docs : List Tree := [
      .map [("row", .map [("open", .int 1), ("high", .int 2)])],
      .map [("row", .string "none")],
      .map [("col", .null), ("row", .map [("low", .int 3)])],
      .map [("col", .map [])],
      .map [("row", .map [("high", .int 4), ("low", .int 5)])]]
    ∃ merged fields, mergeAll? docs = some merged ∧
      (merged.sight ["row"]).node? = some (.map fields) ∧ Fields.keys fields = ["low", "high"] ∧
      (merged.sight ["row", "low"]).node? = some (.int 5) ∧
      (merged.sight ["row", "open"]).node? = none ∧ (merged.sight ["steps"]).node? = none := by
  intro docs
  have hdecided := mergeAll?_decided (show docs ≠ [] by simp [docs]) (by decide)
  obtain ⟨merged, hmerged, -, hrow⟩ := hdecided ["row"]
  obtain ⟨fields, hfields, hkeys⟩ := ((hrow (docs.take 4) docs[4] [] rfl rfl (by simp)).2 _ rfl).2 rfl
  simp only [hmerged, Option.some.injEq, exists_eq_left'] at hdecided
  have hlow := (hdecided ["row", "low"]).2
  have hopen := (hdecided ["row", "open"]).2
  have hsteps := (hdecided ["steps"]).1
  exact ⟨merged, fields, hmerged, hfields, hkeys.trans (by decide),
    ((hlow (docs.take 4) docs[4] [] rfl rfl (by simp)).2 _ rfl).1 (by decide),
    (hopen (docs.take 1) docs[1] (docs.drop 2) rfl rfl (by decide)).1 rfl, hsteps (by decide)⟩

end

end ScraperTimeline.Tree
