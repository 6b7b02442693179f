import ScraperTimeline.Proofs.Tree.Merged

/-!
Three documents that are merged. It does not matter which two are merged first, unless the middle one has
something else where the outer two have mappings: it then parts them if it comes first, and gives way to the last
one if that comes first.
-/
namespace ScraperTimeline.Tree

-- At the end of a path through mappings of all three, the outer two have mappings and the middle one has not.
def Parted (a b c : Tree) (path : List String) (as cs : List (String × Tree)) : Prop :=
  a.sight path = .found (.map as) ∧ (∃ t, b.sight path = .found t ∧ t.isMap = false) ∧
    c.sight path = .found (.map cs)

section
variable {a b c t u : Tree} {as bs cs : List (String × Tree)} {key : String} {rest : List String}

theorem sight_cons_eq_found_iff :
    t.sight (key :: rest) = .found u ↔ ∃ v, t.field? key = some v ∧ v.sight rest = .found u := by
  cases t with
  | map fields =>
      rw [sight_map, field?]
      cases fields.lookup key <;> simp
  | _ => simp [sight, field?]

theorem parted_nil_iff : Parted a b c [] as cs ↔ a = .map as ∧ b.isMap = false ∧ c = .map cs := by
  simp [Parted, sight]

theorem parted_cons_iff :
    Parted a b c (key :: rest) as cs ↔ ∃ x y z, a.field? key = some x ∧ b.field? key = some y ∧
      c.field? key = some z ∧ Parted x y z rest as cs := by
  simp only [Parted, sight_cons_eq_found_iff]
  constructor
  · rintro ⟨⟨x, hx, ha⟩, ⟨t, ⟨y, hy, hb⟩, ht⟩, z, hz, hc⟩
    exact ⟨x, y, z, hx, hy, hz, ha, ⟨t, hb, ht⟩, hc⟩
  · rintro ⟨x, y, z, hx, hy, hz, ha, ⟨t, hb, ht⟩, hc⟩
    exact ⟨⟨x, hx, ha⟩, ⟨t, ⟨y, hy, hb⟩, ht⟩, z, hz, hc⟩

theorem eq_map_of_fields? (h : t.fields? = some as) : t = .map as := by
  cases t with
  | map fields =>
      cases h
      rfl
  | _ => cases h

theorem field?_of_not_map (h : t.fields? = none) (key : String) : t.field? key = none := by
  cases t with
  | map fields => cases h
  | _ => rfl

theorem fields?_ne_none_of_sight {path : List String} (h : t.sight path = .found (.map as)) : t.fields? ≠ none := by
  intro hnone
  cases path with
  | nil =>
      cases h
      cases hnone
  | cons key rest =>
      obtain ⟨v, hv, -⟩ := sight_cons_eq_found_iff.mp h
      rw [field?_of_not_map hnone] at hv
      cases hv

/-! ### Fields -/

theorem lookup_mergeFields_eq_merge (hkeys : (Fields.keys cs).Nodup) :
    (mergeFields as cs).lookup key = Option.merge merge (as.lookup key) (cs.lookup key) := by
  rw [lookup_mergeFields hkeys]
  cases cs.lookup key <;> cases as.lookup key <;> rfl

-- Keys come in the order in which the three first have them.
theorem keys_mergeFields_assoc (as : List (String × Tree)) (hbs : (Fields.keys bs).Nodup)
    (hcs : (Fields.keys cs).Nodup) :
    Fields.keys (mergeFields (mergeFields as bs) cs) = Fields.keys (mergeFields as (mergeFields bs cs)) := by
  have hlast : (Fields.keys cs).removeAll (Fields.keys as ++ (Fields.keys bs).removeAll (Fields.keys as)) =
      ((Fields.keys cs).removeAll (Fields.keys bs)).removeAll (Fields.keys as) := by
    rw [List.removeAll, List.removeAll, List.removeAll, List.removeAll, List.filter_filter]
    refine List.filter_congr fun key _ => ?_
    grind
  have hboth : (Fields.keys bs ++ (Fields.keys cs).removeAll (Fields.keys bs)).removeAll (Fields.keys as) =
      (Fields.keys bs).removeAll (Fields.keys as) ++
        ((Fields.keys cs).removeAll (Fields.keys bs)).removeAll (Fields.keys as) := List.filter_append ..
  rw [keys_mergeFields_of_nodup hcs, keys_mergeFields_of_nodup hbs,
    keys_mergeFields_of_nodup (nodup_keys_mergeFields hbs cs), keys_mergeFields_of_nodup hcs, hlast, hboth,
    List.append_assoc]

theorem option_merge_assoc_iff {α : Type} {f : α → α → α} {x y z : Option α} :
    Option.merge f (Option.merge f x y) z = Option.merge f x (Option.merge f y z) ↔
      ∀ a b c, x = some a → y = some b → z = some c → f (f a b) c = f a (f b c) := by
  cases x <;> cases y <;> cases z <;> simp

theorem mergeFields_assoc_iff (has : (Fields.keys as).Nodup) (hbs : (Fields.keys bs).Nodup)
    (hcs : (Fields.keys cs).Nodup) :
    mergeFields (mergeFields as bs) cs = mergeFields as (mergeFields bs cs) ↔
      ∀ key x y z, as.lookup key = some x → bs.lookup key = some y → cs.lookup key = some z →
        merge (merge x y) z = merge x (merge y z) := by
  have hvalue (key : String) :
      (mergeFields (mergeFields as bs) cs).lookup key = (mergeFields as (mergeFields bs cs)).lookup key ↔
        ∀ x y z, as.lookup key = some x → bs.lookup key = some y → cs.lookup key = some z →
          merge (merge x y) z = merge x (merge y z) := by
    rw [lookup_mergeFields_eq_merge hcs, lookup_mergeFields_eq_merge hbs,
      lookup_mergeFields_eq_merge (nodup_keys_mergeFields hbs cs), lookup_mergeFields_eq_merge hcs,
      option_merge_assoc_iff]
  constructor
  · intro h key
    exact (hvalue key).mp (by rw [h])
  · intro h
    exact Fields.eq_of_lookup (keys_mergeFields_assoc as hbs hcs)
      (nodup_keys_mergeFields (nodup_keys_mergeFields has bs) cs) fun key => (hvalue key).mpr (h key)

/-! ### Documents -/

-- If the middle document is not a mapping, only the end of the path can be here.
theorem assoc_iff_of_not_map (hb : b.fields? = none) :
    merge (merge a b) (.map cs) = merge a (merge b (.map cs)) ↔
      ∀ path as cs', Parted a b (.map cs) path as cs' → merge (.map as) (.map cs') = .map cs' := by
  rw [merge_of_not_map hb, merge_map_of_not_map hb]
  constructor
  · intro h path as cs' hparted
    cases path with
    | nil =>
        obtain ⟨rfl, -, hcs⟩ := parted_nil_iff.mp hparted
        cases hcs
        exact h.symm
    | cons key rest =>
        obtain ⟨x, y, z, -, hy, -⟩ := parted_cons_iff.mp hparted
        rw [field?_of_not_map hb] at hy
        cases hy
  · intro h
    cases has : a.fields? with
    | none => exact (merge_map_of_not_map has cs).symm
    | some as =>
        obtain rfl := eq_map_of_fields? has
        exact (h [] as cs (parted_nil_iff.mpr ⟨rfl, by simp [isMap, hb], rfl⟩)).symm

-- If all three are mappings, the path goes on into values of one key.
theorem assoc_iff_of_maps (has : (Fields.keys as).Nodup) (hbs : (Fields.keys bs).Nodup)
    (hcs : (Fields.keys cs).Nodup)
    (hvalue : ∀ key x y z, as.lookup key = some x → bs.lookup key = some y → cs.lookup key = some z →
      (merge (merge x y) z = merge x (merge y z) ↔
        ∀ path as' cs', Parted x y z path as' cs' → merge (.map as') (.map cs') = .map cs')) :
    merge (merge (.map as) (.map bs)) (.map cs) = merge (.map as) (merge (.map bs) (.map cs)) ↔
      ∀ path as' cs', Parted (.map as) (.map bs) (.map cs) path as' cs' →
        merge (.map as') (.map cs') = .map cs' := by
  rw [merge, merge, merge, merge, Tree.map.injEq, mergeFields_assoc_iff has hbs hcs]
  constructor
  · intro h path as' cs' hparted
    cases path with
    | nil => cases (parted_nil_iff.mp hparted).2.1
    | cons key rest =>
        obtain ⟨x, y, z, hx, hy, hz, hparted⟩ := parted_cons_iff.mp hparted
        exact (hvalue key x y z hx hy hz).mp (h key x y z hx hy hz) rest as' cs' hparted
  · intro h key x y z hx hy hz
    refine (hvalue key x y z hx hy hz).mpr fun path as' cs' hparted => h (key :: path) as' cs' ?_
    exact parted_cons_iff.mpr ⟨x, y, z, hx, hy, hz, hparted⟩

end

-- Merging is associative just if, at each path where the middle document parts mappings of the outer two, the
-- last mapping leaves nothing of the first one.
theorem merge_assoc_iff {a b c : Tree} (ha : a.keyed) (hb : b.keyed) (hc : c.keyed) :
    merge (merge a b) c = merge a (merge b c) ↔
      ∀ path as cs, Parted a b c path as cs → merge (.map as) (.map cs) = .map cs := by
  induction c generalizing a b with
  | map cs ih =>
      cases hbs : b.fields? with
      | none => exact assoc_iff_of_not_map hbs
      | some bs =>
          obtain rfl := eq_map_of_fields? hbs
          cases has : a.fields? with
          | none =>
              rw [merge_map_of_not_map has, merge, merge_map_of_not_map has]
              exact iff_of_true rfl fun path as cs' hparted => (fields?_ne_none_of_sight hparted.1 has).elim
          | some as =>
              obtain rfl := eq_map_of_fields? has
              obtain ⟨hakeys, havalues⟩ := keyed_map_iff.mp ha
              obtain ⟨hbkeys, hbvalues⟩ := keyed_map_iff.mp hb
              obtain ⟨hckeys, hcvalues⟩ := keyed_map_iff.mp hc
              refine assoc_iff_of_maps hakeys hbkeys hckeys fun key x y z hx hy hz => ?_
              exact ih (key, z) (Fields.mem_of_lookup hz) (havalues _ (Fields.mem_of_lookup hx))
                (hbvalues _ (Fields.mem_of_lookup hy)) (hcvalues _ (Fields.mem_of_lookup hz))
  | _ =>
      rw [merge_of_not_map rfl, merge_of_not_map rfl, merge_of_not_map rfl]
      exact iff_of_true rfl fun path as cs hparted => (fields?_ne_none_of_sight hparted.2.2 rfl).elim

-- A text parts two mappings of one key. What comes of it does not matter where the last mapping has all keys of the
-- first one, and in its order.
theorem merge_assoc_iff_parted :
    let first : Tree := .map [("row", .map [("open", .int 1)]), ("col", .map [("low", .int 1)])]
    let text : Tree := .map [("row", .string "none"), ("steps", .null)]
    let last : Tree := .map [("steps", .map []), ("row", .map [("open", .int 2), ("high", .int 3)])]
    let other : Tree := .map [("row", .map [("high", .int 3)])]
    first.keyed ∧ text.keyed ∧ last.keyed ∧ other.keyed ∧
      merge (.map [("open", .int 1)]) (.map [("open", .int 2), ("high", .int 3)]) =
        .map [("open", .int 2), ("high", .int 3)] ∧
      merge (merge first text) other ≠ merge first (merge text other) := by
  intro first text last other
  have hfirst : first.keyed := by decide
  have htext : text.keyed := by decide
  have hlast : last.keyed := by decide
  have hother : other.keyed := by decide
  refine ⟨hfirst, htext, hlast, hother, ?_, fun h => ?_⟩
  · exact (merge_assoc_iff hfirst htext hlast).mp rfl ["row"] _ _ ⟨rfl, ⟨_, rfl, rfl⟩, rfl⟩
  · have hsame := (merge_assoc_iff hfirst htext hother).mp h ["row"] _ _ ⟨rfl, ⟨_, rfl, rfl⟩, rfl⟩
    exact absurd (congrArg (fun t => keysOf (some t)) hsame) (by decide)

end ScraperTimeline.Tree
