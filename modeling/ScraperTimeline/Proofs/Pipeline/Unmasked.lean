import ScraperTimeline.Proofs.Pipeline.Contracts
import ScraperTimeline.Proofs.Schema.Locality
import ScraperTimeline.Proofs.Schema.Shape

/-!
No violation masks another. The packaged contracts report of an entry of a section what they report of it where it
stands alone, so that one report of a tree lists everything that is wrong with its entries.
-/
namespace ScraperTimeline

/-! ### Plain data -/

namespace Tree

theorem keyed_plain {t : Tree} (h : t.keyed) : t.plain.keyed := by
  induction t with
  | seq items ih =>
      rw [plain_seq, keyed_seq_iff, List.forall_mem_map]
      exact fun t ht => ih t ht (keyed_seq_iff.mp h t ht)
  | map fields ih =>
      obtain ⟨hkeys, hvalues⟩ := keyed_map_iff.mp h
      rw [plain_map, keyed_map_iff]
      constructor
      · rw [Fields.keys, ((sortByKey_perm _).map _).nodup_iff, List.map_map]
        exact hkeys
      · intro field hfield
        obtain ⟨original, horiginal, rfl⟩ := List.mem_map.mp (mem_sortByKey.mp hfield)
        exact ih original horiginal (hvalues original horiginal)
  | float x =>
      rw [plain_float]
      split <;> rfl
  | _ => rfl

theorem sight_plain {t body : Tree} {keys : List String} (h : t.sight keys = .found body) :
    t.plain.sight keys = .found body.plain := by
  induction keys generalizing t with
  | nil =>
      cases h
      rfl
  | cons key rest ih =>
      obtain ⟨value, hvalue, hrest⟩ := sight_cons_eq_found_iff.mp h
      cases t with
      | map fields =>
          rw [plain_map, sight_map, lookup_plain, show fields.lookup key = some value from hvalue]
          exact ih hrest
      | _ => cases hvalue

end Tree

/-! ### Reports -/

namespace Contract
open Schema

variable {c : Contract} {target : String} {keys : List String} {a b t body : Tree} {m n : Nat}

-- What a validation reports.
def report (c : Contract) (policy : Policy) (t : Tree) : List Violation :=
  match c.validate policy t with
  | .error (.schemaRejected _ violations) => violations
  | _ => []

-- The reports of two trees are the same inside a place: the same violations in the same order.
def SameInside (c : Contract) (place : String) (a b : Tree) : Prop :=
  restrict place (c.report .collectAll a) = restrict place (c.report .collectAll b)

theorem report_collectAll (c : Contract) (t : Tree) : c.report .collectAll t = c.violations t := by
  rw [report, validate]
  cases c.violations t <;> rfl

theorem local_follow (c : Contract) (n : Nat) : Local (c.follow n) := by
  induction n with
  | zero => exact fun target path t => .nil
  | succ n ih =>
      intro target path t
      rw [follow]
      split
      next s _ => exact inside_check ih s path t
      next => exact .nil

-- A reference that needs so many references in a row and no more.
def Settled (c : Contract) (n : Nat) (target : String) : Prop := ∀ m, n ≤ m → c.follow m target = c.follow n target

theorem Settled.mono (h : c.Settled n target) (hle : n ≤ m) : c.Settled m target :=
  fun k hk => (h k (hle.trans hk)).trans (h m hle).symm

theorem settled_of_lookup {s : Schema} (h : c.definitions.lookup target = some s)
    (hrefs : ∀ r ∈ s.refs, c.Settled n r) : c.Settled (n + 1) target := by
  intro m hm
  obtain ⟨m, rfl⟩ := Nat.exists_eq_add_of_le' (Nat.le_of_add_left_le hm)
  funext path t
  rw [follow, follow, h]
  exact check_congr (fun r hr => hrefs r hr m (Nat.le_of_succ_le_succ hm)) path t

-- What is reported of an entry depends on the entry only.
theorem restrict_violations (hreaches : Reaches c.schema keys (.ref target)) (hkeyed : t.keyed)
    (hbody : t.sight keys = .found body) : restrict (pointerTo keys) (c.violations t) =
      c.follow (c.followBound t.plain) target (pointerTo keys) body.plain := by
  have hrestrict := restrict_check (c.local_follow (c.followBound t.plain)) hreaches ""
    (Tree.keyed_plain hkeyed) (Tree.sight_plain hbody)
  rw [String.empty_append, check] at hrestrict
  exact hrestrict

theorem sameInside_of_sight (hreaches : Reaches c.schema keys (.ref target)) (hsettled : c.Settled n target)
    (hbound : ∀ t : Tree, n ≤ c.followBound t.plain) (ha : a.keyed) (hb : b.keyed)
    (hbody : a.sight keys = .found body) (hother : b.sight keys = .found body) :
    c.SameInside (pointerTo keys) a b := by
  rw [SameInside, report_collectAll, report_collectAll, restrict_violations hreaches ha hbody,
    restrict_violations hreaches hb hother, hsettled _ (hbound a), hsettled _ (hbound b)]

end Contract

namespace Schema.Packaged

variable {declared : List (String × Schema)} {others inner : Schema} {key : String}

theorem passes_mapping {rules : List Schema} (hrules : ∀ rule ∈ rules, Flat rule)
    (hinner : declared.lookup key = some inner ∨ declared.lookup key = none ∧ others.isNever = false ∧ others = inner) :
    Passes (mapping (.additional declared others :: rules)) key inner := by
  refine passes_additional (List.forall_mem_append.mpr ⟨hrules, ?_⟩) hinner
  exact List.forall_mem_singleton.mpr (flat_type _)

-- The value of every key of a section is judged by one schema.
theorem passes_values {rules : List Schema} (hrules : ∀ rule ∈ rules, Flat rule) (hinner : inner.isNever = false)
    (key : String) : Passes (mapping (.additional [] inner :: rules)) key inner :=
  passes_mapping hrules (.inr ⟨rfl, hinner, rfl⟩)

private theorem flat_required_dataDefs : ∀ rule ∈ [Schema.required ["dataDefs"]], Flat rule :=
  List.forall_mem_singleton.mpr (flat_required _)

theorem reaches_dataDef (name : String) : Reaches defs ["dataDefs", name] (.ref "#/definitions/dataDef") := by
  refine ⟨_, passes_mapping flat_required_dataDefs (.inl rfl), _, passes_values ?_ rfl name, rfl⟩
  refine List.forall_mem_singleton.mpr (flat_propertyNames (flat_all ?_))
  exact List.forall_mem_singleton.mpr (flat_pattern _ _)

theorem reaches_task (group name : String) :
    Reaches defs ["taskGroups", group, name] (.ref "#/definitions/task") :=
  ⟨_, passes_mapping flat_required_dataDefs (.inl rfl), _, passes_values (List.forall_mem_nil _) rfl group, _,
    passes_values (List.forall_mem_nil _) rfl name, rfl⟩

theorem reaches_stepGroup (name : String) : Reaches defs ["steps", name] (.ref "#/definitions/stepGroup") :=
  ⟨_, passes_mapping flat_required_dataDefs (.inl rfl), _, passes_values (List.forall_mem_nil _) rfl name, rfl⟩

section
variable (stage : Stage) (name : String)

-- Three references in a row are enough for each.
theorem settled_entries : (contract stage name).Settled 3 "#/definitions/dataDef" ∧
    (contract stage name).Settled 3 "#/definitions/task" ∧
    (contract stage name).Settled 3 "#/definitions/stepGroup" := by
  obtain ⟨hdataDef, hmember, hstepGroup, htask, -⟩ := refs_definitions stage
  have hmember : (contract stage name).Settled 1 "#/definitions/member" :=
    Contract.settled_of_lookup rfl (by rw [hmember]; exact List.forall_mem_nil _)
  have haxis : (contract stage name).Settled 2 "#/definitions/axis" :=
    Contract.settled_of_lookup rfl (List.forall_mem_singleton.mpr hmember)
  have hstep : (contract stage name).Settled 1 "#/definitions/step" :=
    Contract.settled_of_lookup rfl (List.forall_mem_nil _)
  have hstepGroup : (contract stage name).Settled 2 "#/definitions/stepGroup" :=
    Contract.settled_of_lookup rfl (by rw [hstepGroup]; exact List.forall_mem_singleton.mpr hstep)
  refine ⟨Contract.settled_of_lookup rfl ?_, Contract.settled_of_lookup rfl ?_, hstepGroup.mono (by decide)⟩
  · rw [hdataDef]
    simp [haxis]
  · rw [htask]
    exact List.forall_mem_singleton.mpr hstepGroup

variable {stage name} {keys : List String} {target : String} {t alone body : Tree}

theorem sameInside_of_sight (hreaches : Reaches defs keys (.ref target))
    (hsettled : (contract stage name).Settled 3 target) (hkeyed : t.keyed) (halone : alone.keyed)
    (hbody : t.sight keys = .found body) (hother : alone.sight keys = .found body) :
    (contract stage name).SameInside (pointerTo keys) t alone := by
  refine Contract.sameInside_of_sight hreaches hsettled (fun t => ?_) hkeyed halone hbody hother
  obtain ⟨n, hn⟩ := exists_followBound_eq stage name t
  rw [hn]
  exact Nat.le_add_left 3 n

theorem sameInside_dataDef {key : String} (hkeyed : t.keyed) (hbody : t.sight ["dataDefs", key] = .found body) :
    (contract stage name).SameInside ("/dataDefs" ++ segment key) t
      (.map [("dataDefs", .map [(key, body)])]) := by
  have hpointer : "/dataDefs" ++ segment key = pointerTo ["dataDefs", key] := by
    rw [pointerTo, pointerTo, pointerTo, String.append_empty]
    rfl
  rw [hpointer]
  refine sameInside_of_sight (reaches_dataDef key) (settled_entries stage name).1 hkeyed ?_ hbody ?_
  · simp [Tree.keyed_map_iff, Fields.keys, Tree.keyed_of_sight hkeyed hbody]
  · simp [Tree.sight]

theorem sameInside_task {group key : String} (hkeyed : t.keyed)
    (hbody : t.sight ["taskGroups", group, key] = .found body) :
    (contract stage name).SameInside ("/taskGroups" ++ (segment group ++ segment key)) t
      (.map [("dataDefs", .map []), ("taskGroups", .map [(group, .map [(key, body)])])]) := by
  have hpointer : "/taskGroups" ++ (segment group ++ segment key) = pointerTo ["taskGroups", group, key] := by
    rw [pointerTo, pointerTo, pointerTo, pointerTo, String.append_empty]
    rfl
  rw [hpointer]
  refine sameInside_of_sight (reaches_task group key) (settled_entries stage name).2.1 hkeyed ?_ hbody ?_
  · simp [Tree.keyed_map_iff, Fields.keys, Tree.keyed_of_sight hkeyed hbody]
  · simp [Tree.sight, List.lookup]

theorem sameInside_stepGroup {key : String} (hkeyed : t.keyed) (hbody : t.sight ["steps", key] = .found body) :
    (contract stage name).SameInside ("/steps" ++ segment key) t
      (.map [("dataDefs", .map []), ("steps", .map [(key, body)])]) := by
  have hpointer : "/steps" ++ segment key = pointerTo ["steps", key] := by
    rw [pointerTo, pointerTo, pointerTo, String.append_empty]
    rfl
  rw [hpointer]
  refine sameInside_of_sight (reaches_stepGroup key) (settled_entries stage name).2.2 hkeyed ?_ hbody ?_
  · simp [Tree.keyed_map_iff, Fields.keys, Tree.keyed_of_sight hkeyed hbody]
  · simp [Tree.sight, List.lookup]

end

end Schema.Packaged

namespace Pipeline
open Schema Schema.Packaged

-- The report of an entry is that of the tree which keeps only the entry: the same violations, in the same order
-- and with the same messages.
theorem entries_unmasked {t : Tree} (hkeyed : t.keyed) :
    ∃ defined effective : Contract,
      (∀ base fs, loadContracts (.below base) fs ["defined", "effective"] =
        .ok [("defined", defined), ("effective", effective)]) ∧
      ∀ c ∈ [defined, effective],
        (∀ name body, t.sight ["dataDefs", name] = .found body →
          c.SameInside ("/dataDefs" ++ segment name) t (.map [("dataDefs", .map [(name, body)])])) ∧
        (∀ group name body, t.sight ["taskGroups", group, name] = .found body →
          c.SameInside ("/taskGroups" ++ (segment group ++ segment name)) t
            (.map [("dataDefs", .map []), ("taskGroups", .map [(group, .map [(name, body)])])])) ∧
        ∀ name body, t.sight ["steps", name] = .found body →
          c.SameInside ("/steps" ++ segment name) t
            (.map [("dataDefs", .map []), ("steps", .map [(name, body)])]) := by
  refine ⟨_, _, loadContracts_packaged, fun c hc => ?_⟩
  obtain ⟨stage, name, rfl⟩ : ∃ stage name, c = contract stage name := by
    rcases List.mem_pair.mp hc with rfl | rfl <;> exact ⟨_, _, rfl⟩
  exact ⟨fun _ _ => sameInside_dataDef hkeyed, fun _ _ _ => sameInside_task hkeyed,
    fun _ _ => sameInside_stepGroup hkeyed⟩

-- Two definitions of which one has a name that begins like the other's, and a section that does not belong here.
def messyDefs : Tree :=
  .map [("dataDefs", .map [("price", .map []), ("price/year", .null)]), ("sections", .null)]

theorem entries_unmasked_messy :
    messyDefs.keyed ∧ messyDefs.sight ["dataDefs", "price"] = .found (.map []) ∧
      messyDefs.sight ["dataDefs", "price/year"] = .found .null ∧
      ∃ defined effective : Contract,
        (∀ base fs, loadContracts (.below base) fs ["defined", "effective"] =
          .ok [("defined", defined), ("effective", effective)]) ∧
        restrict "/dataDefs/price" (defined.report .collectAll messyDefs) =
          [⟨"/dataDefs/price", "\"axis\" is a required property"⟩] ∧
        restrict "/dataDefs/price~1year" (effective.report .collectAll messyDefs) =
          [⟨"/dataDefs/price~1year", "null is not of type \"object\""⟩] := by
  have hkeyed : messyDefs.keyed := by decide
  obtain ⟨defined, effective, hload, hentries⟩ := entries_unmasked hkeyed
  obtain ⟨rfl, rfl⟩ := eq_of_loadContracts (hload none .empty)
  have hprice := (hentries _ List.mem_cons_self).1 "price" _ rfl
  have hyear := (hentries _ (List.mem_cons_of_mem _ List.mem_cons_self)).1 "price/year" _ rfl
  refine ⟨hkeyed, rfl, rfl, _, _, hload, hprice.trans ?_, hyear.trans ?_⟩
  · decide +kernel
  · decide +kernel

end Pipeline
end ScraperTimeline
