import ScraperTimeline.Pipeline
import ScraperTimeline.Proofs.Normal.Reordered

/-!
The order of fields in the documents does not matter: not for what is merged, nor for whether it normalizes
and to what, nor for the versions that are compiled.
-/
namespace ScraperTimeline.Pipeline
open ScraperTimeline.Normal ScraperTimeline.Tree

-- The same names, and under each name what says the same.
def SameDefinitions (vs ws : List Version) : Prop :=
  (∀ name, name ∈ vs.map (·.name) ↔ name ∈ ws.map (·.name)) ∧
    ∀ v ∈ vs, ∀ w ∈ ws, v.name = w.name → v.sameDefinition w

section
variable {t u : Tree} {high run : Instant}

theorem agree_compile (h : Same t u) :
    Agree SameDefinitions (Timeline.compile high run t) (Timeline.compile high run u) := by
  have hfields : SameFields (Timeline.definitions t) (Timeline.definitions u) :=
    h.sameFields_section "dataDefs"
  rw [Timeline.compile, Timeline.compile]
  dsimp only
  split
  · refine ⟨fun name => ?_, fun v hv w hw hname => ?_⟩
    · rw [List.map_map, List.map_map]
      exact hfields.mem_keys_iff
    · obtain ⟨⟨name, a⟩, ha, rfl⟩ := List.mem_map.mp hv
      obtain ⟨⟨other, b⟩, hb, rfl⟩ := List.mem_map.mp hw
      obtain rfl : name = other := hname
      obtain ⟨b', hb', hsame⟩ := hfields.exists_of_lookup (Fields.lookup_of_mem hfields.left ha)
      obtain rfl := Option.some.inj (hb'.symm.trans (Fields.lookup_of_mem hfields.right hb))
      exact hsame.2.2
  · trivial

theorem field_order_irrelevant (defaultGroup : String) (high run : Instant) :
    (∀ ts us : List Tree, List.Forall₂ Same ts us →
      Option.Rel Same (mergeAll? ts) (mergeAll? us) ∧
      ∀ t u, mergeAll? ts = some t → mergeAll? us = some u →
        Agree Same (normalize defaultGroup t) (normalize defaultGroup u) ∧
        Agree SameDefinitions (do Timeline.compile high run (← normalize defaultGroup t))
          (do Timeline.compile high run (← normalize defaultGroup u))) ∧
    ∀ t u : Tree, Same t u →
      (∀ t' u', Same t' u' → Same (merge t t') (merge u u')) ∧
      (∀ pass : Pass, Agree Same (pass.run defaultGroup t) (pass.run defaultGroup u)) ∧
      Agree Same (normalize defaultGroup t) (normalize defaultGroup u) ∧
      Agree SameDefinitions (Timeline.compile high run t) (Timeline.compile high run u) := by
  constructor
  · intro ts us hsources
    refine ⟨rel_mergeAll? hsources, fun t u ht hu => ?_⟩
    have hmerged := rel_mergeAll? hsources
    rw [ht, hu] at hmerged
    cases hmerged with
    | some hsame =>
        have heffective := agree_normalize defaultGroup hsame
        exact ⟨heffective, heffective.bind fun _ _ _ => agree_compile⟩
  · intro t u h
    exact ⟨fun _ _ => h.merge, fun pass => agree_run defaultGroup pass h, agree_normalize defaultGroup h,
      agree_compile h⟩

-- The groups are expanded in another order, one after the group it names and one before.
theorem field_order_irrelevant_two_documents :
    let load : Tree := .seq [.map [("name", .string "load"), ("class", .string "Loader")]]
    let flipped : Tree := .seq [.map [("class", .string "Loader"), ("name", .string "load")]]
    let all : Tree := .seq [.string "load"]
    let tasks : Tree := .map [("daily", .map [("prices", .map [("dataDef", .string "price")])])]
    let ts : List Tree := [.map [("steps", .map [("load", load), ("all", all)])],
      .map [("dataDefs", .map [("price", .map []), ("name", .null)]), ("taskGroups", tasks)]]
    let us : List Tree := [.map [("steps", .map [("all", all), ("load", flipped)])],
      .map [("taskGroups", tasks), ("dataDefs", .map [("name", .null), ("price", .map [])])]]
    ∃ t u e f vs ws, List.Forall₂ Same ts us ∧ mergeAll? ts = some t ∧ mergeAll? us = some u ∧ Same t u ∧
      normalize "all" t = .ok e ∧ normalize "all" u = .ok f ∧ Same e f ∧
      Timeline.compile ⟨9, 0⟩ ⟨1, 0⟩ e = .ok vs ∧ Timeline.compile ⟨9, 0⟩ ⟨1, 0⟩ f = .ok ws ∧
      vs.map (·.name) = ["price", "name"] ∧ SameDefinitions vs ws := by
  intro load flipped all tasks ts us
  have hsources : List.Forall₂ Same ts us :=
    .cons ⟨by decide, by decide, by decide⟩ (.cons ⟨by decide, by decide, by decide⟩ .nil)
  obtain ⟨hmerged, hchain⟩ := (field_order_irrelevant "all" ⟨9, 0⟩ ⟨1, 0⟩).1 ts us hsources
  obtain ⟨t, ht⟩ : ∃ t, mergeAll? ts = some t := ⟨_, rfl⟩
  obtain ⟨u, hu⟩ : ∃ u, mergeAll? us = some u := ⟨_, rfl⟩
  rw [ht, hu] at hmerged
  cases hmerged with
  | some hsame =>
      obtain ⟨e, he, vs, hvs, hnames⟩ : ∃ e, normalize "all" t = .ok e ∧
          ∃ vs, Timeline.compile ⟨9, 0⟩ ⟨1, 0⟩ e = .ok vs ∧ vs.map (·.name) = ["price", "name"] := by
        obtain rfl := Option.some.inj ht
        exact ⟨_, rfl, _, rfl, rfl⟩
      obtain ⟨heffective, hversions⟩ := hchain t u ht hu
      rw [he] at heffective
      obtain ⟨f, hf, hsame'⟩ := heffective.ok_of_ok
      rw [he, hf] at hversions
      change Agree SameDefinitions (Timeline.compile ⟨9, 0⟩ ⟨1, 0⟩ e)
        (Timeline.compile ⟨9, 0⟩ ⟨1, 0⟩ f) at hversions
      rw [hvs] at hversions
      obtain ⟨ws, hws, hdefinitions⟩ := hversions.ok_of_ok
      exact ⟨t, u, e, f, vs, ws, hsources, ht, hu, hsame, he, hf, hsame', hvs, hws, hnames, hdefinitions⟩

end
end ScraperTimeline.Pipeline
