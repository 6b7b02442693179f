import ScraperTimeline.Proofs.Normal.Names
import ScraperTimeline.Proofs.Pipeline.Contracts
import ScraperTimeline.Proofs.Timeline.Rewritten
import ScraperTimeline.Proofs.Timeline.Runs
import ScraperTimeline.Proofs.Yaml.Shape

/-!
Runs over the same effective tree, one after the other. The second one finds what the first one wrote, and
changes nothing as long as the doubles in the definitions come back from their texts.
-/
namespace ScraperTimeline.Timeline

open FileStore ScraperTimeline.Normal Schema.Packaged Shape Sync

variable {base : Option String} {fs : Files} {defined effective : Contract} {text : String} {t : Tree}
  {policy : Policy} {settings : Settings} {s : FileStore} {start again : Instant}

theorem compile_of_lt {high run : Instant} (h : run.wholeSecond < high) (t : Tree) :
    compile high run t = .ok (versionsAt high run.wholeSecond (definitions t)) :=
  compile_eq_ok_iff.mpr ⟨h, rfl⟩

-- What the effective contract accepts has definitions of which the names can be stored.
theorem isName_of_validate {name : String} (hvalid : (contract .effective name).validate policy t = .ok ()) :
    ∀ field ∈ definitions t, Store.isName field.1 := by
  obtain ⟨-, hnames⟩ := isDefinitions_definitions ((validate_contract_iff .effective name policy t).mp hvalid)
  intro field hfield
  rw [← accepts_namePattern]
  exact hnames field.1 (Fields.mem_keys hfield)

-- Definitions that are read from YAML are not too deep for JSON, so only their doubles can get lost.
theorem restored_definitions_iff (hread : Tree.ofYaml? text = some t) :
    (∀ field ∈ definitions t, field.2.restored) ↔ ∀ field ∈ definitions t, field.2.doublesRestored := by
  obtain ⟨hdepth, hkeyed⟩ := Yaml.nested_of_ofYaml? hread
  have hbodies : ∀ field ∈ definitions t, field.2.depth ≤ 126 := depth_of_mem_definitions hdepth
  exact forall₂_congr fun field hfield =>
    Tree.restored_iff_doublesRestored ((keyed_definitions hkeyed).2 field hfield)
      ((hbodies field hfield).trans (by decide))

-- Both runs, in a store that is empty before.
theorem run_compiled_twice (hread : Tree.ofYaml? text = some t)
    (hvalid : (contract .effective "effective").validate policy t = .ok ()) (hs : s.Empty)
    (hshort : ∀ field ∈ definitions t, (besideFile field.1).utf8ByteSize ≤ Files.longestName)
    (hhigh : s.high = settings.high) (hdated : start.Representable ∧ s.high.Representable)
    (hstart : start.Ordinary) (hagain : again.Ordinary) (hapart : start.second < again.second)
    (hbefore : again < s.high) :
    ∃ first second after,
      compile settings.high start t = .ok first ∧ compile settings.high again t = .ok second ∧
      (apply settings first).run s = (([], .ok (first.map fun v => (v.name, .inserted))), after) ∧
      ((apply settings second).run after = (([], .ok (second.map fun v => (v.name, .unchanged))), after) ↔
        ∀ field ∈ definitions t, field.2.doublesRestored) ∧
      (((apply settings second).run after).1.2 = .ok (second.map fun v => (v.name, .unchanged)) →
        ∀ field ∈ definitions t, field.2.doublesRestored) := by
  have hlt := hstart.wholeSecond_lt_of_second_lt hagain hapart
  have hbefore := hagain.wholeSecond_lt_of_lt hbefore
  obtain ⟨after, hfirst, hunchanged, hreported⟩ := run_apply_twice hs hshort hhigh
    ⟨hdated.1.wholeSecond, hdated.2⟩ (keyed_definitions (Yaml.nested_of_ofYaml? hread).2).1
    (isName_of_validate hvalid) hstart.isWhole hagain.isWhole hlt hbefore
  rw [restored_definitions_iff hread] at hunchanged hreported
  rw [hhigh] at hbefore
  exact ⟨_, _, after,
    compile_of_lt (Instant.lt_of_le_of_lt (Instant.le_of_lt hlt) hbefore) t, compile_of_lt hbefore t,
    hfirst, ⟨fun h => hreported (by rw [h]), hunchanged⟩, hreported⟩

-- Definitions that have not changed create no version just if each double in them is read as it was
-- written. The files of their histories have to find room for their names.
theorem recompiled_unchanged_iff
    (hload : Pipeline.loadContracts (.below base) fs ["defined", "effective"] =
      .ok [("defined", defined), ("effective", effective)])
    (hread : Tree.ofYaml? text = some t) (hvalid : effective.validate policy t = .ok ()) (hs : s.Empty)
    (hshort : ∀ field ∈ definitions t, (besideFile field.1).utf8ByteSize ≤ Files.longestName)
    (hhigh : s.high = settings.high) (hdated : start.Representable ∧ s.high.Representable)
    (hstart : start.Ordinary) (hagain : again.Ordinary) (hapart : start.second < again.second)
    (hbefore : again < s.high) :
    ∃ first second after,
      compile settings.high start t = .ok first ∧ compile settings.high again t = .ok second ∧
      (apply settings first).run s = (([], .ok (first.map fun v => (v.name, .inserted))), after) ∧
      ((apply settings second).run after = (([], .ok (second.map fun v => (v.name, .unchanged))), after) ↔
        ∀ field ∈ definitions t, field.2.doublesRestored) ∧
      (((apply settings second).run after).1.2 = .ok (second.map fun v => (v.name, .unchanged)) →
        ∀ field ∈ definitions t, field.2.doublesRestored) := by
  obtain ⟨-, rfl⟩ := Pipeline.eq_of_loadContracts hload
  exact run_compiled_twice hread hvalid hs hshort hhigh hdated hstart hagain hapart hbefore

/-! ### A definition with a limit -/

section
open Yaml

def limitedText (limit : String) : String :=
  "dataDefs:\n  price:\n    axis:\n      fact:\n        members: []\n    query:\n      limit: " ++ limit

def limitedTokens (limit : String) : List Token :=
  let block (fields : List Token) : List Token := .blockMapping :: (fields ++ [.blockEnd])
  let field (key : String) (value : List Token) : List Token :=
    .key :: .scalar key.toList true :: .value :: value
  let axes := block (field "fact" (block (field "members" [.flowSequence, .flowSequenceEnd])))
  let query := block (field "limit" [.scalar limit.toList true])
  block (field "dataDefs" (block (field "price" (block (field "axis" axes ++ field "query" query))))) ++
    [.streamEnd]

def plainText (text : String) : Node := .scalar {} text.toList true

def limitedNode (limit : String) : Node :=
  .map {} [(plainText "dataDefs", .map {} [(plainText "price", .map {} [
    (plainText "axis", .map {} [(plainText "fact", .map {} [(plainText "members", .seq {} [])])]),
    (plainText "query", .map {} [(plainText "limit", plainText limit)])])])]

def limited (limit : Binary64) : Tree :=
  .map [("dataDefs", .map [("price", .map [
    ("axis", .map [("fact", .map [("members", .seq [])])]),
    ("query", .map [("limit", .float limit)])])])]

theorem ofYaml?_limitedText {limit : String} {x : Binary64}
    (htokens : tokens? (limitedText limit).toList = some (limitedTokens limit))
    (hlimit : Scalar.ofPlain limit.toList = .float x) :
    Tree.ofYaml? (limitedText limit) = some (limited x) := by
  have hnode : (limitedTokens limit).foldlM Reading.step? (.header false [], {}) =
      some (.done (some (limitedNode limit)), ⟨[], defaultHandles⟩) := rfl
  have hread : read? (limitedText limit).toList = some (some (limitedNode limit)) := by
    simp only [read?, htokens, Option.bind_eq_bind, Option.bind_some, hnode]
  have hresolved : (limitedNode limit).resolved? = some (limitedNode limit) := rfl
  have hkeys : ∀ key ∈ ["dataDefs", "price", "axis", "fact", "members", "query", "limit"],
      (plainText key).toTree? = some (.string key) := by
    simp only [List.forall_mem_cons]
    exact ⟨rfl, rfl, rfl, rfl, rfl, rfl, rfl, by simp⟩
  have hvalue : (plainText limit).toTree? = some (.float x) := by
    simp only [plainText, Node.toTree?, scalarTree?, hlimit, if_true, Scalar.toTree?]
  simp only [List.forall_mem_cons] at hkeys
  rw [Tree.ofYaml?, hread]
  simp only [Option.bind_eq_bind, Option.bind_some, hresolved]
  simp only [limitedNode, Node.toTree?, fieldTrees?, itemTrees?, hkeys, hvalue, Tree.string?]
  rfl

end

theorem validate_limited (x : Binary64) :
    (contract .effective "effective").validate .failFast (limited x) = .ok () := by
  rw [validate_contract_iff]
  simp [limited, IsDefs, IsDefinitions, IsDefinition, IsAxes, IsAxis, IsMapping, Mapping, Closed, Values,
    Sequence, Optional, Fields.keys, List.lookup]
  decide +kernel

-- An empty store, and two days.
def newStore : FileStore := ⟨["store"], ⟨2145916799, 0⟩, ⟨[(["store"], .directory)], []⟩⟩

def newYear : Instant := ⟨1704067200, 0⟩

def dayAfter : Instant := ⟨1704153600, 0⟩

def newSettings : Settings := ⟨newStore.high, 3, 10⟩

theorem empty_newStore : newStore.Empty := ⟨rfl, rfl⟩

theorem representable_newYear : newYear.Representable ∧ newStore.high.Representable :=
  ⟨⟨by decide, by decide, by decide, by decide⟩, ⟨by decide, by decide, by decide, by decide⟩⟩

-- A half is read as it was written.
theorem recompiled_unchanged_half :
    ∃ (defined effective : Contract) (first second : List Version) (after : FileStore),
      Pipeline.loadContracts (.below none) .empty ["defined", "effective"] =
        .ok [("defined", defined), ("effective", effective)] ∧
      Tree.ofYaml? (limitedText "0.5") = some (limited ⟨0x3FE0000000000000⟩) ∧
      effective.validate .failFast (limited ⟨0x3FE0000000000000⟩) = .ok () ∧
      compile newSettings.high newYear (limited ⟨0x3FE0000000000000⟩) = .ok first ∧
      compile newSettings.high dayAfter (limited ⟨0x3FE0000000000000⟩) = .ok second ∧
      (apply newSettings first).run newStore =
        (([], .ok (first.map fun v => (v.name, .inserted))), after) ∧
      (apply newSettings second).run after =
        (([], .ok (second.map fun v => (v.name, .unchanged))), after) := by
  have hload := Pipeline.loadContracts_packaged none .empty
  have hread : Tree.ofYaml? (limitedText "0.5") = some (limited ⟨0x3FE0000000000000⟩) :=
    ofYaml?_limitedText (by decide +kernel) (by decide +kernel)
  obtain ⟨first, second, after, hfirst, hsecond, hinserted, hunchanged, -⟩ :=
    recompiled_unchanged_iff hload hread (validate_limited _) empty_newStore (by decide)
      (show _ = newSettings.high from rfl) representable_newYear (by decide)
      (show dayAfter.Ordinary by decide) (by decide) (by decide)
  exact ⟨_, _, first, second, after, hload, hread, validate_limited _, hfirst, hsecond, hinserted,
    hunchanged.mpr (by decide +kernel)⟩

-- An infinity is not.
theorem recompiled_infinity_changes :
    ∃ (defined effective : Contract) (first second : List Version) (after : FileStore),
      Pipeline.loadContracts (.below none) .empty ["defined", "effective"] =
        .ok [("defined", defined), ("effective", effective)] ∧
      Tree.ofYaml? (limitedText ".inf") = some (limited (.infinity false)) ∧
      effective.validate .failFast (limited (.infinity false)) = .ok () ∧
      newStore.Empty ∧
      compile newSettings.high newYear (limited (.infinity false)) = .ok first ∧
      compile newSettings.high dayAfter (limited (.infinity false)) = .ok second ∧
      (apply newSettings first).run newStore =
        (([], .ok (first.map fun v => (v.name, .inserted))), after) ∧
      ((apply newSettings second).run after).1.2 ≠
        .ok (second.map fun v => (v.name, .unchanged)) := by
  have hread : Tree.ofYaml? (limitedText ".inf") = some (limited (.infinity false)) :=
    ofYaml?_limitedText (by decide +kernel) (by decide +kernel)
  obtain ⟨first, second, after, hfirst, hsecond, hinserted, -, hreported⟩ :=
    run_compiled_twice hread (validate_limited _) empty_newStore (by decide)
      (show _ = newSettings.high from rfl) representable_newYear (by decide)
      (show dayAfter.Ordinary by decide) (by decide) (by decide)
  have hlost : ¬∀ field ∈ definitions (limited (.infinity false)), field.2.doublesRestored := by
    decide +kernel
  exact ⟨_, _, first, second, after, Pipeline.loadContracts_packaged none .empty, hread,
    validate_limited _, empty_newStore, hfirst, hsecond, hinserted, mt hreported hlost⟩

end ScraperTimeline.Timeline
