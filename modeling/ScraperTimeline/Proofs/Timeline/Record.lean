import ScraperTimeline.Proofs.Instant.Text
import ScraperTimeline.Proofs.Json.Restored
import ScraperTimeline.Timeline.Record

/-!
Stored histories. What is written is read back, the bodies from their texts.
-/
namespace ScraperTimeline

namespace Version

-- A version whose instants can be stored.
structure Dated (v : Version) : Prop where
  start : v.start.Representable
  stop : v.stop.Representable

-- The version with the body that its text has.
def reread? (v : Version) : Option Version := (Tree.ofJson? v.text).map fun body => { v with body }

theorem ofText_toOption (name : String) (start stop : Instant) (text : String) :
    (ofText name start stop text).toOption = (Tree.ofJson? text).map (⟨name, start, stop, text, ·⟩) := by
  rw [ofText]
  cases Tree.ofJson? text <;> rfl

variable {v : Version}

theorem ofJson?_toTree (h : v.Dated) : ofJson? (Json.ofTree v.toTree) = v.reread? := by
  have hfields : Json.ofTree v.toTree = .object [("name", .string v.name),
      ("from_date", .string v.start.storedText), ("to_date", .string v.stop.storedText),
      ("def_json", .string v.text)] := rfl
  rw [hfields, ofJson?]
  simp only [Json.field?, Fields.once?, List.filter_cons, List.filter_nil, String.reduceEq, decide_true,
    decide_false, if_true, Bool.false_eq_true, if_false, Option.join_some, Option.bind_eq_bind,
    Option.bind_some, ofParts?, Json.string?, Instant.read?_storedText h.start,
    Instant.read?_storedText h.stop, ofText_toOption]
  rfl

-- A version that was compiled is read with what comes back of its body.
theorem reread?_ofBody (name : String) (start stop : Instant) (body : Tree) :
    (ofBody name start stop body).reread? =
      (Tree.ofJson? body.toJson).map fun other => { ofBody name start stop body with body := other } := rfl

end Version

theorem History.ofJson?_toJson {h : History} (hdated : ∀ v ∈ h, v.Dated) :
    History.ofJson? h.toJson = h.mapM Version.reread? := by
  have hitems : (h.map Version.toTree).map Json.ofTree = h.map fun v => Json.ofTree v.toTree :=
    List.map_map
  rw [ofJson?, toJson, Json.read?_toPrettyJson, Json.ofTree, Json.ofItems_eq, hitems]
  dsimp only
  clear hitems
  induction h with
  | nil => rfl
  | cons v h ih =>
      obtain ⟨hv, hrest⟩ := List.forall_mem_cons.mp hdated
      rw [List.map_cons, List.mapM_cons, List.mapM_cons, Version.ofJson?_toTree hv, ih hrest]

end ScraperTimeline
