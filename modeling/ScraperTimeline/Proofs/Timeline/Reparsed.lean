import ScraperTimeline.Axis.Members
import ScraperTimeline.Proofs.Timeline.Record

/-!
Bodies that are parsed again from their own text. A tree without floats comes back as it was, with its keys
in their order, unless it is nested deeper than the parser goes.
-/
namespace ScraperTimeline

namespace Tree

variable {t : Tree}

-- Each kind of node is taken for the same kind again.
theorem toTree?_ofTree (hkeyed : t.keyed) (hfree : t.floatFree) : (Json.ofTree t).toTree? = some t := by
  induction t with
  | null => rfl
  | bool b => rfl
  | int n => exact Json.toTree?_int n
  | float x => cases hfree
  | string s => rfl
  | seq items ih =>
      refine Json.toTree?_seq_iff.mpr ⟨items, rfl, List.forall₂_same.mpr fun t ht => ?_⟩
      exact ih t ht (keyed_seq_iff.mp hkeyed t ht) (floatFree_seq_iff.mp hfree t ht)
  | map fields ih =>
      obtain ⟨hkeys, hvalues⟩ := keyed_map_iff.mp hkeyed
      refine (Json.toTree?_map_iff hkeys).mpr ⟨fields, rfl, List.forall₂_same.mpr fun field hfield => ⟨rfl, ?_⟩⟩
      exact ih field hfield (hvalues field hfield) (floatFree_map_iff.mp hfree field hfield)

theorem ofJson?_toJson_self (hkeyed : t.keyed) (hfree : t.floatFree) (hdepth : t.depth ≤ Json.maxDepth) :
    ofJson? t.toJson = some t :=
  (ofJson?_toJson hdepth).trans (toTree?_ofTree hkeyed hfree)

theorem ofJson?_toJson_of_deep (hdeep : Json.maxDepth < t.depth) : ofJson? t.toJson = none := by
  rw [ofJson?_toJson_eq, if_neg (Nat.not_le.mpr hdeep)]

end Tree

namespace Version

variable {t : Tree}

theorem ofText_ofBody (hparsed : Tree.ofJson? t.toJson = some t) (name : String) (start stop : Instant) :
    ofText name start stop (ofBody name start stop t).text = .ok (ofBody name start stop t) := by
  rw [ofText, show (ofBody name start stop t).text = t.toJson from rfl, hparsed]
  rfl

theorem ofText_ofBody_of_rejected (hrejected : Tree.ofJson? t.toJson = none) (name : String)
    (start stop : Instant) :
    ofText name start stop (ofBody name start stop t).text =
      .error (.malformedSource name Fault.unreadable) := by
  rw [ofText, show (ofBody name start stop t).text = t.toJson from rfl, hrejected]

end Version

-- Every body is written as JSON, and its text is parsed to the same body or refused for its depth. The version
-- of the text is then the version of the body, with the same axes and members.
theorem body_text_parses_back {t : Tree} (hkeyed : t.keyed) :
    Json.read? t.toJson.toList = some (Json.ofTree t) ∧
      (t.floatFree → t.depth ≤ Json.maxDepth →
        Tree.ofJson? t.toJson = some t ∧
          ∀ name start stop, let v := Version.ofBody name start stop t
            Version.ofText name start stop v.text = .ok v ∧
              (Version.ofText name start stop v.text >>= AxisSets.ofVersion) = AxisSets.ofVersion v ∧
              (Version.ofText name start stop v.text >>= Version.members) = v.members) ∧
      (Json.maxDepth < t.depth →
        Tree.ofJson? t.toJson = none ∧
          ∀ name start stop, Version.ofText name start stop (Version.ofBody name start stop t).text =
            .error (.malformedSource name Fault.unreadable)) := by
  refine ⟨Json.read?_toJson t, fun hfree hdepth => ?_, fun hdeep => ?_⟩
  · have hparsed := Tree.ofJson?_toJson_self hkeyed hfree hdepth
    refine ⟨hparsed, fun name start stop => ?_⟩
    have hsame := Version.ofText_ofBody hparsed name start stop
    dsimp only
    rw [hsame]
    exact ⟨rfl, rfl, rfl⟩
  · have hrejected := Tree.ofJson?_toJson_of_deep hdeep
    exact ⟨hrejected, Version.ofText_ofBody_of_rejected hrejected⟩

-- A body with extreme integers and signs that are escaped, and one that is nested too deep.
theorem body_text_parses_back_escaped :
    let body : Tree := .map [("b\"\\", .seq [.int Int64.minValue, .int Int64.maxValue, .null]),
      ("a\n\x00é", .map [("", .string "\u001f/😀"), ("t", .bool true)])]
    let deep : Tree := (fun t => Tree.seq [t])^[128] .null
    Tree.ofJson? body.toJson = some body ∧ Json.read? deep.toJson.toList = some (Json.ofTree deep) ∧
      Tree.ofJson? deep.toJson = none := by
  intro body deep
  have hbody : body.keyed ∧ body.floatFree ∧ body.depth ≤ Json.maxDepth := by decide +kernel
  have hdeep : deep.keyed ∧ Json.maxDepth < deep.depth := by decide +kernel
  have hrejected := body_text_parses_back hdeep.1
  exact ⟨((body_text_parses_back hbody.1).2.1 hbody.2.1 hbody.2.2).1, hrejected.1,
    (hrejected.2.2 hdeep.2).1⟩

end ScraperTimeline
