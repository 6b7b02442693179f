import ScraperTimeline.Artifact.Cache
import ScraperTimeline.Proofs.Instant.Text
import ScraperTimeline.Proofs.Json.Sorted
import ScraperTimeline.Proofs.Json.Written

/-!
Envelopes. What is stored of an artifact reads back as the artifact, whatever its texts are.
-/
namespace ScraperTimeline

/-! ### Metadata -/

namespace Artifact

-- An artifact has its metadata sorted by key, each key once.
def Sorted (a : Artifact) : Prop := a.metadata.Pairwise (·.1 < ·.1)

theorem sorted_ofList (payload : String) (metadata : List (String × String)) :
    (ofList payload metadata).Sorted := Json.pairwise_foldl_insertSorted List.Pairwise.nil

theorem ofList_metadata {a : Artifact} (h : a.Sorted) : ofList a.payload a.metadata = a :=
  congrArg (mk a.payload) (Json.foldl_insertSorted (show ([] ++ a.metadata).Pairwise _ from h))

end Artifact

/-! ### Texts of envelopes -/

theorem textChecksum_lt (s : String) : textChecksum s < 2 ^ 32 := (Crc32.checksum _).isLt

namespace Envelope

theorem mapM_string? (metadata : List (String × String)) :
    (metadata.map fun (k, v) => (k, Json.string v)).mapM
      (fun (key, value) => value.string?.map fun v => (key, v)) = some metadata := by
  induction metadata with
  | nil => rfl
  | cons entry metadata ih => rw [List.map_cons, List.mapM_cons, ih]; rfl

theorem ofTree_metadataTree (e : Envelope) :
    Json.ofTree e.metadataTree = .object (e.metadata.map fun (k, v) => (k, .string v)) := by
  rw [metadataTree, Json.ofTree, Json.ofFields_eq, List.map_map]
  rfl

theorem metadata?_ofTree {e : Envelope} (h : e.artifact.Sorted) :
    metadata? (Json.ofTree e.metadataTree) = some e.metadata := by
  rw [ofTree_metadataTree, metadata?, mapM_string?]
  exact congrArg (fun a => some a.metadata) (Artifact.ofList_metadata h)

theorem unsigned?_ofTree {n : Nat} (h : n < 2 ^ 32) :
    (Json.ofTree (.int (Int64.ofNat n))).unsigned? 32 = some n := by
  have hvalue : (Int64.ofNat n).toInt = n := Int64.toInt_ofNat_of_lt (by omega)
  have hnumber : Json.ofTree (.int (Int64.ofNat n)) = .number (.whole false (Text.digits n)) := by
    rw [Json.ofTree, Json.numberOf?, hvalue]
    · simp
    all_goals simp
  rw [hnumber, Json.unsigned?, Text.digitsFrom?_digits, Option.bind_some]
  exact if_pos h

-- An envelope of which all parts are in range.
structure Storable (e : Envelope) : Prop where
  checksum : e.checksum < 2 ^ 32
  savedAt : e.savedAt.Representable
  metadata : e.artifact.Sorted

theorem read?_toJson {e : Envelope} (h : e.Storable) : read? e.toTree.toJson = some e := by
  have hfields : Json.ofTree e.toTree = .object [("checksum", Json.ofTree (.int (Int64.ofNat e.checksum))),
      ("saved_at", .string e.savedAt.storedText), ("metadata", Json.ofTree e.metadataTree),
      ("payload", .string e.payload)] := rfl
  rw [read?, Json.read?_toJson, Option.bind_some, hfields, ofJson?]
  simp only [Json.field?, Fields.once?, List.filter_cons, List.filter_nil, String.reduceEq, decide_true,
    decide_false, if_true, Bool.false_eq_true, if_false, Option.join_some, Option.bind_eq_bind,
    Option.bind_some, ofParts?, Json.string?, Instant.read?_storedText h.savedAt,
    unsigned?_ofTree h.checksum, metadata?_ofTree h.metadata]
  rfl

theorem storable_ofArtifact {savedAt : Instant} {a : Artifact} (hsaved : savedAt.Representable)
    (ha : a.Sorted) : (ofArtifact savedAt a).Storable :=
  ⟨textChecksum_lt a.payload, hsaved, ha⟩

theorem isSound_ofArtifact (savedAt : Instant) (a : Artifact) : (ofArtifact savedAt a).isSound :=
  decide_eq_true rfl

end Envelope
end ScraperTimeline
