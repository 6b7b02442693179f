import ScraperTimeline.Proofs.Artifact.Map
import ScraperTimeline.Proofs.Digest.Crc32

/-!
Damage to a stored payload. A payload that has changed within four bytes is not given out.
-/
namespace ScraperTimeline

def payloadBytes (s : String) : List UInt8 := s.toUTF8.data.toList

-- As many bytes as before, of which none have changed but some of four that follow each other.
structure ShortDamage (payload damaged : String) : Prop where
  size : damaged.utf8ByteSize = payload.utf8ByteSize
  within : ∃ i, ∀ j, j < i ∨ i + 4 ≤ j → (payloadBytes damaged)[j]? = (payloadBytes payload)[j]?
  ne : damaged ≠ payload

theorem payloadBytes_inj {s t : String} (h : payloadBytes s = payloadBytes t) : s = t :=
  String.toByteArray_inj.mp (ByteArray.ext (Array.toList_inj.mp h))

-- Lists that agree outside of four places are the same around them.
theorem exists_window {α : Type} {as bs : List α} {i : Nat} (hlength : as.length = bs.length)
    (h : ∀ j, j < i ∨ i + 4 ≤ j → as[j]? = bs[j]?) :
    ∃ before damaged window after, as = before ++ damaged ++ after ∧ bs = before ++ window ++ after ∧
      damaged.length = window.length ∧ window.length ≤ 4 := by
  have hbefore : as.take i = bs.take i := by
    refine List.ext_getElem? fun j => ?_
    rw [List.getElem?_take, List.getElem?_take]
    split
    · exact h j (.inl ‹_›)
    · rfl
  have hafter : (as.drop i).drop 4 = (bs.drop i).drop 4 := by
    refine List.ext_getElem? fun j => ?_
    rw [List.drop_drop, List.drop_drop, List.getElem?_drop, List.getElem?_drop]
    exact h _ (.inr (Nat.le_add_right _ _))
  refine ⟨bs.take i, (as.drop i).take 4, (bs.drop i).take 4, (bs.drop i).drop 4, ?_, ?_, ?_, ?_⟩
  · rw [← hbefore, ← hafter, List.append_assoc, List.take_append_drop, List.take_append_drop]
  · rw [List.append_assoc, List.take_append_drop, List.take_append_drop]
  · rw [List.length_take, List.length_take, List.length_drop, List.length_drop, hlength]
  · exact List.length_take_le 4 _

theorem ShortDamage.textChecksum_ne {payload damaged : String} (h : ShortDamage payload damaged) :
    textChecksum damaged ≠ textChecksum payload := by
  obtain ⟨i, hwithin⟩ := h.within
  have hsize : (payloadBytes damaged).length = (payloadBytes payload).length := h.size
  obtain ⟨before, new, old, after, hdamaged, hpayload, hlength, hfour⟩ := exists_window hsize hwithin
  have hne : new ≠ old := fun heq => h.ne (payloadBytes_inj (by rw [hdamaged, hpayload, heq]))
  have hchecksum : Crc32.checksum (payloadBytes damaged) ≠ Crc32.checksum (payloadBytes payload) := by
    rw [hdamaged, hpayload]
    exact Crc32.checksum_ne hlength hfour hne
  exact fun heq => hchecksum (BitVec.eq_of_toNat_eq heq)

namespace Cache

variable {c : Cache} {k : ArtifactKey} {w w' : World} {text : String}

theorem at?_of_run_save {savedAt : Instant} {a : Artifact}
    (h : (c.save savedAt k a).run.run w = (.ok (), w')) :
    w'.files.at? (k.place c.root) = some (.file (some (Envelope.ofArtifact savedAt a).toTree.toJson)) := by
  rw [save, run_bind_of_ok (run_filing _ w)] at h
  split at h
  next hreplace =>
    cases h
    exact Files.at?_of_run_replace (Prod.ext hreplace rfl)
  next => cases h

theorem run_get_of_unsound {e : Envelope} (hfile : w.files.at? (k.place c.root) = some (.file (some text)))
    (hread : Envelope.read? text = some e) (hsound : e.isSound = false) :
    (c.get k).run.run w = (.error (.integrityFailure k.text),
      { w with trace := w.trace ++
        [.event .artifactRejected [("key", k.text), ("reason", "checksum mismatch")]] }) := by
  rw [get, run_get_bind, Files.read_of_at? hfile]
  refine run_bind_of_error ?_
  rw [opened, hread]
  dsimp only
  rw [hsound]
  rfl

-- Once an artifact is saved, an envelope of which nothing but the payload has changed, and that within four
-- bytes, is found in whatever way it is written and whatever else has happened to the files.
theorem short_damage_detected {savedAt : Instant} {a : Artifact}
    (hsave : (c.save savedAt k a).run.run w = (.ok (), w')) :
    w'.files.at? (k.place c.root) = some (.file (some (Envelope.ofArtifact savedAt a).toTree.toJson)) ∧
      ∀ (later : World) (text damaged : String),
        later.files.at? (k.place c.root) = some (.file (some text)) →
        Envelope.read? text = some { Envelope.ofArtifact savedAt a with payload := damaged } →
        ShortDamage a.payload damaged →
        (c.get k).run.run later = (.error (.integrityFailure k.text),
          { later with trace := later.trace ++
            [.event .artifactRejected [("key", k.text), ("reason", "checksum mismatch")]] }) := by
  refine ⟨at?_of_run_save hsave, fun later text damaged hfile hread hdamage => ?_⟩
  exact run_get_of_unsound hfile hread (decide_eq_false hdamage.textChecksum_ne)

def tampered : Envelope := { Envelope.ofArtifact ⟨1704067200, 0⟩ (price "10.5 EUR") with payload := "99.5 EUR" }

theorem shortDamage_tampered : ShortDamage "10.5 EUR" "99.5 EUR" where
  size := rfl
  within := by
    refine ⟨0, fun j hj => ?_⟩
    by_cases hlt : j < 8
    · interval_cases j <;> first | rfl | omega
    · have hend : 8 ≤ j := Nat.not_lt.mp hlt
      rw [List.getElem?_eq_none hend, List.getElem?_eq_none hend]
  ne := by decide

theorem short_damage_detected_price :
    ∃ w', (quotes.save ⟨1704067200, 0⟩ (page "acme") (price "10.5 EUR")).run.run ⟨.empty, []⟩ = (.ok (), w') ∧
      ShortDamage "10.5 EUR" "99.5 EUR" ∧ Envelope.read? tampered.toTree.toJson = some tampered ∧
      let later : World :=
        { w' with files := w'.files.set ((page "acme").place quotes.root) (.file (some tampered.toTree.toJson)) }
      (quotes.get (page "acme")).run.run later = (.error (.integrityFailure (page "acme").text),
        { later with trace := later.trace ++
          [.event .artifactRejected [("key", (page "acme").text), ("reason", "checksum mismatch")]] }) := by
  have hnow : (⟨1704067200, 0⟩ : Instant).Representable := ⟨by decide, by decide, by decide, by decide⟩
  have hstorable : tampered.Storable :=
    ⟨textChecksum_lt _, hnow, Artifact.sorted_ofList _ _⟩
  have hholds : quotes.Holds (held []) Files.empty :=
    holds_of_empty ⟨.inl rfl, by decide, trivial⟩ (by simp [Files.empty, Files.at?, quotes])
  let contents := Function.update (held []) (page "acme") (some (price "10.5 EUR"))
  have hcontents : contents (page "acme") = some (price "10.5 EUR") := Function.update_self ..
  obtain ⟨w', hsave, -⟩ := exists_run_save (w := ⟨.empty, []⟩) hholds (valid_page "acme") hnow
    (Artifact.sorted_ofList _ _) hcontents fun _ hne => Function.update_of_ne hne ..
  have hread := Envelope.read?_toJson hstorable
  refine ⟨w', hsave, shortDamage_tampered, hread, ?_⟩
  exact (short_damage_detected hsave).2 _ _ _ (Files.at?_set_self ..) hread shortDamage_tampered

end Cache
end ScraperTimeline
