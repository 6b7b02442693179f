import ScraperTimeline.Artifact.Cache
import ScraperTimeline.Proofs.Files.Basic
import Mathlib.Data.String.Basic

/-!
Keys of artifacts. Fingerprints have 64 digits each, so different keys have different places and none of
these is beside another one.
-/
namespace ScraperTimeline

namespace Fingerprint

structure Valid (f : Fingerprint) : Prop where
  length : f.text.toList.length = 64
  digits : ∀ c ∈ f.text.toList, isDigit c

variable {f : Fingerprint}

theorem valid_of_read {text : String} (h : read text = .ok f) : f.Valid := by
  rw [read] at h
  split at h
  · rename_i hvalid
    obtain rfl := Except.ok.inj h
    exact ⟨hvalid.1, List.all_eq_true.mp hvalid.2⟩
  · cases h

theorem isDigit_digitChar {n : Nat} (h : n < 16) : isDigit (Nat.digitChar n) := by
  have hall : ∀ n < 16, isDigit (Nat.digitChar n) := by decide
  exact hall n h

theorem isDigit_of_mem_wordDigits {w : UInt32} {c : Char} (h : c ∈ wordDigits w) : isDigit c := by
  obtain ⟨i, -, rfl⟩ := List.mem_map.mp h
  exact isDigit_digitChar (Nat.mod_lt _ (by decide))

-- A hash has eight words of eight digits each.
theorem valid_of (parts : List (List UInt8)) : (of parts).Valid := by
  constructor
  · have hwords : (Sha256.hash (message parts)).length = 8 := rfl
    rw [of, String.toList_ofList, List.length_flatMap]
    simp [wordDigits, List.map_const', hwords]
  · intro c hc
    rw [of, String.toList_ofList, List.mem_flatMap] at hc
    obtain ⟨w, -, hc⟩ := hc
    exact isDigit_of_mem_wordDigits hc

theorem utf8Size_of_isDigit {c : Char} (h : isDigit c) : c.utf8Size = 1 := by
  rw [Char.utf8Size_eq_one_iff]
  simp only [isDigit, Bool.or_eq_true, Bool.and_eq_true, decide_eq_true_eq, Char.le_def] at h
  rcases h with ⟨-, h⟩ | ⟨-, h⟩
  · exact UInt32.le_trans h (by decide)
  · exact UInt32.le_trans h (by decide)

theorem utf8Len_of_digits {cs : List Char} (h : ∀ c ∈ cs, isDigit c) : String.utf8Len cs = cs.length := by
  induction cs with
  | nil => rfl
  | cons c cs ih =>
      obtain ⟨hc, hcs⟩ := List.forall_mem_cons.mp h
      rw [String.utf8Len, ih hcs, utf8Size_of_isDigit hc, List.length_cons]

theorem Valid.utf8ByteSize_text (h : f.Valid) : f.text.utf8ByteSize = 64 := by
  rw [← String.ofList_toList (s := f.text), String.utf8ByteSize_ofList, utf8Len_of_digits h.digits, h.length]

end Fingerprint

namespace ArtifactKey

structure Valid (k : ArtifactKey) : Prop where
  dir : k.dir.Valid
  file : k.file.Valid

variable {k k' : ArtifactKey} {root : Path}

-- The place beside the artifact, where its text is written first.
def beside (root : Path) (k : ArtifactKey) : Path := (k.fileName ++ ".tmp") :: k.dir.text :: root

theorem Valid.utf8ByteSize_fileName (h : k.Valid) : k.fileName.utf8ByteSize = 69 := by
  have hdata : "data-".utf8ByteSize = 5 := rfl
  rw [fileName, String.utf8ByteSize_append, hdata, h.file.utf8ByteSize_text]

theorem Valid.utf8ByteSize_beside (h : k.Valid) : (k.fileName ++ ".tmp").utf8ByteSize = 73 := by
  have htmp : ".tmp".utf8ByteSize = 4 := rfl
  rw [String.utf8ByteSize_append, h.utf8ByteSize_fileName, htmp]

theorem place_inj : k.place root = k'.place root ↔ k = k' := by
  refine ⟨fun h => ?_, fun h => h ▸ rfl⟩
  obtain ⟨hfile, hdir⟩ := List.cons.inj h
  have hdir : k.dir.text = k'.dir.text := (List.cons.inj hdir).1
  have hfile : k.file.text = k'.file.text := by
    rw [fileName, fileName, ← String.toList_inj, String.toList_append, String.toList_append] at hfile
    exact String.toList_inj.mp (List.append_cancel_left hfile)
  obtain ⟨⟨dir⟩, ⟨file⟩⟩ := k
  obtain ⟨⟨dir'⟩, ⟨file'⟩⟩ := k'
  obtain rfl : dir = dir' := hdir
  obtain rfl : file = file' := hfile
  rfl

theorem Valid.beside_ne_place (h : k.Valid) (h' : k'.Valid) : k.beside root ≠ k'.place root := by
  intro heq
  have hname : k.fileName ++ ".tmp" = k'.fileName := (List.cons.inj heq).1
  have hbytes := congrArg String.utf8ByteSize hname
  rw [h.utf8ByteSize_beside, h'.utf8ByteSize_fileName] at hbytes
  omega

end ArtifactKey
end ScraperTimeline
