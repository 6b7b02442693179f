import ScraperTimeline.Digest.Sha256
import ScraperTimeline.Fault

/-!
Fingerprints: hashes of identities that have several parts. Each part is preceded by its length, so
different identities give different messages to the hash.
-/
namespace ScraperTimeline

/-- The lower-case hexadecimal digits of a hash. -/
structure Fingerprint where
  text : String
deriving DecidableEq, Repr

namespace Fingerprint

/-- The message that is hashed. -/
def message (parts : List (List UInt8)) : List UInt8 :=
  parts.flatMap fun part => Sha256.lengthBytes part.length ++ part

def wordDigits (w : UInt32) : List Char :=
  [7, 6, 5, 4, 3, 2, 1, 0].map fun i => Nat.digitChar (w.toNat / Nat.pow 16 i % 16)

def of (parts : List (List UInt8)) : Fingerprint :=
  ⟨String.ofList ((Sha256.hash (message parts)).flatMap wordDigits)⟩

def isDigit (c : Char) : Bool := ('0' ≤ c && c ≤ '9') || ('a' ≤ c && c ≤ 'f')

def read (text : String) : Except Fault Fingerprint :=
  if text.toList.length = 64 ∧ text.toList.all isDigit then .ok ⟨text⟩
  else .error (.storeFailed ("invalid fingerprint '" ++ text ++ "'"))

end Fingerprint
end ScraperTimeline
