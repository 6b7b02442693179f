import ScraperTimeline.Text.Digits

/-!
Ids of runs, made of random bytes.
-/
namespace ScraperTimeline.RunId

/-- The bits of a byte at `keep` stay, the others are set to `mark`. -/
def marked (keep mark : UInt8) (byte : UInt8) : UInt8 := byte &&& keep ||| mark

/-- Marks the bytes as random ones. -/
def asRandom (bytes : List UInt8) : List UInt8 :=
  (bytes.modify 6 (marked 0x0f 0x40)).modify 8 (marked 0x3f 0x80)

def hexText (bytes : List UInt8) : String :=
  String.ofList (bytes.flatMap fun byte => Text.hex 2 byte.toNat)

/-- The id of 16 bytes, in groups of hexadecimal digits. -/
def ofBytes (bytes : List UInt8) : String :=
  let b := asRandom bytes
  let group (start length : Nat) := hexText ((b.drop start).take length)
  "-".intercalate [group 0 4, group 4 2, group 6 2, group 8 2, group 10 6]

end ScraperTimeline.RunId
