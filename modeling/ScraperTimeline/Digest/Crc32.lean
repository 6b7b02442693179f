/-!
The cyclic redundancy check of 32 bits with the polynomial of IEEE 802.3, the lowest bit first.
-/
namespace ScraperTimeline.Crc32

/-- The polynomial without its highest term, bits reversed. -/
def polynomial : BitVec 32 := 0xEDB88320

/-- One bit of the division. -/
def shift (r : BitVec 32) : BitVec 32 :=
  if r.getLsbD 0 then (r >>> 1) ^^^ polynomial else r >>> 1

/-- One byte of the division. -/
def step (r : BitVec 32) (b : UInt8) : BitVec 32 :=
  shift (shift (shift (shift (shift (shift (shift (shift (r ^^^ b.toBitVec.setWidth 32))))))))

/-- The remainder after some bytes. -/
def remainder (r : BitVec 32) (bytes : List UInt8) : BitVec 32 := bytes.foldl step r

/-- The checksum of a text of bytes. -/
def checksum (bytes : List UInt8) : BitVec 32 := ~~~remainder (BitVec.allOnes 32) bytes

end ScraperTimeline.Crc32
