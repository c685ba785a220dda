import UldrenLoom.Cbor
import UldrenLoom.Lib.Wire

/-!
# Pages

The file of a store is an array of pages. A page ends in the checksum of the bytes before it.
-/

namespace UldrenLoom.Store

open ByteString
open Wire (Reader)

def corrupt (msg : String) : LoomError := .corrupt ("loom-store: " ++ msg)

def pageSize : ℕ := 4096

/-- Where the checksum of a page starts. -/
def bodyEnd : ℕ := pageSize - 4

/-- A page. -/
structure Page where
  bytes : Bytes
  length_bytes : bytes.length = pageSize
deriving DecidableEq

def crcShift (crc : UInt32) : UInt32 := (crc >>> 1) ^^^ (0x82F63B78 &&& (0 - (crc &&& 1)))

def crcByte (crc : UInt32) (b : UInt8) : UInt32 :=
  (List.range 8).foldl (fun crc _ => crcShift crc) (crc ^^^ b.toUInt32)

def crc32c (data : Bytes) : UInt32 := ~~~(data.foldl crcByte 0xFFFFFFFF)

namespace Page

def body (page : Page) : Bytes := page.bytes.take bodyEnd

def stored (page : Page) : ℕ := leNat (page.bytes.drop bodyEnd)

def byte (page : Page) (i : ℕ) : UInt8 := page.bytes.getD i 0

/-- Pad a body with zeros and add the checksum. -/
def withCrc (body : Bytes) (h : body.length ≤ bodyEnd) : Page where
  bytes :=
    let body := body ++ List.replicate (bodyEnd - body.length) 0
    body ++ leBytes 4 (crc32c body).toNat
  length_bytes := by
    simp only [List.length_append, List.length_replicate, length_leBytes, bodyEnd, pageSize] at h ⊢
    omega

end Page

/-! ## Records -/

/-- Where a record is: the segment, the page in it and the slot in the page. -/
structure RecordLoc where
  segmentId : UInt64
  pageIndex : UInt64
  slot : UInt32
deriving DecidableEq

namespace RecordLoc

/-- The longest encoding that a node takes. -/
def maxEncodedLen : ℕ := 15

def decode (e : LoomError) : Reader LoomError RecordLoc := do
  let segmentId ← Wire.uvarint e e
  let pageIndex ← Wire.uvarint e e
  let slot ← Wire.uvarint e e
  if 2 ^ 32 ≤ slot.toNat then throw e else pure ⟨segmentId, pageIndex, slot.toUInt32⟩

end RecordLoc

def chunkedBlobMagic : UInt8 := 0xB7

/-- The link of the last page of a chained record. -/
def chunkedEnd : UInt64 := 0xFFFFFFFFFFFFFFFF

def chunkedHeader : ℕ := 21

def chunkedBlobPayloadCapacity : ℕ := pageSize - chunkedHeader - 4

def chunkedBody (chunk : Bytes) (nextPage : Option UInt64) (totalLen : UInt64) : Bytes :=
  chunkedBlobMagic :: (leBytes 8 (nextPage.getD chunkedEnd).toNat ++ leBytes 8 totalLen.toNat ++
    leBytes 4 chunk.length ++ chunk)

theorem length_chunkedBody (chunk : Bytes) (nextPage : Option UInt64) (totalLen : UInt64) :
    (chunkedBody chunk nextPage totalLen).length = chunkedHeader + chunk.length := by
  simp [chunkedBody, chunkedHeader]
  omega

def encodeChunkedBlobPage (chunk : Bytes) (nextPage : Option UInt64) (totalLen : UInt64) :
    Option Page :=
  if h : chunk.length ≤ chunkedBlobPayloadCapacity then
    some (Page.withCrc (chunkedBody chunk nextPage totalLen) (by
      rw [length_chunkedBody]
      simp only [chunkedBlobPayloadCapacity, chunkedHeader, bodyEnd, pageSize] at h ⊢
      omega))
  else none

/-! ## Nodes -/

/-- The codec of the values of a node. -/
inductive ValueCodecKind where
  | recordLoc
  | packedRecordRef
  | freePageExtent
deriving Repr, DecidableEq

/-- A run of free pages, by its start: its length and when it was freed. -/
structure FreePageExtentValue where
  len : UInt64
  freedGen : UInt64
deriving DecidableEq

/-- A value. -/
inductive PageTreeValue where
  | recordLoc (value : RecordLoc)
  | freePageExtent (value : FreePageExtentValue)
deriving DecidableEq

namespace FreePageExtentValue

def encodedLen : ℕ := 16

def decode (bytes : Bytes) : Result FreePageExtentValue :=
  if bytes.length ≠ encodedLen then .error (corrupt "bad free-page extent value length")
  else
    let value : FreePageExtentValue :=
      ⟨UInt64.ofNat (leNat (bytes.take 8)), UInt64.ofNat (leNat (bytes.drop 8))⟩
    if value.len = 0 then .error (corrupt "free-page extent value has zero length") else .ok value

def validateStart (value : FreePageExtentValue) (start : ℕ) : Result Unit :=
  if value.len = 0 then .error (corrupt "free-page extent value has zero length")
  else if 2 ^ 64 ≤ start + value.len.toNat then .error (corrupt "free-page extent range overflow")
  else .ok ()

end FreePageExtentValue

namespace ValueCodecKind

def discriminator : ValueCodecKind → UInt8
  | .recordLoc => 0x00
  | .packedRecordRef => 0x10
  | .freePageExtent => 0x20

def fromDiscriminator (discriminator : UInt8) : Result ValueCodecKind :=
  if discriminator = 0x00 then .ok .recordLoc
  else if discriminator = 0x10 then .ok .packedRecordRef
  else if discriminator = 0x20 then .ok .freePageExtent
  else .error (corrupt "unknown btree node codec discriminator")

def maximumValueWidth : ValueCodecKind → ℕ
  | .recordLoc | .packedRecordRef => RecordLoc.maxEncodedLen
  | .freePageExtent => FreePageExtentValue.encodedLen

def layoutMaxEntries (codec : ValueCodecKind) : ℕ :=
  let value := codec.maximumValueWidth
  min ((bodyEnd - 4) / (32 + value)) ((bodyEnd - 4 - 8) / (32 + value + 8))

def maxEntries (codec : ValueCodecKind) : ℕ :=
  let layout := codec.layoutMaxEntries
  let oddLayout := layout - if layout % 2 = 0 then 1 else 0
  match codec with
  | .recordLoc | .packedRecordRef => min 63 oddLayout
  | .freePageExtent => oddLayout

def decodeLoc : Reader LoomError PageTreeValue := fun buf => do
  let (value, rest) ← RecordLoc.decode (corrupt "btree node bad locator") buf
  if buf.length - rest.length > RecordLoc.maxEncodedLen then
    .error (corrupt "btree record locator exceeds canonical width")
  else .ok (.recordLoc value, rest)

def decodeValue : ValueCodecKind → Reader LoomError PageTreeValue
  | .recordLoc | .packedRecordRef => decodeLoc
  | .freePageExtent => do
    let bytes ← Wire.take (corrupt "btree node truncated free-page extent value")
      FreePageExtentValue.encodedLen
    let value ← FreePageExtentValue.decode bytes
    return .freePageExtent value

def validateEntry (codec : ValueCodecKind) (key : Bytes) (value : PageTreeValue) : Result Unit :=
  match codec, value with
  | .recordLoc, .recordLoc _ | .packedRecordRef, .recordLoc _ => .ok ()
  | .freePageExtent, .freePageExtent value =>
    if (key.take 24).any (· ≠ 0) then .error (corrupt "free-page extent key prefix")
    else value.validateStart (beNat (key.drop 24))
  | _, _ => .error (corrupt "btree value does not match node codec")

end ValueCodecKind

/-- Entries in the order of their keys of 32 bytes and, unless the node is a leaf, one more child
than entries. -/
structure Node where
  codec : ValueCodecKind
  isLeaf : Bool
  entries : List (Bytes × PageTreeValue)
  children : List UInt64
deriving DecidableEq

def nodeMagic : UInt8 := 0xB7

def nodeFlagLeaf : UInt8 := 0x01

def nodeFlagCodecMask : UInt8 := 0xF0

def nodeFlagKnownMask : UInt8 := nodeFlagLeaf ||| nodeFlagCodecMask

namespace Node

def readEntry (codec : ValueCodecKind) : Reader LoomError (Bytes × PageTreeValue) := do
  let key ← Wire.take (corrupt "btree node truncated key") 32
  let value ← codec.decodeValue
  codec.validateEntry key value
  return (key, value)

def readChild : Reader LoomError UInt64 := do
  return UInt64.ofNat (leNat (← Wire.take (corrupt "btree node truncated child") 8))

end Node

def decodeNodePage (page : Page) : Result Node := do
  let flags := page.byte 1
  if (crc32c page.body).toNat ≠ page.stored then .error (corrupt "btree node crc mismatch")
  else if page.byte 0 ≠ nodeMagic then .error (corrupt "bad btree node magic")
  else if flags &&& ~~~nodeFlagKnownMask ≠ 0 then
    .error (corrupt "btree node reserved flag bit set")
  else
    let codec ← ValueCodecKind.fromDiscriminator (flags &&& nodeFlagCodecMask)
    let isLeaf := flags &&& nodeFlagLeaf == nodeFlagLeaf
    let n := leNat [page.byte 2, page.byte 3]
    if n = 0 ∨ codec.maxEntries < n then .error (corrupt "btree node entry count out of range")
    else
      let (entries, rest) ← Wire.times (Node.readEntry codec) n (page.body.drop 4)
      let (children, _) ← Wire.times Node.readChild (if isLeaf then 0 else n + 1) rest
      .ok ⟨codec, isLeaf, entries, children⟩

/-- The test by which pages are classified as pages of a tree. -/
def looksLikeNodePage (page : Page) : Bool := (decodeNodePage page).isOk

end UldrenLoom.Store
