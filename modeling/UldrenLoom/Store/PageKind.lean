import UldrenLoom.Lib.Grammar
import UldrenLoom.Store.Page

/-!
# Telling pages apart

A page of a chained record and a page of a tree start with the same byte and end in the same
checksum. The link to the next page of the record stands where the flags and the number of entries of
a node stand.

* **`looksLikeNodePage_iff`**: the pages that are taken for pages of a tree.
* **`chunked_not_node_iff`**: which pages of chained records are not.
-/

namespace UldrenLoom.Store

open ByteString Fallible Wire List

/-! ## The text of a node -/

/-- A locator: three numbers, the last one of 32 bits, in at most 15 bytes. -/
def LocatorText (bs : Bytes) : Prop :=
  ∃ segment page slot, bs = segment ++ page ++ slot ∧ IsUvarint segment ∧ IsUvarint page ∧
    IsUvarint slot ∧ (uvarintValue slot).toNat < 2 ^ 32 ∧ bs.length ≤ RecordLoc.maxEncodedLen

def ValueText (codec : ValueCodecKind) (key bs : Bytes) : Prop :=
  match codec with
  | .recordLoc | .packedRecordRef => LocatorText bs
  | .freePageExtent => bs.length = FreePageExtentValue.encodedLen ∧ (∀ b ∈ key.take 24, b = 0) ∧
    0 < leNat (bs.take 8) ∧ beNat (key.drop 24) + leNat (bs.take 8) < 2 ^ 64

def EntryText (codec : ValueCodecKind) (bs : Bytes) : Prop :=
  ∃ key value, bs = key ++ value ∧ key.length = 32 ∧ ValueText codec key value

/-- The text of a node after its flags and its number of entries, and whatever fills the page. -/
def NodeText (flags : UInt8) (n : ℕ) (text : Bytes) : Prop :=
  ∃ (codec : ValueCodecKind) (isLeaf : Bool),
    flags = (codec.discriminator ||| if isLeaf then nodeFlagLeaf else 0) ∧
    0 < n ∧ n ≤ codec.maxEntries ∧ ∃ (entries : List Bytes) (children rest : Bytes),
      text = entries.flatten ++ children ++ rest ∧ entries.length = n ∧
      (∀ e ∈ entries, EntryText codec e) ∧ children.length = if isLeaf then 0 else 8 * (n + 1)

/-! ## What the readers take -/

theorem takes_recordLoc (e : LoomError) :
    Takes (RecordLoc.decode e) fun bs v => ∃ segment page slot, bs = segment ++ page ++ slot ∧
      IsUvarint segment ∧ IsUvarint page ∧ IsUvarint slot ∧ (uvarintValue slot).toNat < 2 ^ 32 ∧
      v = ⟨uvarintValue segment, uvarintValue page, (uvarintValue slot).toUInt32⟩ := by
  have hcheck : ∀ segment page slot : UInt64, Takes (if 2 ^ 32 ≤ slot.toNat then throw e
      else pure ⟨segment, page, slot.toUInt32⟩ : Reader LoomError RecordLoc)
      fun bs v => bs = [] ∧ slot.toNat < 2 ^ 32 ∧ v = ⟨segment, page, slot.toUInt32⟩ := by
    intro segment page slot
    split_ifs with h
    · refine (takes_lift (Except.error e)).congr fun bs v => ⟨fun ⟨_, h'⟩ => ?_, fun h' => ?_⟩
      · cases h'
      · exact absurd h'.2.1 (Nat.not_lt.mpr h)
    · exact (takes_pure _).congr fun bs v => and_congr_right fun _ =>
        ⟨fun hv => ⟨Nat.not_le.mp h, hv⟩, And.right⟩
  refine ((takes_uvarint e e).bind fun segment => (takes_uvarint e e).bind fun page =>
    (takes_uvarint e e).bind fun slot => hcheck segment page slot).congr fun bs v => ⟨?_, ?_⟩
  · rintro ⟨_, as, _, rfl, ⟨ha, rfl⟩, _, bs, _, rfl, ⟨hb, rfl⟩, _, cs, _, rfl, ⟨hc, rfl⟩, rfl, hlt,
      rfl⟩
    exact ⟨as, bs, cs, by simp, ha, hb, hc, hlt, rfl⟩
  · rintro ⟨as, bs, cs, rfl, ha, hb, hc, hlt, rfl⟩
    exact ⟨_, as, bs ++ cs, by simp, ⟨ha, rfl⟩, _, bs, cs, rfl, ⟨hb, rfl⟩, _, cs, [], by simp,
      ⟨hc, rfl⟩, rfl, hlt, rfl⟩

theorem takes_decodeLoc : Takes ValueCodecKind.decodeLoc fun bs v => LocatorText bs ∧
    ∃ loc, v = .recordLoc loc ∧ ∀ rest, RecordLoc.decode (corrupt "btree node bad locator")
      (bs ++ rest) = .ok (loc, rest) := by
  intro buf v rest
  have hloc := takes_recordLoc (corrupt "btree node bad locator")
  rw [ValueCodecKind.decodeLoc, bind_eq_ok]
  constructor
  · rintro ⟨⟨loc, rest'⟩, hl, h⟩
    obtain ⟨bs, rfl, hbs⟩ := (hloc _ _ _).mp hl
    rw [ite_error_eq_ok, length_append, Nat.add_sub_cancel] at h
    obtain ⟨hlen, h⟩ := h
    cases h
    obtain ⟨a, b, c, heq, ha, hb, hc, hlt, hv⟩ := id hbs
    refine ⟨bs, rfl, ⟨a, b, c, heq, ha, hb, hc, hlt, not_lt.mp hlen⟩, loc, rfl, fun rest => ?_⟩
    exact (hloc _ _ _).mpr ⟨bs, rfl, hbs⟩
  · rintro ⟨bs, rfl, ⟨_, _, _, _, _, _, _, _, hlen⟩, loc, rfl, hdec⟩
    refine ⟨(loc, rest), hdec rest, ?_⟩
    dsimp only
    rw [length_append, Nat.add_sub_cancel, if_neg (not_lt.mpr hlen)]

theorem exists_decodeLoc {bs : Bytes} (h : LocatorText bs) : ∃ loc, ∀ rest,
    RecordLoc.decode (corrupt "btree node bad locator") (bs ++ rest) = .ok (loc, rest) := by
  obtain ⟨a, b, c, rfl, ha, hb, hc, hlt, -⟩ := h
  exact ⟨_, fun rest => (takes_recordLoc _ _ _ _).mpr ⟨_, rfl, a, b, c, rfl, ha, hb, hc, hlt, rfl⟩⟩

theorem toNat_ofNat_leNat {bs : Bytes} (h : bs.length = 16) :
    (UInt64.ofNat (leNat (bs.take 8))).toNat = leNat (bs.take 8) := by
  refine UInt64.toNat_ofNat_of_lt' ?_
  have := beNat_lt (bs.take 8).reverse
  rwa [length_reverse, length_take, h] at this

theorem decode_extent {bs : Bytes} {value : FreePageExtentValue} :
    FreePageExtentValue.decode bs = .ok value ↔ bs.length = FreePageExtentValue.encodedLen ∧
      0 < leNat (bs.take 8) ∧
        value = ⟨UInt64.ofNat (leNat (bs.take 8)), UInt64.ofNat (leNat (bs.drop 8))⟩ := by
  unfold FreePageExtentValue.decode
  simp only [ite_error_eq_ok, not_not, Except.ok.injEq]
  refine and_congr_right fun hl => ?_
  rw [← UInt64.toNat_inj, toNat_ofNat_leNat hl, eq_comm (a := value)]
  exact and_congr_left fun _ => Nat.pos_iff_ne_zero.symm

theorem validate_extent {key bs : Bytes} {value : FreePageExtentValue}
    (h : FreePageExtentValue.decode bs = .ok value) :
    ValueCodecKind.validateEntry .freePageExtent key (.freePageExtent value) = .ok () ↔
      (∀ b ∈ key.take 24, b = 0) ∧ beNat (key.drop 24) + leNat (bs.take 8) < 2 ^ 64 := by
  obtain ⟨hl, hpos, rfl⟩ := decode_extent.mp h
  have hne : UInt64.ofNat (leNat (bs.take 8)) ≠ 0 := fun h0 => by
    have := toNat_ofNat_leNat hl
    rw [h0] at this
    exact absurd this (ne_of_lt hpos)
  simp only [ValueCodecKind.validateEntry, ite_error_eq_ok, FreePageExtentValue.validateStart, hne,
    toNat_ofNat_leNat hl, not_le, if_false, and_true]
  simp

/-- **The strings that read as an entry.** -/
theorem accepts_readEntry (codec : ValueCodecKind) :
    Accepts (Node.readEntry codec) (EntryText codec) := by
  have hchain : ∀ {G : Bytes → PageTreeValue → Prop}, Takes codec.decodeValue G →
      (∀ key bs, (∃ v, G bs v ∧ codec.validateEntry key v = .ok ()) ↔ ValueText codec key bs) →
      Accepts (Node.readEntry codec) (EntryText codec) := by
    intro G hG hval
    refine ⟨_, (takes_take (corrupt "btree node truncated key") 32).bind fun key => hG.bind fun v =>
      (takes_lift (codec.validateEntry key v)).bind fun _ => takes_pure (key, v), fun bs => ⟨?_, ?_⟩⟩
    · rintro ⟨_, key, _, _, rfl, ⟨hlen, rfl⟩, v, value, _, rfl, hv, _, _, _, rfl, ⟨rfl, hok⟩, rfl, rfl⟩
      exact ⟨key, value, by simp, hlen, (hval _ _).mp ⟨v, hv, hok⟩⟩
    · rintro ⟨key, value, rfl, hlen, hv⟩
      obtain ⟨v, hv, hok⟩ := (hval _ _).mpr hv
      exact ⟨(key, v), key, key, value, rfl, ⟨hlen, rfl⟩, v, value, [], by simp, hv, (), [], [], rfl,
        ⟨rfl, hok⟩, rfl, rfl⟩
  cases codec with
  | recordLoc | packedRecordRef =>
    refine hchain takes_decodeLoc fun key bs => ⟨fun ⟨v, ⟨h, _⟩, _⟩ => h, fun h => ?_⟩
    obtain ⟨loc, hdec⟩ := exists_decodeLoc h
    exact ⟨_, ⟨h, loc, rfl, hdec⟩, rfl⟩
  | freePageExtent =>
    refine hchain ((takes_take (corrupt "btree node truncated free-page extent value")
      FreePageExtentValue.encodedLen).bind fun bytes =>
        (takes_lift (FreePageExtentValue.decode bytes)).bind fun value =>
          takes_pure (PageTreeValue.freePageExtent value)) fun key bs => ⟨?_, ?_⟩
    · rintro ⟨_, ⟨bytes, _, _, rfl, ⟨hlen, rfl⟩, value, _, _, rfl, ⟨rfl, hdec⟩, rfl, rfl⟩, hok⟩
      obtain ⟨hzero, hlt⟩ := (validate_extent hdec).mp hok
      simp only [append_nil]
      exact ⟨hlen, hzero, (decode_extent.mp hdec).2.1, hlt⟩
    · rintro ⟨hlen, hzero, hpos, hlt⟩
      have hdec := decode_extent.mpr ⟨hlen, hpos, rfl⟩
      exact ⟨_, ⟨bs, bs, [], by simp, ⟨hlen, rfl⟩, _, [], [], rfl, ⟨rfl, hdec⟩, rfl, rfl⟩,
        (validate_extent hdec).mpr ⟨hzero, hlt⟩⟩

theorem accepts_readChild : Accepts Node.readChild fun bs => bs.length = 8 := by
  refine ⟨_, (takes_take (corrupt "btree node truncated child") 8).bind fun bs =>
    takes_pure (UInt64.ofNat (leNat bs)), fun bs => ⟨?_, ?_⟩⟩
  · rintro ⟨_, _, _, _, rfl, ⟨hlen, rfl⟩, rfl, rfl⟩
    rw [append_nil]
    exact hlen
  · exact fun hlen => ⟨_, bs, bs, [], by simp, ⟨hlen, rfl⟩, rfl, rfl⟩

/-! ## Pages of a tree -/

theorem flags_iff (flags : UInt8) (codec : ValueCodecKind) (isLeaf : Bool) :
    flags = (codec.discriminator ||| if isLeaf then nodeFlagLeaf else 0) ↔
      flags &&& ~~~nodeFlagKnownMask = 0 ∧
        ValueCodecKind.fromDiscriminator (flags &&& nodeFlagCodecMask) = .ok codec ∧
        (flags &&& nodeFlagLeaf == nodeFlagLeaf) = isLeaf := by
  revert flags
  cases codec <;> cases isLeaf <;> decide +kernel

/-- **The pages that are taken for pages of a tree.** -/
theorem looksLikeNodePage_iff (page : Page) :
    looksLikeNodePage page = true ↔ (crc32c page.body).toNat = page.stored ∧
      page.byte 0 = nodeMagic ∧
      NodeText (page.byte 1) (leNat [page.byte 2, page.byte 3]) (page.body.drop 4) := by
  have hok : looksLikeNodePage page = true ↔ ∃ node, decodeNodePage page = .ok node := by
    rw [looksLikeNodePage]
    cases decodeNodePage page <;> simp [Except.isOk, Except.toBool]
  have hbody : ∀ (codec : ValueCodecKind) (isLeaf : Bool) (n : ℕ) (text : Bytes),
      (∃ entries rest children rest', times (Node.readEntry codec) n text = .ok (entries, rest) ∧
        times Node.readChild (if isLeaf then 0 else n + 1) rest = .ok (children, rest')) ↔
      ∃ (entries : List Bytes) (children rest : Bytes), text = entries.flatten ++ children ++ rest ∧
        entries.length = n ∧ (∀ e ∈ entries, EntryText codec e) ∧
        children.length = if isLeaf then 0 else 8 * (n + 1) := by
    intro codec isLeaf n text
    rw [((accepts_readEntry codec).times n).then fun _ => accepts_readChild.times _]
    simp only [exists_fields_iff]
    constructor
    · rintro ⟨_, children, rest, htext, ⟨entries, hl, rfl, he⟩, hc⟩
      exact ⟨entries, children, rest, htext, hl, he, by split_ifs at hc ⊢ <;> simpa using hc⟩
    · rintro ⟨entries, children, rest, htext, hl, he, hc⟩
      exact ⟨_, children, rest, htext, ⟨entries, hl, rfl, he⟩, by split_ifs at hc ⊢ <;> simpa using hc⟩
  rw [hok]
  unfold decodeNodePage
  simp only [ite_error_eq_ok, not_not, exists_and_left, bind_eq_ok]
  refine and_congr_right fun _ => and_congr_right fun _ => ⟨?_, ?_⟩
  · rintro ⟨hmask, _, codec, hcodec, hn, ⟨entries, rest⟩, he, ⟨children, rest'⟩, hc, -⟩
    rw [not_or, not_lt] at hn
    exact ⟨codec, _, (flags_iff _ _ _).mpr ⟨hmask, hcodec, rfl⟩, Nat.pos_of_ne_zero hn.1, hn.2,
      (hbody codec _ _ _).mp ⟨entries, rest, children, rest', he, hc⟩⟩
  · rintro ⟨codec, isLeaf, hflags, hpos, hmax, htext⟩
    obtain ⟨hmask, hcodec, rfl⟩ := (flags_iff _ _ _).mp hflags
    obtain ⟨entries, rest, children, rest', he, hc⟩ := (hbody codec _ _ _).mpr htext
    exact ⟨hmask, _, codec, hcodec, by rw [not_or, not_lt]; exact ⟨hpos.ne', hmax⟩, (entries, rest),
      he, (children, rest'), hc, rfl⟩

/-! ## Pages of chained records -/

theorem body_withCrc {body : Bytes} (h : body.length ≤ bodyEnd) :
    (Page.withCrc body h).body = body ++ List.replicate (bodyEnd - body.length) 0 := by
  rw [Page.body, Page.withCrc]
  refine take_left' ?_
  rw [length_append, length_replicate]
  omega

theorem stored_withCrc {body : Bytes} (h : body.length ≤ bodyEnd) :
    (Page.withCrc body h).stored = (crc32c (Page.withCrc body h).body).toNat := by
  rw [body_withCrc, Page.stored, Page.withCrc]
  rw [drop_left' (by rw [length_append, length_replicate]; omega),
    leNat_leBytes_of_lt (UInt32.toNat_lt _)]

/-- The text of a page of a chained record after the first three bytes of the link. -/
def chunkedText (chunk : Bytes) (link totalLen : ℕ) : Bytes :=
  leBytes 5 (link / 2 ^ 24) ++ leBytes 8 totalLen ++ leBytes 4 chunk.length ++ chunk ++
    List.replicate (chunkedBlobPayloadCapacity - chunk.length) 0

def linkOf (nextPage : Option UInt64) : ℕ := (nextPage.getD chunkedEnd).toNat

theorem chunked_page {chunk : Bytes} {nextPage : Option UInt64} {totalLen : UInt64} {page : Page}
    (h : encodeChunkedBlobPage chunk nextPage totalLen = some page) :
    (crc32c page.body).toNat = page.stored ∧ page.byte 0 = nodeMagic ∧
      page.byte 1 = UInt8.ofNat (linkOf nextPage) ∧
      leNat [page.byte 2, page.byte 3] = linkOf nextPage / 256 % 65536 ∧
      page.body.drop 4 = chunkedText chunk (linkOf nextPage) totalLen.toNat := by
  unfold encodeChunkedBlobPage at h
  split_ifs at h with hle
  cases h
  have hbody : chunkedBody chunk nextPage totalLen = chunkedBlobMagic ::
      UInt8.ofNat (linkOf nextPage) :: UInt8.ofNat (linkOf nextPage / 256) ::
      UInt8.ofNat (linkOf nextPage / 256 / 256) :: (leBytes 5 (linkOf nextPage / 256 / 256 / 256) ++
        leBytes 8 totalLen.toNat ++ leBytes 4 chunk.length ++ chunk) := by
    rw [chunkedBody, linkOf, leBytes_succ, leBytes_succ, leBytes_succ]
    simp
  refine ⟨(stored_withCrc _).symm, ?_, ?_, ?_, ?_⟩
  · simp [Page.byte, Page.withCrc, hbody, chunkedBlobMagic, nodeMagic]
  · simp [Page.byte, Page.withCrc, hbody]
  · simp [Page.byte, Page.withCrc, hbody, leNat, beNat, Nat.div_div_eq_div_mul]
    omega
  · rw [body_withCrc, length_chunkedBody, hbody, chunkedText]
    simp only [cons_append, drop_succ_cons, drop_zero, Nat.div_div_eq_div_mul]
    congr 2
    simp only [bodyEnd, chunkedHeader, chunkedBlobPayloadCapacity, pageSize]
    omega

/-- **Which pages of chained records are not taken for pages of a tree.** -/
theorem chunked_not_node_iff (chunk : Bytes) (nextPage : Option UInt64) (totalLen : UInt64)
    {page : Page} (h : encodeChunkedBlobPage chunk nextPage totalLen = some page) :
    looksLikeNodePage page = false ↔
      ¬ NodeText (UInt8.ofNat (linkOf nextPage)) (linkOf nextPage / 256 % 65536)
        (chunkedText chunk (linkOf nextPage) totalLen.toNat) := by
  obtain ⟨hcrc, hmagic, hflags, hn, htext⟩ := chunked_page h
  rw [← Bool.not_eq_true, looksLikeNodePage_iff, hflags, hn, htext]
  exact not_congr ⟨fun h => h.2.2, fun h => ⟨hcrc, hmagic, h⟩⟩

/-- The first page of a record of 8142 zeros whose second page is 257 is taken for a leaf. -/
theorem chunked_page_is_node : ∃ page,
    encodeChunkedBlobPage (List.replicate 4071 0) (some 257) 8142 = some page ∧
      looksLikeNodePage page = true := by
  obtain ⟨page, hpage⟩ : ∃ page,
      encodeChunkedBlobPage (List.replicate 4071 0) (some 257) 8142 = some page :=
    ⟨_, dif_pos (by decide +kernel)⟩
  obtain ⟨hcrc, hmagic, hflags, hn, htext⟩ := chunked_page hpage
  refine ⟨page, hpage, (looksLikeNodePage_iff page).mpr ⟨hcrc, hmagic, ?_⟩⟩
  rw [hflags, hn, htext]
  have hvalue : ((chunkedText (List.replicate 4071 0) 257 8142).drop 32).take 3 = [0, 0, 0] := by
    decide +kernel
  -- one entry: the key is the header and the first zeros, the locator the next three
  refine ⟨.recordLoc, true, rfl, by decide, by decide, [(chunkedText (List.replicate 4071 0) 257
    8142).take 35], [], (chunkedText (List.replicate 4071 0) 257 8142).drop 35, ?_, rfl, ?_, rfl⟩
  · rfl
  · rw [forall_mem_singleton]
    refine ⟨_, _, take_add (i := 32) (j := 3), by decide +kernel, ?_⟩
    rw [hvalue]
    exact ⟨[0], [0], [0], rfl, by simp [IsUvarint, IsGroups], by simp [IsUvarint, IsGroups],
      by simp [IsUvarint, IsGroups], by decide, by decide⟩

/-- If the second page is 258, it is not: no node has the flags 2. -/
theorem chunked_not_node_zeros : ∃ page,
    encodeChunkedBlobPage (List.replicate 4071 0) (some 258) 8142 = some page ∧
      looksLikeNodePage page = false := by
  obtain ⟨page, hpage⟩ : ∃ page,
      encodeChunkedBlobPage (List.replicate 4071 0) (some 258) 8142 = some page :=
    ⟨_, dif_pos (by decide +kernel)⟩
  refine ⟨page, hpage, (chunked_not_node_iff _ _ _ hpage).mpr ?_⟩
  rintro ⟨codec, isLeaf, hflags, -⟩
  cases codec <;> cases isLeaf <;> exact absurd hflags (by decide)

end UldrenLoom.Store
