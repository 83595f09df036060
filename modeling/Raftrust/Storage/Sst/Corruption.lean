import Raftrust.Storage.Sst.Checked

/-!
# Corrupt SSTables

An SSTable has no checksum, and not every number in it is compared with the bounds before it is
used: the ends of the two sections are sums that may overflow, a Bloom filter may claim to have no
bits or too many, and an index entry may describe a block outside the file. Files without such
numbers are read or reported, whatever else is in them.
-/

namespace Raftrust.Storage

open Lib

namespace SSTableReader

/-! ### Opening -/

lemma safe_readFooter (data : Bytes) : Safe (readFooter data) := by
  rw [readFooter]
  split
  · exact safe_error _
  · rw [Footer.decode]
    split
    · exact safe_error _
    · exact safe_ok _

/-- The end of a section is not compared with the size of a word. -/
lemma safe_readSectionChecked_iff {data : Bytes} {offset size : ℕ} {msg : String} :
    Safe (readSectionChecked data offset size msg) ↔ offset + size < 2 ^ 64 := by
  rw [readSectionChecked]
  by_cases h : offset + size < 2 ^ 64
  · rw [checkedAdd_of_lt h]
    simp only [bind, Except.bind, h, iff_true]
    split
    · exact safe_error _
    · rw [slice_of_le (Nat.le_add_right _ _) (by omega)]
      exact safe_ok _
  · rw [checkedAdd_of_le (not_lt.mp h)]
    simp only [h, iff_false]
    exact fun hsafe => hsafe rfl

lemma readSectionChecked_eq {offset size : ℕ} (h : offset + size < 2 ^ 64) (data : Bytes)
    (msg : String) :
    readSectionChecked data offset size msg = readSection data offset size msg := by
  rw [readSectionChecked, readSection, checkedAdd_of_lt h, Nat.mod_eq_of_lt h]
  rfl

lemma length_of_readSection {data bytes : Bytes} {offset size : ℕ} {msg : String}
    (h : readSection data offset size msg = .ok bytes) : bytes.length ≤ data.length := by
  rw [readSection] at h
  split at h
  · cases h
  · rw [slice] at h
    split at h
    · obtain rfl := Except.ok.inj h
      rw [List.length_take, List.length_drop]
      omega
    · cases h

section

variable [BitVecLimit]

lemma parseBloomChecked_eq {data : Bytes} (h : data.length < 2 ^ 63) (numHashes : ℕ) :
    parseBloomChecked data numHashes = parseBloom data numHashes >>= fun bloom =>
      if BitVecLimit.maxBits < bloom.numBits then .error .panicked else .ok bloom := by
  rw [parseBloomChecked, parseBloom]
  split
  · rfl
  · rw [leAt_of_le (by omega) (by omega)]
    simp only [bind, Except.bind]
    rw [slice_of_le (by omega) le_rfl]
    simp only [List.drop_zero]
    rw [List.take_of_length_le (by rw [List.length_drop])]
    rfl

lemma safe_parseBloomChecked_iff {data : Bytes} (h : data.length < 2 ^ 63) {numHashes : ℕ} :
    Safe (parseBloomChecked data numHashes) ↔
      ∀ bloom, parseBloom data numHashes = .ok bloom → bloom.numBits ≤ BitVecLimit.maxBits := by
  have hparse : Safe (parseBloom data numHashes) := by
    rw [parseBloom]
    split
    · exact safe_error _
    · exact safe_ok _
  rw [parseBloomChecked_eq h, safe_bind_iff, and_iff_right hparse]
  refine forall₂_congr fun bloom _ => ?_
  split
  · next hlt => exact iff_of_false (fun hsafe => hsafe rfl) (not_le.mpr hlt)
  · next hle => exact iff_of_true (safe_ok _) (not_lt.mp hle)

/-- The footer and, where it is read, the index leave no sum that overflows, and the filter has no
more bits than a bit vector can have. -/
structure Opens (data : Bytes) : Prop where
  index_end : ∀ footer, readFooter data = .ok footer →
    footer.indexOffset + footer.indexSize < 2 ^ 64
  bloom_end : ∀ footer index, readFooter data = .ok footer →
    (readSection data footer.indexOffset footer.indexSize "index extends past file" >>=
      parseIndex) = .ok index → footer.bloomOffset + footer.bloomSize < 2 ^ 64
  numBits : ∀ r, openBytes data = .ok r → r.bloom.numBits ≤ BitVecLimit.maxBits

omit [BitVecLimit] in
lemma openBytes_eq_ok_iff {data : Bytes} {r : SSTableReader} :
    openBytes data = .ok r ↔ ∃ footer indexData index bloomData bloom,
      readFooter data = .ok footer ∧
      readSection data footer.indexOffset footer.indexSize "index extends past file" =
        .ok indexData ∧ parseIndex indexData = .ok index ∧
      readSection data footer.bloomOffset footer.bloomSize "bloom filter extends past file" =
        .ok bloomData ∧ parseBloom bloomData footer.bloomNumHashes = .ok bloom ∧
      r = ⟨data, index, bloom⟩ := by
  simp only [openBytes, bind_eq_ok_iff]
  constructor
  · rintro ⟨footer, hfooter, indexData, hsection, index, hindex, bloomData, hsection', bloom,
      hbloom, hr⟩
    exact ⟨footer, indexData, index, bloomData, bloom, hfooter, hsection, hindex, hsection', hbloom,
      (Except.ok.inj hr).symm⟩
  · rintro ⟨footer, indexData, index, bloomData, bloom, hfooter, hsection, hindex, hsection',
      hbloom, rfl⟩
    exact ⟨footer, hfooter, indexData, hsection, index, hindex, bloomData, hsection', bloom, hbloom,
      rfl⟩

variable {data : Bytes} (hdata : data.length < 2 ^ 63)

include hdata

omit [BitVecLimit] in
lemma length_lt_of_readSection {offset size : ℕ} {msg : String} {bytes : Bytes}
    (h : readSection data offset size msg = .ok bytes) : bytes.length < 2 ^ 63 :=
  (length_of_readSection h).trans_lt hdata

lemma opens_of_safe (h : Safe (openChecked data)) : Opens data := by
  have h := (safe_bind_iff.mp h).2
  have hindex : ∀ footer, readFooter data = .ok footer →
      footer.indexOffset + footer.indexSize < 2 ^ 64 := fun footer hfooter =>
    safe_readSectionChecked_iff.mp (safe_bind_iff.mp (h footer hfooter)).1
  -- what happens once the index has been parsed
  have hrest : ∀ footer indexData index, readFooter data = .ok footer →
      readSection data footer.indexOffset footer.indexSize "index extends past file" =
        .ok indexData → parseIndex indexData = .ok index →
      footer.bloomOffset + footer.bloomSize < 2 ^ 64 ∧ ∀ bloomData,
        readSection data footer.bloomOffset footer.bloomSize "bloom filter extends past file" =
          .ok bloomData → Safe (parseBloomChecked bloomData footer.bloomNumHashes) := by
    intro footer indexData index hfooter hsection hparsed
    have hsafe := (safe_bind_iff.mp (h footer hfooter)).2 indexData
      ((readSectionChecked_eq (hindex footer hfooter) _ _).trans hsection)
    have hsafe := (safe_bind_iff.mp hsafe).2 index
      ((parseIndexChecked_eq (length_lt_of_readSection hdata hsection)).trans hparsed)
    have hend := safe_readSectionChecked_iff.mp (safe_bind_iff.mp hsafe).1
    refine ⟨hend, fun bloomData hbloom => ?_⟩
    exact (safe_bind_iff.mp ((safe_bind_iff.mp hsafe).2 bloomData
      ((readSectionChecked_eq hend _ _).trans hbloom))).1
  refine ⟨hindex, fun footer index hfooter hindex => ?_, fun r hr => ?_⟩
  · obtain ⟨indexData, hsection, hparsed⟩ := bind_eq_ok_iff.mp hindex
    exact (hrest footer indexData index hfooter hsection hparsed).1
  · obtain ⟨footer, indexData, index, bloomData, bloom, hfooter, hsection, hparsed, hsection',
      hbloom, rfl⟩ := openBytes_eq_ok_iff.mp hr
    have hsafe := (hrest footer indexData index hfooter hsection hparsed).2 bloomData hsection'
    exact (safe_parseBloomChecked_iff (length_lt_of_readSection hdata hsection')).mp hsafe bloom
      hbloom

lemma Opens.safe (h : Opens data) : Safe (openChecked data) := by
  rw [openChecked, safe_bind_iff]
  refine ⟨safe_readFooter data, fun footer hfooter => ?_⟩
  have hend := h.index_end footer hfooter
  refine safe_bind_iff.mpr ⟨safe_readSectionChecked_iff.mpr hend, fun indexData hsection => ?_⟩
  rw [readSectionChecked_eq hend] at hsection
  rw [parseIndexChecked_eq (length_lt_of_readSection hdata hsection)]
  refine safe_bind_iff.mpr ⟨safe_parseIndex indexData, fun index hparsed => ?_⟩
  have hend' := h.bloom_end footer index hfooter (bind_eq_ok_iff.mpr ⟨_, hsection, hparsed⟩)
  refine safe_bind_iff.mpr ⟨safe_readSectionChecked_iff.mpr hend', fun bloomData hsection' => ?_⟩
  rw [readSectionChecked_eq hend'] at hsection'
  refine safe_bind_iff.mpr ⟨?_, fun bloom _ => safe_ok _⟩
  refine (safe_parseBloomChecked_iff (length_lt_of_readSection hdata hsection')).mpr ?_
  intro bloom hbloom
  exact h.numBits ⟨data, index, bloom⟩ (openBytes_eq_ok_iff.mpr
    ⟨footer, indexData, index, bloomData, bloom, hfooter, hsection, hparsed, hsection', hbloom,
      rfl⟩)

lemma safe_openChecked_iff : Safe (openChecked data) ↔ Opens data :=
  ⟨opens_of_safe hdata, Opens.safe hdata⟩

/-- Where it does not panic it does what it does in machine words that wrap around. -/
lemma Opens.openChecked_eq (h : Opens data) : openChecked data = openBytes data := by
  rw [openChecked, openBytes]
  refine bind_congr_of_ok fun footer hfooter => ?_
  rw [readSectionChecked_eq (h.index_end footer hfooter)]
  refine bind_congr_of_ok fun indexData hsection => ?_
  rw [parseIndexChecked_eq (length_lt_of_readSection hdata hsection)]
  refine bind_congr_of_ok fun index hparsed => ?_
  rw [readSectionChecked_eq (h.bloom_end footer index hfooter
    (bind_eq_ok_iff.mpr ⟨_, hsection, hparsed⟩))]
  refine bind_congr_of_ok fun bloomData hsection' => ?_
  rw [parseBloomChecked_eq (length_lt_of_readSection hdata hsection')]
  cases hbloom : parseBloom bloomData footer.bloomNumHashes with
  | error e => rfl
  | ok bloom =>
    have hle := h.numBits ⟨data, index, bloom⟩ (openBytes_eq_ok_iff.mpr
      ⟨footer, indexData, index, bloomData, bloom, hfooter, hsection, hparsed, hsection', hbloom,
        rfl⟩)
    simp only [bind, Except.bind, if_neg (not_lt.mpr hle)]

end

/-! ### Reading -/

/-- The block that an index entry describes is inside the file. -/
def Inside (data : Bytes) (e : IndexEntry) : Prop :=
  e.offset + e.size ≤ data.length
  deriving Decidable

section

variable {data : Bytes} (hdata : data.length < 2 ^ 63)

include hdata

lemma readBlockChecked_of_inside {e : IndexEntry} (h : Inside data e) :
    readBlockChecked data e = readBlock data e := by
  have hend : e.offset + e.size < 2 ^ 64 := Nat.lt_of_le_of_lt h (by omega)
  have hslice := slice_of_le (Nat.le_add_right e.offset e.size) h
  rw [readBlockChecked, readBlock, checkedAdd_of_lt hend, Nat.mod_eq_of_lt hend]
  simp only [bind, Except.bind, hslice]
  rw [BlockReader.readEntriesChecked_eq]
  rw [List.length_take, List.length_drop]
  omega

lemma safe_readBlockChecked_iff {e : IndexEntry} :
    Safe (readBlockChecked data e) ↔ Inside data e := by
  constructor
  · intro hsafe
    by_contra hout
    refine hsafe ?_
    rw [readBlockChecked]
    by_cases hend : e.offset + e.size < 2 ^ 64
    · rw [checkedAdd_of_lt hend]
      simp only [bind, Except.bind]
      rw [slice_of_lt (not_le.mp hout)]
    · rw [checkedAdd_of_le (not_lt.mp hend)]
      rfl
  · intro h
    have hslice := slice_of_le (Nat.le_add_right e.offset e.size) h
    rw [readBlockChecked_of_inside hdata h, readBlock,
      Nat.mod_eq_of_lt (Nat.lt_of_le_of_lt h (by omega)), hslice]
    exact BlockReader.safe_readEntries _

/-- The blocks that are read one after the other, up to the first that is corrupt, are inside the
file. -/
def ScansInside (data : Bytes) (index : List IndexEntry) : Prop :=
  ∀ (i : ℕ) (e : IndexEntry), index[i]? = some e →
    (∀ j < i, ∀ e', index[j]? = some e' → ∃ entries, readBlock data e' = .ok entries) →
    Inside data e

lemma safe_iterChecked_iff {index : List IndexEntry} {bloom : BloomFilter} :
    Safe (iterChecked ⟨data, index, bloom⟩) ↔ ScansInside data index := by
  have hloop : Safe (iterChecked ⟨data, index, bloom⟩) ↔
      Safe (index.mapM (readBlockChecked data)) := by
    rw [iterChecked, safe_bind_iff]
    exact ⟨fun h => h.1, fun h => ⟨h, fun _ _ => safe_ok _⟩⟩
  rw [hloop, safe_mapM_iff]
  constructor
  · intro h i
    -- the blocks before are inside, so that checking them changes nothing
    induction i using Nat.strong_induction_on with
    | _ i ih =>
      intro e he hbefore
      refine (safe_readBlockChecked_iff hdata).mp (h i e he fun j hj e' he' => ?_)
      rw [readBlockChecked_of_inside hdata (ih j hj e' he' fun k hk => hbefore k (hk.trans hj))]
      exact hbefore j hj e' he'
  · intro h i e he hbefore
    refine (safe_readBlockChecked_iff hdata).mpr (h i e he fun j hj e' he' => ?_)
    obtain ⟨entries, hentries⟩ := hbefore j hj e' he'
    have hinside : Inside data e' := by
      refine (safe_readBlockChecked_iff hdata).mp ?_
      rw [hentries]
      exact safe_ok _
    exact ⟨entries, by rw [← readBlockChecked_of_inside hdata hinside, hentries]⟩

end

/-- A place that a search returns is one of the list. -/
lemma getElem?_of_search {entries : List BlockEntry} {key : Bytes} {i : ℕ}
    (h : BlockReader.search entries key = some i) : ∃ e, entries[i]? = some e := by
  rw [BlockReader.search, binarySearchBy] at h
  split at h
  · cases h
  · dsimp only at h
    split at h
    · next heq =>
      obtain rfl := Option.some.inj h
      obtain ⟨e, he, -⟩ := Option.map_eq_some_iff.mp heq
      exact ⟨e, he⟩
    · cases h
    · cases h

variable [BloomHash]

/-- A filter without bits asks for none, and the block of every key that passes the filter is inside
the file. -/
structure FindsInside (r : SSTableReader) : Prop where
  hashes : r.bloom.numBits = 0 → r.bloom.numHashes = 0
  found : ∀ key e, r.bloom.mayContain key = .ok true → r.index[findBlock r.index key]? = some e →
    Inside r.data e

lemma safe_mayContain_iff (f : BloomFilter) (key : Bytes) :
    Safe (f.mayContain key) ↔ (f.numBits = 0 → f.numHashes = 0) := by
  rw [BloomFilter.mayContain]
  split
  · next h =>
    refine ⟨fun hsafe => absurd rfl hsafe, fun hnone => ?_⟩
    exact absurd (hnone h.1) h.2.ne'
  · next h =>
    refine ⟨fun _ hzero => ?_, fun _ => safe_ok _⟩
    exact Nat.eq_zero_of_not_pos fun hpos => h ⟨hzero, hpos⟩

/-- A lookup of a key that passes the filter reads its block. -/
lemma safe_getChecked_iff_of_mayContain {r : SSTableReader} (hdata : r.data.length < 2 ^ 63)
    {key : Bytes} (hpass : r.bloom.mayContain key = .ok true) :
    Safe (r.getChecked key) ↔
      ∀ e, r.index[findBlock r.index key]? = some e → Inside r.data e := by
  rw [getChecked, BloomFilter.mayContainChecked_eq, hpass, safe_ok_bind_iff, if_pos rfl]
  cases hfind : r.index[findBlock r.index key]? with
  | none =>
    rw [if_pos (List.getElem?_eq_none_iff.mp hfind)]
    exact ⟨fun _ e he => (by cases he), fun _ => safe_ok _⟩
  | some e =>
    have hlt := (List.getElem?_eq_some_iff.mp hfind).1
    rw [if_neg (not_le.mpr hlt), indexAt_of_getElem? hfind, safe_ok_bind_iff, safe_bind_iff,
      safe_readBlockChecked_iff hdata]
    constructor
    · rintro ⟨hinside, -⟩ e' he'
      exact Option.some.inj he' ▸ hinside
    · intro h
      refine ⟨h e rfl, fun entries _ => ?_⟩
      cases hsearch : BlockReader.search entries key with
      | none => exact safe_ok _
      | some idx =>
        obtain ⟨entry, hentry⟩ := getElem?_of_search hsearch
        simp only [indexAt_of_getElem? hentry]
        exact safe_ok _

lemma safe_getChecked_iff {r : SSTableReader} (hdata : r.data.length < 2 ^ 63) :
    (∀ key, Safe (r.getChecked key)) ↔ FindsInside r := by
  constructor
  · intro h
    refine ⟨(safe_mayContain_iff r.bloom []).mp ?_, fun key e hpass he => ?_⟩
    · have hsafe := h []
      rw [getChecked, BloomFilter.mayContainChecked_eq, safe_bind_iff] at hsafe
      exact hsafe.1
    · exact (safe_getChecked_iff_of_mayContain hdata hpass).mp (h key) e he
  · intro h key
    cases hpass : r.bloom.mayContain key with
    | error e =>
      have hsafe := (safe_mayContain_iff r.bloom key).mpr h.hashes
      rw [getChecked, BloomFilter.mayContainChecked_eq, hpass]
      rw [hpass] at hsafe
      exact fun heq => hsafe (congrArg _ (Except.error.inj heq))
    | ok pass =>
      cases pass with
      | true =>
        exact (safe_getChecked_iff_of_mayContain hdata hpass).mpr fun e he => h.found key e hpass he
      | false =>
        rw [getChecked, BloomFilter.mayContainChecked_eq, hpass]
        exact safe_ok _

variable [BitVecLimit]

/-- Opening the file, and then every lookup, the iteration and every scan, panics nowhere exactly if
the sums of the footer do not overflow, the filter has a possible number of bits and some if it is
asked for any, and the blocks that are read are inside the file. -/
theorem reported_iff (data : Bytes) (hdata : data.length < 2 ^ 63) :
    (Safe (openChecked data) ∧ ∀ r, openChecked data = .ok r →
      (∀ key, Safe (r.getChecked key)) ∧ Safe r.iterChecked ∧
        ∀ start stop, Safe (r.scanChecked start stop)) ↔
    Opens data ∧ ∀ r, openBytes data = .ok r → FindsInside r ∧ ScansInside data r.index := by
  have hscan : ∀ r : SSTableReader, Safe r.iterChecked →
      ∀ start stop, Safe (r.scanChecked start stop) := by
    intro r hiter start stop
    rw [scanChecked, safe_bind_iff]
    exact ⟨hiter, fun _ _ => safe_ok _⟩
  rw [safe_openChecked_iff hdata]
  refine and_congr_right fun hopens => forall_congr' fun r => ?_
  rw [hopens.openChecked_eq hdata]
  refine imp_congr_right fun hr => ?_
  obtain ⟨-, -, index, -, bloom, -, -, -, -, -, rfl⟩ := openBytes_eq_ok_iff.mp hr
  rw [safe_getChecked_iff hdata]
  refine and_congr_right fun _ => ?_
  rw [← safe_iterChecked_iff hdata]
  exact ⟨fun h => h.1, fun h => ⟨h, hscan _ h⟩⟩

omit [BloomHash] [BitVecLimit] in
/-- A file with one block. -/
def oneBlock : Bytes :=
  SSTableWriter.layout (BlockBuilder.build [⟨[1], some [2]⟩]) [⟨[1], 0, 14⟩] (.empty 8 1)

omit [BloomHash] [BitVecLimit] in
theorem reported_iff_oneBlock :
    letI := BloomHash.sip
    letI := BitVecLimit.usize
    oneBlock.length < 2 ^ 63 ∧ Safe (openChecked oneBlock) ∧
      ∀ r, openChecked oneBlock = .ok r → ∀ key, Safe (r.getChecked key) := by
  let _ := BloomHash.sip
  let _ := BitVecLimit.usize
  have hlen : oneBlock.length < 2 ^ 63 := by decide
  have hfooter : readFooter oneBlock = .ok ⟨14, 25, 39, 9, 1⟩ := by decide +kernel
  have hopen : openBytes oneBlock =
      .ok ⟨oneBlock, [⟨[1], 0, 14⟩], BloomFilter.empty 8 1⟩ := by decide +kernel
  have hopens : Opens oneBlock := by
    refine ⟨fun footer h => ?_, fun footer index h _ => ?_, fun r h => ?_⟩
    · obtain rfl := Except.ok.inj (hfooter.symm.trans h)
      decide
    · obtain rfl := Except.ok.inj (hfooter.symm.trans h)
      decide
    · obtain rfl := Except.ok.inj (hopen.symm.trans h)
      decide
  have hinside : ∀ e ∈ [IndexEntry.mk [1] 0 14], Inside oneBlock e := by decide
  have hreads : ∀ r, openBytes oneBlock = .ok r →
      FindsInside r ∧ ScansInside oneBlock r.index := by
    intro r h
    obtain rfl := Except.ok.inj (hopen.symm.trans h)
    refine ⟨⟨by decide, fun key e _ he => ?_⟩, fun i e he _ => ?_⟩
    · exact hinside e (List.mem_of_getElem? he)
    · exact hinside e (List.mem_of_getElem? he)
  have hsafe := (reported_iff oneBlock hlen).mpr ⟨hopens, hreads⟩
  exact ⟨hlen, hsafe.1, fun r h => (hsafe.2 r h).1⟩

omit [BloomHash] [BitVecLimit] in
/-- The end of the index section overflows; also in words that wrap around the slice panics. -/
def overflowingIndex : Bytes :=
  (Footer.mk (2 ^ 64 - 1) 40 0 0 0).encode

omit [BloomHash] [BitVecLimit] in
/-- A filter of no bits that is asked for one. -/
def noBits : Bytes :=
  SSTableWriter.layout [] [] (.empty 0 1)

omit [BloomHash] [BitVecLimit] in
/-- An index entry for a block behind the end of the file. -/
def blockOutside : Bytes :=
  SSTableWriter.layout [] [⟨[1], 1000, 14⟩] (.empty 8 0)

omit [BloomHash] [BitVecLimit] in
/-- Opening the first file panics; the others are opened, and a lookup in the one and the iteration
of the other panic. -/
theorem corrupt_files_panic :
    letI := BloomHash.sip
    letI := BitVecLimit.usize
    (openChecked overflowingIndex = .error .panicked ∧
      openBytes overflowingIndex = .error .panicked) ∧
    (∃ r, openChecked noBits = .ok r ∧ r.getChecked [1] = .error .panicked) ∧
    ∃ r, openChecked blockOutside = .ok r ∧ r.iterChecked = .error .panicked ∧
      r.getChecked [1] = .error .panicked := by
  refine ⟨⟨by decide +kernel, by decide +kernel⟩,
    ⟨⟨noBits, [], .empty 0 1⟩, by decide +kernel, by decide +kernel⟩,
    ⟨blockOutside, [⟨[1], 1000, 14⟩], .empty 8 0⟩, by decide +kernel, by decide +kernel,
    by decide +kernel⟩

end SSTableReader

end Raftrust.Storage
