import Raftrust.Lib.Run
import Raftrust.Storage.Sst.RoundTrip

/-!
# Reading an SSTable file

The blocks of a file partition its entries, so the index leads to the only block that can hold a
key. A reader of a file whose counts fit answers as the table that was written.
-/

namespace Raftrust.Storage

open Lib

namespace SSTableReader

open SSTableWriter

/-! ### Finding the block of a key -/

section

variable {blocks : List (List BlockEntry)} {index : List IndexEntry}

lemma firstKeyOf_mem {b : List BlockEntry} (h : b ≠ []) : ∃ e ∈ b, e.key = firstKeyOf b := by
  cases b with
  | nil => exact absurd rfl h
  | cons e es => exact ⟨e, List.mem_cons_self, rfl⟩

lemma firstKeyOf_le {b : List BlockEntry} (h : b.Pairwise fun a b => a.key < b.key)
    {e : BlockEntry} (he : e ∈ b) : firstKeyOf b ≤ e.key := by
  cases b with
  | nil => simp at he
  | cons e' es =>
    rcases List.mem_cons.mp he with rfl | he
    · exact le_rfl
    · exact ((List.pairwise_cons.mp h).1 e he).le

/-- Blocks with entries in increasing order of their keys, and an index with their first keys. -/
structure Indexed (index : List IndexEntry) (blocks : List (List BlockEntry)) : Prop where
  firstKeys : index.map (·.firstKey) = blocks.map firstKeyOf
  nonempty : ∀ b ∈ blocks, b ≠ []
  sorted : blocks.flatten.Pairwise fun a b => a.key < b.key

namespace Indexed

lemma exists_block (h : Indexed index blocks) {i : ℕ} {ie : IndexEntry}
    (hi : index[i]? = some ie) : ∃ b, blocks[i]? = some b ∧ ie.firstKey = firstKeyOf b := by
  have hkeys := congrArg (·[i]?) h.firstKeys
  simp only [List.getElem?_map, hi, Option.map_some] at hkeys
  obtain ⟨b, hb, hkey⟩ := Option.map_eq_some_iff.mp hkeys.symm
  exact ⟨b, hb, hkey.symm⟩

lemma lt_of_lt (h : Indexed index blocks) {i j : ℕ} {b b' : List BlockEntry} (hij : i < j)
    (hi : blocks[i]? = some b) (hj : blocks[j]? = some b') {e e' : BlockEntry} (he : e ∈ b)
    (he' : e' ∈ b') : e.key < e'.key := by
  obtain ⟨hi', rfl⟩ := List.getElem?_eq_some_iff.mp hi
  obtain ⟨hj', rfl⟩ := List.getElem?_eq_some_iff.mp hj
  exact List.pairwise_iff_getElem.mp (List.pairwise_flatten.mp h.sorted).2 i j hi' hj' hij e he
    e' he'

lemma block_sorted (h : Indexed index blocks) {b : List BlockEntry} (hb : b ∈ blocks) :
    b.Pairwise fun a b => a.key < b.key :=
  (List.pairwise_flatten.mp h.sorted).1 b hb

lemma firstKey_cases (h : Indexed index blocks) {i j : ℕ} {ie : IndexEntry}
    {b : List BlockEntry} {e : BlockEntry} (hi : index[i]? = some ie) (hj : blocks[j]? = some b)
    (he : e ∈ b) : i < j ∧ ie.firstKey < e.key ∨ i = j ∧ ie.firstKey ≤ e.key ∨
      j < i ∧ e.key < ie.firstKey := by
  obtain ⟨b', hb', hkey⟩ := h.exists_block hi
  obtain ⟨first, hfirst, hfirstKey⟩ := firstKeyOf_mem (h.nonempty b' (List.mem_of_getElem? hb'))
  rcases lt_trichotomy i j with hij | rfl | hij
  · refine .inl ⟨hij, ?_⟩
    rw [hkey, ← hfirstKey]
    exact h.lt_of_lt hij hb' hj hfirst he
  · refine .inr (.inl ⟨rfl, ?_⟩)
    obtain rfl := Option.some.inj (hb'.symm.trans hj)
    rw [hkey]
    exact firstKeyOf_le (h.block_sorted (List.mem_of_getElem? hj)) he
  · refine .inr (.inr ⟨hij, ?_⟩)
    rw [hkey, ← hfirstKey]
    exact h.lt_of_lt hij hj hb' he hfirst

lemma pairwise_firstKey (h : Indexed index blocks) :
    index.Pairwise fun a b => a.firstKey < b.firstKey := by
  rw [List.pairwise_iff_getElem]
  intro i j hi hj hij
  obtain ⟨b, hb, hkey⟩ := h.exists_block (List.getElem?_eq_getElem hj)
  obtain ⟨e, he, hekey⟩ := firstKeyOf_mem (h.nonempty b (List.mem_of_getElem? hb))
  rcases h.firstKey_cases (List.getElem?_eq_getElem hi) hb he with ⟨-, hlt⟩ | ⟨heq, -⟩ | ⟨hlt, -⟩
  · rwa [hkey, ← hekey]
  · omega
  · omega

/-- The index leads to the block that holds a key. -/
lemma findBlock_eq (h : Indexed index blocks) {j : ℕ} {b : List BlockEntry} {e : BlockEntry}
    (hj : blocks[j]? = some b) (he : e ∈ b) : findBlock index e.key = j := by
  have hlen : index.length = blocks.length := by
    simpa using congrArg List.length h.firstKeys
  have hjlt : j < index.length := hlen ▸ (List.getElem?_eq_some_iff.mp hj).1
  rw [findBlock]
  rcases binarySearchBy_spec (BlockReader.ascending_compare h.pairwise_firstKey e.key) with
    ⟨i, ie, hsearch, hi, heq⟩ | ⟨i, hsearch, hle, hbefore, hbehind⟩
  · have hkey : ie.firstKey = e.key := Std.LawfulEqOrd.compare_eq_iff_eq.mp heq
    rw [hsearch]
    rcases h.firstKey_cases hi hj he with ⟨-, hlt⟩ | ⟨hij, -⟩ | ⟨-, hlt⟩
    · exact absurd hkey hlt.ne
    · exact hij
    · exact absurd hkey hlt.ne'
  · rw [hsearch]
    -- the blocks up to `j` start at or before the key, and those behind `j` after it
    have hji : j < i := by
      by_contra hij
      have hgt := hbehind j _ (not_lt.mp hij) (List.getElem?_eq_getElem hjlt)
      rw [compare_eq_gt_iff] at hgt
      rcases h.firstKey_cases (List.getElem?_eq_getElem hjlt) hj he with
        ⟨hlt, -⟩ | ⟨-, hle'⟩ | ⟨hlt, -⟩
      · exact absurd hlt (lt_irrefl j)
      · exact absurd hgt (not_lt.mpr hle')
      · exact absurd hlt (lt_irrefl j)
    have hij : i ≤ j + 1 := by
      by_contra hlt
      have hlt' : j + 1 < index.length := by omega
      have hfirst := hbefore (j + 1) _ (by omega) (List.getElem?_eq_getElem hlt')
      rw [compare_eq_lt_iff] at hfirst
      rcases h.firstKey_cases (List.getElem?_eq_getElem hlt') hj he with
        ⟨hlt, -⟩ | ⟨heq, -⟩ | ⟨-, hgt⟩
      · omega
      · omega
      · exact absurd hfirst (not_lt.mpr hgt.le)
    show i - 1 = j
    omega

/-- What the block says about a key is what the file says. -/
lemma lookup_eq_get (h : Indexed index blocks) {t : SSTable}
    (ht : t.entries = blocks.flatMap counted) {key : Bytes} {b : List BlockEntry}
    (hb : blocks[findBlock index key]? = some b) :
    BlockReader.lookup (counted b) key = t.get key := by
  have hmem := List.mem_of_getElem? hb
  have hsorted := (h.block_sorted hmem).sublist (counted_sublist b)
  refine (BlockReader.lookup_eq_get ⟨counted b, hsorted⟩ key).trans (Option.ext fun v => ?_)
  rw [SSTable.get_eq_some_iff, SSTable.get_eq_some_iff, ht, List.mem_flatMap]
  constructor
  · intro he
    exact ⟨b, hmem, he⟩
  · rintro ⟨b', hb', he⟩
    obtain ⟨j, hj⟩ := List.mem_iff_getElem?.mp hb'
    rw [h.findBlock_eq hj ((counted_sublist _).subset he), hj, Option.some.injEq] at hb
    exact hb ▸ he

lemma get_eq_none (h : Indexed index blocks) {t : SSTable}
    (ht : t.entries = blocks.flatMap counted) {key : Bytes}
    (hb : blocks[findBlock index key]? = none) : t.get key = none := by
  by_contra hne
  obtain ⟨v, hv⟩ := Option.ne_none_iff_exists'.mp hne
  rw [SSTable.get_eq_some_iff, ht, List.mem_flatMap] at hv
  obtain ⟨b, hmem, he⟩ := hv
  obtain ⟨j, hj⟩ := List.mem_iff_getElem?.mp hmem
  simp [h.findBlock_eq hj ((counted_sublist _).subset he), hj] at hb

end Indexed

end

/-! ### Readers and tables -/

lemma scanLoop_eq_filter {es : List BlockEntry} (h : es.Pairwise fun a b => a.key < b.key)
    (start stop : Bytes) :
    scanLoop start stop es = es.filter fun e => start ≤ e.key ∧ e.key < stop := by
  induction es with
  | nil => rfl
  | cons e es ih =>
    obtain ⟨hfirst, hrest⟩ := List.pairwise_cons.mp h
    rw [scanLoop, List.filter_cons]
    by_cases hin : start ≤ e.key ∧ e.key < stop
    · simp [hin, ih hrest]
    · by_cases hstop : stop ≤ e.key
      · -- the loop ends here, and no later key is below the end
        have hnone : ∀ x ∈ es, ¬(start ≤ x.key ∧ x.key < stop) := fun x hx hx' =>
          absurd hx'.2 (not_lt.mpr (hstop.trans (hfirst x hx).le))
        simpa [hin, hstop] using fun x hx => (not_and.mp (hnone x hx))
      · simp [hin, hstop, ih hrest]

variable [BloomHash]

/-- The reader answers as the table. -/
structure Reads (r : SSTableReader) (t : SSTable) : Prop where
  get : ∀ key, r.get key = .ok (t.get key)
  iter : r.iter = .ok t.entries

lemma Reads.scan {r : SSTableReader} {t : SSTable} (h : r.Reads t) (start stop : Bytes) :
    r.scan start stop = .ok (t.entries.filter fun e => start ≤ e.key ∧ e.key < stop) := by
  rw [SSTableReader.scan, h.iter, ← scanLoop_eq_filter t.sorted]
  rfl

lemma reads_of_blocks {data : Bytes} {t : SSTable} {index : List IndexEntry}
    {blocks : List (List BlockEntry)} {bloom : BloomFilter} (hpos : 0 < bloom.numBits)
    (hmarks : ∀ e ∈ t.entries, bloom.Marks e.key) (hindexed : Indexed index blocks)
    (ht : t.entries = blocks.flatMap counted)
    (hread : List.Forall₂ (fun ie b => readBlock data ie = .ok (counted b)) index blocks) :
    (SSTableReader.mk data index bloom).Reads t := by
  constructor
  · intro key
    rw [SSTableReader.get]
    rcases BloomFilter.mayContain_cases hpos key with hmay | ⟨hmay, hunmarked⟩
    · rw [hmay]
      simp only [bind, Except.bind, Bool.not_true, Bool.false_eq_true, if_false]
      cases hie : index[findBlock index key]? with
      | none =>
        have hb : blocks[findBlock index key]? = none := by
          rw [List.getElem?_eq_none_iff] at hie ⊢
          exact hread.length_eq ▸ hie
        rw [hindexed.get_eq_none ht hb]
        rfl
      | some ie =>
        obtain ⟨b, hb, -⟩ := hindexed.exists_block hie
        have hblock : readBlock data ie = .ok (counted b) := by
          obtain ⟨hi, rfl⟩ := List.getElem?_eq_some_iff.mp hie
          obtain ⟨hi', rfl⟩ := List.getElem?_eq_some_iff.mp hb
          exact hread.get hi hi'
        simp only [hblock]
        rw [hindexed.lookup_eq_get ht hb]
        rfl
    · have hnone : t.get key = none := by
        by_contra hne
        obtain ⟨v, hv⟩ := Option.ne_none_iff_exists'.mp hne
        obtain ⟨e, he, rfl⟩ := SSTable.exists_mem_of_get hv
        exact hunmarked (hmarks e he)
      rw [hmay, hnone]
      rfl
  · rw [SSTableReader.iter, mapM_eq_ok (List.forall₂_map_right_iff.mpr hread), ht,
      List.flatMap_def]
    rfl

/-- A table with short keys and values is read back from its file up to the counts, whatever the
size of the filter. -/
theorem openBytes_writeWith_readBack {bloom : BloomFilter} {blockSize : ℕ} {t : SSTable}
    (hpos : 0 < bloom.numBits) (hbits : bloom.numBits < 2 ^ 64)
    (hhashes : bloom.numHashes < 2 ^ 32)
    (hsize : (writeWith bloom blockSize t.entries).length < 2 ^ 64)
    (hshort : ∀ e ∈ t.entries, e.Short) :
    ∃ r, openBytes (writeWith bloom blockSize t.entries) = .ok r ∧
      r.Reads ⟨readBack blockSize t.entries, t.sorted.sublist (readBack_sublist _ _)⟩ := by
  have hflatten : (blocksOf blockSize .new t.entries).flatten = t.entries :=
    flatten_blocksOf _ _ _
  refine ⟨_, openBytes_writeWith hbits hhashes hshort hsize,
    reads_of_blocks ?_ ?_ ⟨?_, ?_, ?_⟩ rfl ?_⟩
  · rwa [BloomFilter.foldl_insert_numBits]
  · exact fun e he => BloomFilter.marks_foldl_insert hpos
      (.inr (List.mem_map_of_mem ((readBack_sublist _ _).subset he)))
  · rw [List.map_take, map_firstKey_indexFrom, List.map_take]
  · exact fun b hb => ne_nil_of_mem_blocksOf (List.mem_of_mem_take hb)
  · refine t.sorted.sublist ?_
    nth_rewrite 3 [← hflatten]
    exact (List.take_sublist _ _).flatten
  · have hlayout := writeWith_eq_layout bloom blockSize t.entries
    rw [layout, List.append_assoc, List.append_assoc] at hlayout
    rw [hlayout] at hsize ⊢
    exact List.forall₂_take _ (forall₂_readBlock
      (fun b hb e he => hshort e (hflatten ▸ List.mem_flatten_of_mem hb he)) [] hsize)

/-- A table whose lengths and counts fit is read back from its file, whatever the size of the
filter. -/
theorem openBytes_writeWith_reads {bloom : BloomFilter} {blockSize : ℕ} {t : SSTable}
    (hpos : 0 < bloom.numBits) (hbits : bloom.numBits < 2 ^ 64)
    (hhashes : bloom.numHashes < 2 ^ 32)
    (hblocks : (blocksOf blockSize .new t.entries).length < 2 ^ 32)
    (hentries : ∀ b ∈ blocksOf blockSize .new t.entries, b.length < 2 ^ 32)
    (hsize : (writeWith bloom blockSize t.entries).length < 2 ^ 64)
    (hshort : ∀ e ∈ t.entries, e.Short) :
    ∃ r, openBytes (writeWith bloom blockSize t.entries) = .ok r ∧ r.Reads t := by
  obtain ⟨r, hopen, hreads⟩ := openBytes_writeWith_readBack hpos hbits hhashes hsize hshort
  simp only [readBack_eq hblocks hentries] at hreads
  exact ⟨r, hopen, hreads⟩

/-- A table with short keys and values is read back from its file up to the counts. -/
lemma openBytes_write_readBack {blockSize : ℕ} {t : SSTable}
    (hsize : (write blockSize t.entries).length < 2 ^ 64) (hshort : ∀ e ∈ t.entries, e.Short) :
    ∃ r, openBytes (write blockSize t.entries) = .ok r ∧
      r.Reads ⟨readBack blockSize t.entries, t.sorted.sublist (readBack_sublist _ _)⟩ :=
  openBytes_writeWith_readBack (BloomFilter.new_numBits_pos _)
    (max_lt (UInt64.toNat_lt _) (by decide)) (max_lt (UInt32.toNat_lt _) (by decide)) hsize hshort

/-- A table whose lengths and counts fit is read back from its file. -/
theorem openBytes_write_reads {blockSize : ℕ} {t : SSTable} (h : Writable blockSize t.entries) :
    ∃ r, openBytes (write blockSize t.entries) = .ok r ∧ r.Reads t :=
  openBytes_writeWith_reads (BloomFilter.new_numBits_pos _)
    (max_lt (UInt64.toNat_lt _) (by decide)) (max_lt (UInt32.toNat_lt _) (by decide)) h.blocks
    h.entries h.size h.short

/-! ### The round trip -/

/-- A file with increasing keys is read back entry by entry, by key and by range, for every block
size and every size of the filter. -/
theorem writeWith_round_trip (numBits : UInt64) (numHashes : UInt32) (blockSize : ℕ)
    {es : List BlockEntry} (hbits : 1 ≤ numBits.toNat)
    (hsorted : es.Pairwise fun a b => a.key < b.key)
    (hkeys : ∀ e ∈ es, e.key.length < 2 ^ 32 - 1)
    (hvalues : ∀ e ∈ es, ∀ v ∈ e.value, v.length < 2 ^ 32 - 1) (hcount : es.length < 2 ^ 32)
    (hsize : (writeWith (.empty numBits.toNat numHashes.toNat) blockSize es).length < 2 ^ 63) :
    ∃ r, openBytes (writeWith (.empty numBits.toNat numHashes.toNat) blockSize es) = .ok r ∧
      r.iter = .ok es ∧
      (∀ e ∈ es, r.get e.key = .ok (some e.value)) ∧
      (∀ key, (∀ e ∈ es, e.key ≠ key) → r.get key = .ok none) ∧
      ∀ start stop, r.scan start stop = .ok (es.filter fun e => start ≤ e.key ∧ e.key < stop) := by
  have hshort : ∀ e ∈ es, e.Short := fun e he =>
    ⟨(hkeys e he).trans (by decide), hvalues e he⟩
  obtain ⟨r, hopen, hreads⟩ := @openBytes_writeWith_reads _
    (.empty numBits.toNat numHashes.toNat) blockSize ⟨es, hsorted⟩ hbits numBits.toNat_lt
    numHashes.toNat_lt ((length_blocksOf_le blockSize es).trans_lt hcount)
    (fun b hb => (length_le_of_mem_blocksOf hb).trans_lt hcount) (hsize.trans (by decide)) hshort
  refine ⟨r, hopen, hreads.iter, fun e he => ?_, fun key hkey => ?_, hreads.scan⟩
  · rw [hreads.get, SSTable.get_eq_some_iff.mpr he]
  · have hnone : (SSTable.mk es hsorted).get key = none := by
      by_contra hne
      obtain ⟨v, hv⟩ := Option.ne_none_iff_exists'.mp hne
      obtain ⟨e, he, heq⟩ := SSTable.exists_mem_of_get hv
      exact hkey e he heq
    rw [hreads.get, hnone]

omit [BloomHash] in
/-- A value and a tombstone in two blocks, with a filter of three bits. -/
theorem writeWith_round_trip_two :
    letI := BloomHash.sip
    ∃ r, openBytes (writeWith (.empty 3 2) 1 [⟨[1], some [10]⟩, ⟨[2], none⟩]) = .ok r ∧
      r.iter = .ok [⟨[1], some [10]⟩, ⟨[2], none⟩] ∧ r.get [2] = .ok (some none) ∧
      r.get [3] = .ok none ∧ r.scan [] [2] = .ok [⟨[1], some [10]⟩] := by
  let _ := BloomHash.sip
  obtain ⟨r, hopen, hiter, hget, hnone, hscan⟩ :=
    @writeWith_round_trip _ 3 2 1 [⟨[1], some [10]⟩, ⟨[2], none⟩] (by decide) (by decide)
      (by decide) (by decide) (by decide) (by decide +kernel)
  refine ⟨r, hopen, hiter, hget ⟨[2], none⟩ (by decide), hnone [3] (by decide), ?_⟩
  rw [hscan]
  decide

end SSTableReader

end Raftrust.Storage
