import Mathlib.Algebra.BigOperators.Group.List.Basic
import Mathlib.Data.List.Flatten
import Mathlib.Data.List.Forall2
import Raftrust.Storage.Sst.File

/-!
# What is written to an SSTable file is read back

A file is opened with its filter and its index, and every index entry leads to its block. Counts
in the file have 32 bits: of the blocks and of the entries of a block only as many are read back
as their number modulo 2³² says.
-/

namespace Raftrust.Storage

open Lib

/-! ### Footer and index -/

lemma Footer.decode_encode {f : Footer} (hindex : f.indexOffset + f.indexSize < 2 ^ 64)
    (hbloom : f.bloomOffset + f.bloomSize < 2 ^ 64) (hhashes : f.bloomNumHashes < 2 ^ 32) :
    decode f.encode = .ok f := by
  have h8 : ∀ n < 2 ^ 64, fromLe (toLe 8 n) = n := fun n hn => fromLe_toLe hn
  have h4 : ∀ n < 2 ^ 32, fromLe (toLe 4 n) = n := fun n hn => fromLe_toLe hn
  have hmagic : fromLe ((toLe 4 footerMagic).take 4) = footerMagic := by decide
  simp [decode, encode, hmagic, h8 f.indexOffset (by omega), h8 f.indexSize (by omega),
    h8 f.bloomOffset (by omega), h8 f.bloomSize (by omega), h4 _ hhashes]

/-- The numbers of an index entry fit into their fields. -/
structure IndexEntry.Sized (e : IndexEntry) : Prop where
  firstKey : e.firstKey.length < 2 ^ 32
  offset : e.offset < 2 ^ 64
  size : e.size < 2 ^ 64

/-- The fields of an index entry fit into the file. -/
structure IndexEntry.Fits (e : IndexEntry) : Prop where
  firstKey : e.firstKey.length < 2 ^ 32
  offset : e.offset + e.size < 2 ^ 64

lemma IndexEntry.Fits.sized {e : IndexEntry} (h : e.Fits) : e.Sized where
  firstKey := h.firstKey
  offset := (Nat.le_add_right _ _).trans_lt h.offset
  size := (Nat.le_add_left _ _).trans_lt h.offset

namespace SSTableReader

lemma parseLoop_encode_append {e : IndexEntry} (h : e.Sized) (n : ℕ) (rest : Bytes) :
    parseLoop (n + 1) (e.encode ++ rest) = (parseLoop n rest).map (e :: ·) := by
  have hkey : fromLe (toLe 4 e.firstKey.length) = e.firstKey.length := fromLe_toLe h.firstKey
  have hoffset : fromLe (toLe 8 e.offset) = e.offset := fromLe_toLe h.offset
  have hsize : fromLe (toLe 8 e.size) = e.size := fromLe_toLe h.size
  have hlen : ¬(e.encode ++ rest).length < 4 := by
    simp only [IndexEntry.encode, List.length_append, toLe_length]
    omega
  have hlen' : ¬((e.encode ++ rest).drop 4).length < e.firstKey.length + 16 := by
    simp only [IndexEntry.encode, List.length_drop, List.length_append, toLe_length]
    omega
  rw [parseLoop, if_neg hlen]
  simp only [IndexEntry.encode, List.append_assoc, take_toLe_append, hkey] at hlen' ⊢
  rw [if_neg hlen']
  simp [hoffset, hsize]

lemma parseIndex_indexBlock {index : List IndexEntry} (h : ∀ e ∈ index, e.Fits) :
    parseIndex (SSTableWriter.indexBlock index) = .ok (index.take (index.length % 2 ^ 32)) := by
  have hcount : fromLe (toLe 4 index.length) = index.length % 2 ^ 32 := fromLe_toLe_mod 4 _
  have hlen : ¬(SSTableWriter.indexBlock index).length < 4 := by
    simp [SSTableWriter.indexBlock]
  rw [parseIndex, if_neg hlen]
  simp only [SSTableWriter.indexBlock, take_toLe_append, drop_toLe_append le_rfl, hcount,
    Nat.sub_self, List.drop_zero]
  exact readLoop_flatMap (fun _ => rfl) (fun _ he => parseLoop_encode_append he)
    (fun e he => (h e he).sized) (Nat.mod_le _ _)

lemma parseBloom_bloomBlock {bloom : BloomFilter} (h : bloom.numBits < 2 ^ 64) :
    parseBloom (SSTableWriter.bloomBlock bloom) bloom.numHashes = .ok bloom := by
  have hbits : fromLe (toLe 8 bloom.numBits) = bloom.numBits := fromLe_toLe h
  have hlen : ¬(SSTableWriter.bloomBlock bloom).length < 8 := by
    simp [SSTableWriter.bloomBlock]
  rw [parseBloom, if_neg hlen]
  simp [SSTableWriter.bloomBlock, hbits, BloomFilter.fromRaw_asBytes]

lemma slice_middle (a b c : Bytes) :
    slice (a ++ b ++ c) a.length (a.length + b.length) = .ok b := by
  rw [slice, if_pos (by simp), Nat.add_sub_cancel_left, List.append_assoc, List.drop_left,
    List.take_left]

lemma readSection_middle {a b : Bytes} (c : Bytes) (h : a.length + b.length < 2 ^ 64)
    (msg : String) : readSection (a ++ b ++ c) a.length b.length msg = .ok b := by
  rw [readSection, Nat.mod_eq_of_lt h, if_neg (by simp), slice_middle]

lemma readFooter_append {data : Bytes} {f : Footer} (h : Footer.decode f.encode = .ok f) :
    readFooter (data ++ f.encode) = .ok f := by
  have hlen : (data ++ f.encode).length = data.length + footerSize := by
    simp [Footer.encode, footerSize]
  rw [readFooter, if_neg (by omega), hlen, Nat.add_sub_cancel, List.drop_left, h]

/-- A file is opened with its filter and the index entries that its index block counts. -/
theorem openBytes_layout {data : Bytes} {index : List IndexEntry} {bloom : BloomFilter}
    (hsize : (SSTableWriter.layout data index bloom).length < 2 ^ 64)
    (hindex : ∀ e ∈ index, e.Fits) (hbits : bloom.numBits < 2 ^ 64)
    (hhashes : bloom.numHashes < 2 ^ 32) :
    openBytes (SSTableWriter.layout data index bloom) =
      .ok ⟨SSTableWriter.layout data index bloom, index.take (index.length % 2 ^ 32), bloom⟩ := by
  have hbloomSize : (SSTableWriter.footer data index bloom).bloomSize =
      (SSTableWriter.bloomBlock bloom).length := by
    simp [SSTableWriter.footer, SSTableWriter.bloomBlock]
  have hends : data.length + (SSTableWriter.indexBlock index).length +
      (SSTableWriter.bloomBlock bloom).length < 2 ^ 64 := by
    refine lt_of_le_of_lt ?_ hsize
    simp only [SSTableWriter.layout, List.length_append]
    omega
  have hfooter : readFooter (SSTableWriter.layout data index bloom) =
      .ok (SSTableWriter.footer data index bloom) := by
    apply readFooter_append
    refine Footer.decode_encode ?_ ?_ hhashes
    · exact (Nat.le_add_right _ _).trans_lt hends
    · rw [hbloomSize]
      exact hends
  have hindexData : readSection (SSTableWriter.layout data index bloom) data.length
      (SSTableWriter.indexBlock index).length "index extends past file" =
      .ok (SSTableWriter.indexBlock index) := by
    rw [SSTableWriter.layout, List.append_assoc (data ++ SSTableWriter.indexBlock index)]
    exact readSection_middle _ ((Nat.le_add_right _ _).trans_lt hends) _
  have hbloomData : readSection (SSTableWriter.layout data index bloom)
      (data.length + (SSTableWriter.indexBlock index).length)
      (SSTableWriter.bloomBlock bloom).length "bloom filter extends past file" =
      .ok (SSTableWriter.bloomBlock bloom) := by
    rw [← List.length_append]
    exact readSection_middle _ (by rwa [List.length_append]) _
  rw [openBytes, hfooter]
  simp only [bind, Except.bind, hbloomSize]
  simp only [SSTableWriter.footer, hindexData, parseIndex_indexBlock hindex, hbloomData,
    parseBloom_bloomBlock hbits]
  rfl

end SSTableReader

/-! ### The blocks of a file -/

namespace SSTableWriter

/-- The blocks that entries are written to, behind those of a block under construction. -/
def blocksOf (blockSize : ℕ) : BlockBuilder → List BlockEntry → List (List BlockEntry)
  | cur, [] => if cur.entries = [] then [] else [cur.entries]
  | cur, e :: es =>
    let cur := cur.add e
    if blockSize ≤ cur.size then cur.entries :: blocksOf blockSize .new es
    else blocksOf blockSize cur es

lemma flatten_blocksOf (blockSize : ℕ) (cur : BlockBuilder) (es : List BlockEntry) :
    (blocksOf blockSize cur es).flatten = cur.entries ++ es := by
  induction es generalizing cur with
  | nil =>
    rw [blocksOf]
    split
    · next h => simp [h]
    · simp
  | cons e es ih =>
    rw [blocksOf]
    split
    · rw [List.flatten_cons, ih]
      simp [BlockBuilder.add, BlockBuilder.new]
    · rw [ih]
      simp [BlockBuilder.add]

lemma ne_nil_of_mem_blocksOf {blockSize : ℕ} {cur : BlockBuilder} {es : List BlockEntry}
    {b : List BlockEntry} (h : b ∈ blocksOf blockSize cur es) : b ≠ [] := by
  induction es generalizing cur with
  | nil =>
    rw [blocksOf] at h
    split at h
    · simp at h
    · next hne => rwa [List.mem_singleton.mp h]
  | cons e es ih =>
    rw [blocksOf] at h
    split at h
    · rcases List.mem_cons.mp h with rfl | h
      · simp [BlockBuilder.add]
      · exact ih h
    · exact ih h

/-- Blocks are not empty, so there are no more of them than entries. -/
lemma length_blocksOf_le (blockSize : ℕ) (es : List BlockEntry) :
    (blocksOf blockSize .new es).length ≤ es.length := by
  have hflatten : (blocksOf blockSize .new es).flatten = es := flatten_blocksOf _ _ _
  calc
    (blocksOf blockSize .new es).length
      ≤ ((blocksOf blockSize .new es).map List.length).sum := by
        rw [← List.length_map List.length]
        refine List.length_le_sum_of_one_le _ fun n hn => ?_
        obtain ⟨b, hb, rfl⟩ := List.mem_map.mp hn
        exact List.length_pos_of_ne_nil (ne_nil_of_mem_blocksOf hb)
    _ = es.length := by rw [← List.length_flatten, hflatten]

lemma length_le_of_mem_blocksOf {blockSize : ℕ} {es b : List BlockEntry}
    (hb : b ∈ blocksOf blockSize .new es) : b.length ≤ es.length := by
  have hflatten : (blocksOf blockSize .new es).flatten = es := flatten_blocksOf _ _ _
  calc
    b.length ≤ (blocksOf blockSize .new es).flatten.length :=
      (List.sublist_flatten_of_mem hb).length_le
    _ = es.length := by rw [hflatten]

def firstKeyOf (b : List BlockEntry) : Bytes :=
  (b.head?.map (·.key)).getD []

/-- The index of blocks that are written from `offset` on. -/
def indexFrom : ℕ → List (List BlockEntry) → List IndexEntry
  | _, [] => []
  | offset, b :: bs =>
    let size := (BlockBuilder.build b).length
    ⟨firstKeyOf b, offset, size⟩ :: indexFrom (offset + size) bs

lemma indexFrom_append (offset : ℕ) (bs bs' : List (List BlockEntry)) :
    indexFrom offset (bs ++ bs') =
      indexFrom offset bs ++ indexFrom (offset + (bs.flatMap BlockBuilder.build).length) bs' := by
  induction bs generalizing offset with
  | nil => rfl
  | cons b bs ih => simp [indexFrom, ih, Nat.add_assoc]

@[simp] lemma length_indexFrom (offset : ℕ) (bs : List (List BlockEntry)) :
    (indexFrom offset bs).length = bs.length := by
  induction bs generalizing offset with
  | nil => rfl
  | cons b bs ih => simp [indexFrom, ih]

lemma map_firstKey_indexFrom (offset : ℕ) (bs : List (List BlockEntry)) :
    (indexFrom offset bs).map (·.firstKey) = bs.map firstKeyOf := by
  induction bs generalizing offset with
  | nil => rfl
  | cons b bs ih => simp [indexFrom, ih]

/-- The blocks flushed so far. -/
structure Flushed (w : SSTableWriter) (blocks : List (List BlockEntry)) : Prop where
  data : w.data = blocks.flatMap BlockBuilder.build
  index : w.index = indexFrom 0 blocks

lemma Flushed.flushBlock {w : SSTableWriter} {blocks : List (List BlockEntry)}
    (h : w.Flushed blocks) : w.flushBlock.Flushed (blocks ++ [w.currentBlock.entries]) := by
  constructor
  · simp [SSTableWriter.flushBlock, h.data]
  · rw [indexFrom_append, Nat.zero_add, ← h.data, ← h.index]
    rfl

section

variable [BloomHash]

lemma Flushed.foldl_add {w : SSTableWriter} {blocks : List (List BlockEntry)}
    (h : w.Flushed blocks) (es : List BlockEntry) :
    (es.foldl add w).flushRest.Flushed (blocks ++ blocksOf w.blockSize w.currentBlock es) := by
  induction es generalizing w blocks with
  | nil =>
    rw [List.foldl_nil, flushRest, blocksOf]
    split
    · rwa [List.append_nil]
    · exact h.flushBlock
  | cons e es ih =>
    rw [List.foldl_cons, add, blocksOf]
    have hadd : ({ w with
        bloom := w.bloom.insert e.key, currentBlock := w.currentBlock.add e } :
          SSTableWriter).Flushed blocks := ⟨h.data, h.index⟩
    split
    · rw [← List.singleton_append, ← List.append_assoc]
      exact ih hadd.flushBlock
    · exact ih hadd

lemma foldl_add_bloom (es : List BlockEntry) (w : SSTableWriter) :
    (es.foldl add w).flushRest.bloom = (es.map (·.key)).foldl BloomFilter.insert w.bloom := by
  induction es generalizing w with
  | nil =>
    rw [List.foldl_nil, flushRest]
    split <;> rfl
  | cons e es ih =>
    rw [List.foldl_cons, ih, add]
    split <;> rfl

/-- The filter of a file with the given entries. -/
def bloomOf (es : List BlockEntry) : BloomFilter :=
  (es.map (·.key)).foldl BloomFilter.insert (.new (max es.length 1))

/-- What a file consists of. -/
theorem writeWith_eq_layout (bloom : BloomFilter) (blockSize : ℕ) (es : List BlockEntry) :
    writeWith bloom blockSize es =
      layout ((blocksOf blockSize .new es).flatMap BlockBuilder.build)
        (indexFrom 0 (blocksOf blockSize .new es))
        ((es.map (·.key)).foldl BloomFilter.insert bloom) := by
  have hnew : ({ new blockSize es.length with bloom := bloom } : SSTableWriter).Flushed [] :=
    ⟨rfl, rfl⟩
  have hflushed := hnew.foldl_add es
  rw [List.nil_append] at hflushed
  rw [writeWith, finish, hflushed.data, hflushed.index, foldl_add_bloom]
  rfl

lemma write_eq_layout (blockSize : ℕ) (es : List BlockEntry) :
    write blockSize es = layout ((blocksOf blockSize .new es).flatMap BlockBuilder.build)
      (indexFrom 0 (blocksOf blockSize .new es)) (bloomOf es) :=
  writeWith_eq_layout _ blockSize es

/-- Blocks and entries of a block are counted in 32 bits, and offsets in 64. -/
@[mk_iff]
structure Fits (blockSize : ℕ) (es : List BlockEntry) : Prop where
  blocks : (blocksOf blockSize .new es).length < 2 ^ 32
  entries : ∀ b ∈ blocksOf blockSize .new es, b.length < 2 ^ 32
  size : (write blockSize es).length < 2 ^ 64

instance (blockSize : ℕ) (es : List BlockEntry) : Decidable (Fits blockSize es) :=
  decidable_of_iff _ (fits_iff blockSize es).symm

/-- The lengths of keys and values fit as well. -/
@[mk_iff]
structure Writable (blockSize : ℕ) (es : List BlockEntry) : Prop extends Fits blockSize es where
  short : ∀ e ∈ es, e.Short

instance (blockSize : ℕ) (es : List BlockEntry) : Decidable (Writable blockSize es) :=
  decidable_of_iff _ (writable_iff blockSize es).symm

end

end SSTableWriter

/-! ### Reading blocks by the index -/

namespace SSTableReader

open SSTableWriter

/-- The entries of a block that its 32-bit count covers. -/
def counted (b : List BlockEntry) : List BlockEntry :=
  b.take (b.length % 2 ^ 32)

lemma counted_sublist (b : List BlockEntry) : (counted b).Sublist b :=
  List.take_sublist _ b

lemma counted_of_lt {b : List BlockEntry} (h : b.length < 2 ^ 32) : counted b = b := by
  rw [counted, Nat.mod_eq_of_lt h, List.take_length]

/-- The entries that are read back from a file: of the blocks, and of the entries of each, as many
as the counts cover. -/
def readBack (blockSize : ℕ) (es : List BlockEntry) : List BlockEntry :=
  let blocks := blocksOf blockSize .new es
  (blocks.take (blocks.length % 2 ^ 32)).flatMap counted

lemma readBack_sublist (blockSize : ℕ) (es : List BlockEntry) :
    (readBack blockSize es).Sublist es := by
  have hflatten : (blocksOf blockSize .new es).flatten = es := flatten_blocksOf _ _ _
  nth_rewrite 2 [← hflatten]
  rw [readBack, ← List.flatMap_id]
  exact (List.Sublist.flatMap_right _ fun b _ => counted_sublist b).trans
    ((List.take_sublist _ _).flatMap id)

lemma readBack_eq {blockSize : ℕ} {es : List BlockEntry}
    (hblocks : (blocksOf blockSize .new es).length < 2 ^ 32)
    (hentries : ∀ b ∈ blocksOf blockSize .new es, b.length < 2 ^ 32) :
    readBack blockSize es = es := by
  have hflatten : (blocksOf blockSize .new es).flatten = es := flatten_blocksOf _ _ _
  rw [readBack, Nat.mod_eq_of_lt hblocks, List.take_length, List.flatMap_def,
    List.map_congr_left fun b hb => counted_of_lt (hentries b hb), List.map_id', hflatten]

lemma readBlock_build {b : List BlockEntry} (hshort : ∀ e ∈ b, e.Short)
    {before : Bytes} (after firstKey : Bytes)
    (hlen : before.length + (BlockBuilder.build b).length < 2 ^ 64) :
    readBlock (before ++ BlockBuilder.build b ++ after)
      ⟨firstKey, before.length, (BlockBuilder.build b).length⟩ = .ok (counted b) := by
  rw [readBlock, Nat.mod_eq_of_lt hlen, slice_middle]
  exact BlockReader.readEntries_build_take hshort

/-- Every index entry leads to its block. -/
lemma forall₂_readBlock {blocks : List (List BlockEntry)}
    (hshort : ∀ b ∈ blocks, ∀ e ∈ b, e.Short) (before : Bytes) {after : Bytes}
    (hlen : (before ++ blocks.flatMap BlockBuilder.build ++ after).length < 2 ^ 64) :
    List.Forall₂ (fun ie b =>
        readBlock (before ++ blocks.flatMap BlockBuilder.build ++ after) ie = .ok (counted b))
      (indexFrom before.length blocks) blocks := by
  induction blocks generalizing before with
  | nil => exact .nil
  | cons b bs ih =>
    have hsplit : before ++ (b :: bs).flatMap BlockBuilder.build ++ after =
        (before ++ BlockBuilder.build b) ++ bs.flatMap BlockBuilder.build ++ after := by simp
    rw [hsplit] at hlen ⊢
    rw [indexFrom]
    constructor
    · rw [List.append_assoc]
      refine readBlock_build (hshort b List.mem_cons_self) _ _ ?_
      simp only [List.length_append] at hlen
      omega
    · rw [← List.length_append]
      exact ih (fun b hb => hshort b (List.mem_cons_of_mem _ hb)) _ hlen

lemma indexFrom_fits {blocks : List (List BlockEntry)}
    (hshort : ∀ b ∈ blocks, ∀ e ∈ b, e.Short) {offset : ℕ}
    (hlen : offset + (blocks.flatMap BlockBuilder.build).length < 2 ^ 64) :
    ∀ ie ∈ indexFrom offset blocks, ie.Fits := by
  induction blocks generalizing offset with
  | nil => simp [indexFrom]
  | cons b bs ih =>
    rw [List.flatMap_cons, List.length_append] at hlen
    rw [indexFrom]
    intro ie hie
    rcases List.mem_cons.mp hie with rfl | hie
    · constructor
      · cases hb : b with
        | nil => simp [firstKeyOf]
        | cons e es => exact (hshort b List.mem_cons_self e (hb ▸ List.mem_cons_self)).key
      · show offset + (BlockBuilder.build b).length < 2 ^ 64
        omega
    · exact ih (fun b hb => hshort b (List.mem_cons_of_mem _ hb)) (by omega) ie hie

/-! ### Opening a written file -/

variable [BloomHash]

/-- A written file is opened with the part of its index that the 32-bit count covers. -/
theorem openBytes_writeWith {bloom : BloomFilter} {blockSize : ℕ} {es : List BlockEntry}
    (hbits : bloom.numBits < 2 ^ 64) (hhashes : bloom.numHashes < 2 ^ 32)
    (hshort : ∀ e ∈ es, e.Short) (hsize : (writeWith bloom blockSize es).length < 2 ^ 64) :
    openBytes (writeWith bloom blockSize es) = .ok ⟨writeWith bloom blockSize es,
      (indexFrom 0 (blocksOf blockSize .new es)).take
        ((blocksOf blockSize .new es).length % 2 ^ 32),
      (es.map (·.key)).foldl BloomFilter.insert bloom⟩ := by
  have hflatten : (blocksOf blockSize .new es).flatten = es := flatten_blocksOf _ _ _
  have hshort' : ∀ b ∈ blocksOf blockSize .new es, ∀ e ∈ b, e.Short := fun b hb e he =>
    hshort e (hflatten ▸ List.mem_flatten_of_mem hb he)
  rw [writeWith_eq_layout] at hsize ⊢
  rw [openBytes_layout hsize _ (by rwa [BloomFilter.foldl_insert_numBits])
    (by rwa [BloomFilter.foldl_insert_numHashes]), length_indexFrom]
  apply indexFrom_fits hshort'
  refine lt_of_le_of_lt ?_ hsize
  simp only [layout, List.length_append]
  omega

lemma bloomOf_numBits_lt (es : List BlockEntry) : (bloomOf es).numBits < 2 ^ 64 := by
  rw [bloomOf, BloomFilter.foldl_insert_numBits]
  exact max_lt (UInt64.toNat_lt _) (by decide)

lemma bloomOf_numHashes_lt (es : List BlockEntry) : (bloomOf es).numHashes < 2 ^ 32 := by
  rw [bloomOf, BloomFilter.foldl_insert_numHashes]
  exact max_lt (UInt32.toNat_lt _) (by decide)

/-- What filter and footer add to a file. -/
lemma length_layout_le (data : Bytes) (index : List IndexEntry) (es : List BlockEntry) :
    (layout data index (bloomOf es)).length ≤
      data.length + (indexBlock index).length + 2 ^ 61 + 48 := by
  have hbloom : (bloomBlock (bloomOf es)).length ≤ 8 + 2 ^ 61 := by
    have hbits := bloomOf_numBits_lt es
    rw [bloomBlock, List.length_append, toLe_length, BloomFilter.asBytes, packBits_length,
      (bloomOf es).length_bits]
    omega
  have hfooter : ∀ f : Footer, f.encode.length = 40 := fun f => by simp [Footer.encode]
  rw [layout, List.length_append, List.length_append, List.length_append, hfooter]
  omega

/-- The sizing formulas give numbers that fit into their fields. -/
theorem openBytes_write {blockSize : ℕ} {es : List BlockEntry} (hshort : ∀ e ∈ es, e.Short)
    (hsize : (write blockSize es).length < 2 ^ 64) :
    openBytes (write blockSize es) = .ok ⟨write blockSize es,
      (indexFrom 0 (blocksOf blockSize .new es)).take
        ((blocksOf blockSize .new es).length % 2 ^ 32), bloomOf es⟩ :=
  openBytes_writeWith (max_lt (UInt64.toNat_lt _) (by decide))
    (max_lt (UInt32.toNat_lt _) (by decide)) hshort hsize

end SSTableReader

end Raftrust.Storage
