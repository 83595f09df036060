import Raftrust.Storage.Sst.Block
import Raftrust.Storage.Sst.Bloom

/-!
# SSTable files

A file is its data blocks, an index block with the first key, offset and size of each, the Bloom
filter of its keys, and a footer of fixed size that says where the last two are. The writer is
given entries in key order and starts a new block when the current one has reached the block size.
-/

namespace Raftrust.Storage

open Lib

/-! ### Footer -/

def footerSize : ℕ := 40

def footerMagic : ℕ := 0x5354424C

structure Footer where
  indexOffset : ℕ
  indexSize : ℕ
  bloomOffset : ℕ
  bloomSize : ℕ
  bloomNumHashes : ℕ
  deriving DecidableEq, Repr

namespace Footer

def encode (f : Footer) : Bytes :=
  toLe 8 f.indexOffset ++ toLe 8 f.indexSize ++ toLe 8 f.bloomOffset ++ toLe 8 f.bloomSize ++
    toLe 4 f.bloomNumHashes ++ toLe 4 footerMagic

def decode (buf : Bytes) : Except Abort Footer :=
  let magic := fromLe ((buf.drop 36).take 4)
  if magic ≠ footerMagic then
    .error (corruption s!"SSTable footer magic mismatch: {hex32 magic} != {hex32 footerMagic}")
  else .ok {
    indexOffset := fromLe (buf.take 8)
    indexSize := fromLe ((buf.drop 8).take 8)
    bloomOffset := fromLe ((buf.drop 16).take 8)
    bloomSize := fromLe ((buf.drop 24).take 8)
    bloomNumHashes := fromLe ((buf.drop 32).take 4) }

end Footer

/-! ### Writer -/

/-- Maps the first key of a block to its offset and size in the file. -/
structure IndexEntry where
  firstKey : Bytes
  offset : ℕ
  size : ℕ
  deriving DecidableEq, Repr

def IndexEntry.encode (e : IndexEntry) : Bytes :=
  toLe 4 e.firstKey.length ++ e.firstKey ++ toLe 8 e.offset ++ toLe 8 e.size

structure SSTableWriter where
  blockSize : ℕ
  currentBlock : BlockBuilder
  index : List IndexEntry
  bloom : BloomFilter
  data : Bytes
  deriving DecidableEq, Repr

namespace SSTableWriter

def flushBlock (w : SSTableWriter) : SSTableWriter :=
  let blockData := BlockBuilder.build w.currentBlock.entries
  { w with
    currentBlock := .new
    data := w.data ++ blockData
    index := w.index ++
      [⟨w.currentBlock.firstKey.getD [], w.data.length, blockData.length⟩] }

/-- Flush any remaining entries. -/
def flushRest (w : SSTableWriter) : SSTableWriter :=
  if w.currentBlock.entries = [] then w else w.flushBlock

def indexBlock (index : List IndexEntry) : Bytes :=
  toLe 4 index.length ++ index.flatMap IndexEntry.encode

def bloomBlock (bloom : BloomFilter) : Bytes :=
  toLe 8 bloom.numBits ++ bloom.asBytes

/-- The footer behind `data`, the index block and the filter block. -/
def footer (data : Bytes) (index : List IndexEntry) (bloom : BloomFilter) : Footer where
  indexOffset := data.length
  indexSize := (indexBlock index).length
  bloomOffset := data.length + (indexBlock index).length
  bloomSize := 8 + bloom.asBytes.length
  bloomNumHashes := bloom.numHashes

/-- The data blocks, the index block, the filter block and the footer. -/
def layout (data : Bytes) (index : List IndexEntry) (bloom : BloomFilter) : Bytes :=
  data ++ indexBlock index ++ bloomBlock bloom ++ (footer data index bloom).encode

/-- The finished file. -/
def finish (w : SSTableWriter) : Bytes :=
  let w := w.flushRest
  layout w.data w.index w.bloom

variable [BloomHash]

def new (blockSize expectedEntries : ℕ) : SSTableWriter where
  blockSize := blockSize
  currentBlock := .new
  index := []
  bloom := .new (max expectedEntries 1)
  data := []

/-- Add an entry. A block that has reached its size is flushed. -/
def add (w : SSTableWriter) (e : BlockEntry) : SSTableWriter :=
  let w := { w with bloom := w.bloom.insert e.key, currentBlock := w.currentBlock.add e }
  if w.blockSize ≤ w.currentBlock.size then w.flushBlock else w

/-- The file with the given entries. -/
def write (blockSize : ℕ) (entries : List BlockEntry) : Bytes :=
  (entries.foldl add (new blockSize entries.length)).finish

/-- The file of a writer that starts with the given filter. -/
def writeWith (bloom : BloomFilter) (blockSize : ℕ) (entries : List BlockEntry) : Bytes :=
  (entries.foldl add { new blockSize entries.length with bloom := bloom }).finish

end SSTableWriter

/-! ### Reader -/

/-- The bytes from `start` to `stop`. A range that leaves the data panics. -/
def slice (data : Bytes) (start stop : ℕ) : Except Abort Bytes :=
  if start ≤ stop ∧ stop ≤ data.length then .ok ((data.drop start).take (stop - start))
  else .error .panicked

structure SSTableReader where
  data : Bytes
  index : List IndexEntry
  bloom : BloomFilter
  deriving DecidableEq, Repr

namespace SSTableReader

/-- Parse `n` index entries. -/
def parseLoop : ℕ → Bytes → Except Abort (List IndexEntry)
  | 0, _ => .ok []
  | n + 1, rest =>
    if rest.length < 4 then .error (corruption "index entry truncated")
    else
      let keyLen := fromLe (rest.take 4)
      let rest := rest.drop 4
      if rest.length < keyLen + 16 then .error (corruption "index entry truncated")
      else
        let firstKey := rest.take keyLen
        let rest := rest.drop keyLen
        let offset := fromLe (rest.take 8)
        let rest := rest.drop 8
        let size := fromLe (rest.take 8)
        (parseLoop n (rest.drop 8)).map (⟨firstKey, offset, size⟩ :: ·)

def parseIndex (data : Bytes) : Except Abort (List IndexEntry) :=
  if data.length < 4 then .error (corruption "index block too small")
  else parseLoop (fromLe (data.take 4)) (data.drop 4)

def parseBloom (data : Bytes) (numHashes : ℕ) : Except Abort BloomFilter :=
  if data.length < 8 then .error (corruption "bloom block too small")
  else .ok (.fromRaw (data.drop 8) numHashes (fromLe (data.take 8)))

def readFooter (data : Bytes) : Except Abort Footer :=
  if data.length < footerSize then .error (corruption s!"SSTable too small: {data.length} bytes")
  else Footer.decode (data.drop (data.length - footerSize))

/-- The bytes of a section that the footer describes. Its end is computed in `usize`. -/
def readSection (data : Bytes) (offset size : ℕ) (msg : String) : Except Abort Bytes :=
  let stop := (offset + size) % 2 ^ 64
  if data.length < stop then .error (corruption msg) else slice data offset stop

/-- Open a file with the given bytes. -/
def openBytes (data : Bytes) : Except Abort SSTableReader := do
  let footer ← readFooter data
  let indexData ← readSection data footer.indexOffset footer.indexSize "index extends past file"
  let index ← parseIndex indexData
  let bloomData ← readSection data footer.bloomOffset footer.bloomSize
    "bloom filter extends past file"
  let bloom ← parseBloom bloomData footer.bloomNumHashes
  return ⟨data, index, bloom⟩

/-- The entries of the block that an index entry describes. Its end is computed in `u64`. -/
def readBlock (data : Bytes) (e : IndexEntry) : Except Abort (List BlockEntry) := do
  let blockData ← slice data e.offset ((e.offset + e.size) % 2 ^ 64)
  BlockReader.readEntries blockData

/-- The last block whose first key is at most `key`, or the first block. -/
def findBlock (index : List IndexEntry) (key : Bytes) : ℕ :=
  match binarySearchBy (fun e => compare e.firstKey key) index with
  | .ok i => i
  | .error i => i - 1

/-- `none` for a key that is not in the file, `some none` for a tombstone. -/
def get [BloomHash] (r : SSTableReader) (key : Bytes) :
    Except Abort (Option (Option Bytes)) := do
  if !(← r.bloom.mayContain key) then return none
  match r.index[findBlock r.index key]? with
  | none => return none
  | some e => return BlockReader.lookup (← readBlock r.data e) key

/-- All entries in key order. -/
def iter (r : SSTableReader) : Except Abort (List BlockEntry) := do
  return (← r.index.mapM (readBlock r.data)).flatten

/-- The loop of `scan`, which ends at the first key from `stop` on. -/
def scanLoop (start stop : Bytes) : List BlockEntry → List BlockEntry
  | [] => []
  | e :: es =>
    if start ≤ e.key ∧ e.key < stop then e :: scanLoop start stop es
    else if stop ≤ e.key then []
    else scanLoop start stop es

/-- The entries with a key in `[start, stop)`. -/
def scan (r : SSTableReader) (start stop : Bytes) : Except Abort (List BlockEntry) := do
  return scanLoop start stop (← r.iter)

end SSTableReader

end Raftrust.Storage
