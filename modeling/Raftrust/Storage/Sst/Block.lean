import Raftrust.Lib.BinarySearch
import Raftrust.Storage.Tables

/-!
# Data blocks

A block is `[key_len: 4 LE][val_len: 4 LE][key][value]` for each entry, in key order, and then
`[num_entries: 4 LE]`. A tombstone has the greatest value length and no value. All counts are cut
to 32 bits.
-/

namespace Raftrust.Storage

open Lib

/-- The value length that marks a tombstone. -/
def tombstoneMarker : ℕ := 2 ^ 32 - 1

def corruption (msg : String) : Abort :=
  .error (.corruption msg)

namespace BlockEntry

def valLen (e : BlockEntry) : ℕ :=
  match e.value with
  | some v => v.length
  | none => tombstoneMarker

def encode (e : BlockEntry) : Bytes :=
  toLe 4 e.key.length ++ toLe 4 e.valLen ++ e.key ++ e.value.getD []

/-- The lengths of key and value fit into their fields. -/
@[mk_iff]
structure Short (e : BlockEntry) : Prop where
  key : e.key.length < 2 ^ 32
  value : ∀ v ∈ e.value, v.length < tombstoneMarker

instance (e : BlockEntry) : Decidable e.Short :=
  decidable_of_iff _ (short_iff e).symm

end BlockEntry

/-! ### Building -/

/-- The entries of a block under construction and its size with the trailer. -/
structure BlockBuilder where
  entries : List BlockEntry
  size : ℕ
  deriving DecidableEq, Repr

namespace BlockBuilder

def new : BlockBuilder where
  entries := []
  size := 4

def add (b : BlockBuilder) (e : BlockEntry) : BlockBuilder where
  entries := b.entries ++ [e]
  size := b.size + (4 + 4 + e.key.length + (e.value.map (·.length)).getD 0)

def firstKey (b : BlockBuilder) : Option Bytes :=
  b.entries.head?.map (·.key)

/-- The bytes of a block. -/
def build (entries : List BlockEntry) : Bytes :=
  entries.flatMap BlockEntry.encode ++ toLe 4 entries.length

end BlockBuilder

/-! ### Reading -/

namespace BlockReader

/-- Read `n` entries. -/
def readLoop : ℕ → Bytes → Except Abort (List BlockEntry)
  | 0, _ => .ok []
  | n + 1, rest =>
    if rest.length < 8 then .error (corruption "block entry truncated")
    else
      let keyLen := fromLe (rest.take 4)
      let valLenRaw := fromLe ((rest.drop 4).take 4)
      let rest := rest.drop 8
      if rest.length < keyLen then .error (corruption "block key truncated")
      else
        let key := rest.take keyLen
        let rest := rest.drop keyLen
        if valLenRaw = tombstoneMarker then (readLoop n rest).map (⟨key, none⟩ :: ·)
        else if rest.length < valLenRaw then .error (corruption "block value truncated")
        else (readLoop n (rest.drop valLenRaw)).map (⟨key, some (rest.take valLenRaw)⟩ :: ·)

/-- Parse all entries of a block. -/
def readEntries (data : Bytes) : Except Abort (List BlockEntry) :=
  if data.length < 4 then .error (corruption "block too small")
  else
    let payloadEnd := data.length - 4
    readLoop (fromLe (data.drop payloadEnd)) (data.take payloadEnd)

/-- Binary search for a key. -/
def search (entries : List BlockEntry) (key : Bytes) : Option ℕ :=
  (binarySearchBy (fun e => compare e.key key) entries).toOption

/-- The value found in a block. -/
def lookup (entries : List BlockEntry) (key : Bytes) : Option (Option Bytes) :=
  (search entries key).bind fun i => entries[i]?.map (·.value)

/-! ### What was built is read back -/

lemma readLoop_encode_append {e : BlockEntry} (h : e.Short) (n : ℕ) (rest : Bytes) :
    readLoop (n + 1) (e.encode ++ rest) = (readLoop n rest).map (e :: ·) := by
  have hkey : fromLe (toLe 4 e.key.length) = e.key.length := fromLe_toLe h.key
  have hlen : ¬(e.encode ++ rest).length < 8 := by
    simp only [BlockEntry.encode, List.length_append, toLe_length]
    omega
  rw [readLoop, if_neg hlen]
  obtain ⟨key, value⟩ := e
  cases value with
  | none =>
    have hval : fromLe (toLe 4 tombstoneMarker) = tombstoneMarker := fromLe_toLe (by decide)
    simp [BlockEntry.encode, BlockEntry.valLen, hkey, hval]
  | some v =>
    have hlt : v.length < tombstoneMarker := h.value v rfl
    have hval : fromLe (toLe 4 v.length) = v.length :=
      fromLe_toLe (hlt.trans (by decide))
    simp [BlockEntry.encode, BlockEntry.valLen, hkey, hval, hlt.ne]

lemma readEntries_build (entries : List BlockEntry) :
    readEntries (BlockBuilder.build entries) =
      readLoop (entries.length % 2 ^ 32) (entries.flatMap BlockEntry.encode) := by
  have hlen : (BlockBuilder.build entries).length =
      (entries.flatMap BlockEntry.encode).length + 4 := by
    rw [BlockBuilder.build, List.length_append, toLe_length]
  have hcount : fromLe (toLe 4 entries.length) = entries.length % 2 ^ 32 := fromLe_toLe_mod 4 _
  rw [readEntries, if_neg (by omega), hlen, Nat.add_sub_cancel]
  simp only [BlockBuilder.build, List.drop_left, List.take_left, hcount]

/-- A block is read back up to the number of entries that its trailer holds. -/
theorem readEntries_build_take {entries : List BlockEntry} (h : ∀ e ∈ entries, e.Short) :
    readEntries (BlockBuilder.build entries) =
      .ok (entries.take (entries.length % 2 ^ 32)) := by
  rw [readEntries_build]
  exact readLoop_flatMap (fun _ => rfl) (fun _ he => readLoop_encode_append he) h (Nat.mod_le _ _)

/-- Of a key whose length field is zero nothing is read back. -/
lemma readLoop_encode_of_mod {key : Bytes} (h : key.length % 2 ^ 32 = 0) (rest : Bytes) :
    readLoop 1 (BlockEntry.encode ⟨key, some []⟩ ++ rest) = .ok [⟨[], some []⟩] := by
  have hkey : fromLe (toLe 4 key.length) = 0 := (fromLe_toLe_mod 4 _).trans h
  have hval : fromLe (toLe 4 0) = 0 := rfl
  have hlen : ¬(BlockEntry.encode ⟨key, some []⟩ ++ rest).length < 8 := by
    simp only [BlockEntry.encode, List.length_append, toLe_length]
    omega
  rw [readLoop, if_neg hlen]
  simp [BlockEntry.encode, BlockEntry.valLen, hkey, hval, readLoop, tombstoneMarker]
  rfl

/-! ### Searching -/

lemma ascending_compare {α : Type*} {key : α → Bytes} {l : List α}
    (h : l.Pairwise fun a b => key a < key b) (k : Bytes) :
    Ascending (fun a => compare (key a) k) l := by
  refine h.imp fun {a b} hab hb => ?_
  rw [ne_eq, compare_eq_gt_iff, not_lt] at hb
  exact (compare_eq_lt_iff _ _).mpr (hab.trans_le hb)

/-- In a sorted block the search finds what the block says about the key. -/
lemma lookup_eq_get (t : SSTable) (key : Bytes) : lookup t.entries key = t.get key := by
  rw [lookup, search]
  rcases binarySearchBy_spec (ascending_compare t.sorted key) with
    ⟨i, e, hsearch, hi, he⟩ | ⟨i, hsearch, -, hbefore, hbehind⟩
  · have hkey : e.key = key := Std.LawfulEqOrd.compare_eq_iff_eq.mp he
    have hget : t.get key = some e.value :=
      SSTable.get_eq_some_iff.mpr (hkey ▸ List.mem_of_getElem? hi)
    rw [hsearch, hget]
    simp [Except.toOption, hi]
  · have hnone : t.get key = none := by
      by_contra hne
      obtain ⟨v, hv⟩ := Option.ne_none_iff_exists'.mp hne
      obtain ⟨j, hj⟩ := List.mem_iff_getElem?.mp (SSTable.get_eq_some_iff.mp hv)
      have heq : compare key key = .eq := Std.LawfulEqOrd.compare_eq_iff_eq.mpr rfl
      rcases Nat.lt_or_ge j i with hlt | hge
      · simpa [heq] using hbefore j _ hlt hj
      · simpa [heq] using hbehind j _ hge hj
    rw [hsearch, hnone]
    rfl

end BlockReader

end Raftrust.Storage
