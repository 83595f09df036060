import Raftrust.Mvcc.Content
import Raftrust.Mvcc.Readable
import Raftrust.Storage.Scan

/-!
# The range that is scanned for a key

The end of the range is the key incremented as a number. For a key of bytes `0xFF` that comes
before the key itself in the order of byte strings, and the range is inverted. Any other key has its
own versions in the range and, before the last revision, none of a key that neither starts with it
nor is the start of it.
-/

namespace Raftrust.Mvcc

open Lib Storage

/-- Some byte of the key is not `0xFF`, so that incrementing the key keeps its length. -/
def Incrementable (key : Bytes) : Prop :=
  ∃ b ∈ key, b ≠ 255
  deriving Decidable

/-! ### Incrementing -/

lemma carry_append_of_exists {bs : Bytes} (h : ∃ b ∈ bs, b ≠ 255) (cs : Bytes) :
    carry (bs ++ cs) = carry bs ++ cs := by
  induction bs with
  | nil => simp at h
  | cons b bs ih =>
    rw [List.cons_append, carry, carry]
    split
    · rfl
    · next hb =>
      obtain ⟨x, hx, hne⟩ := h
      rcases List.mem_cons.mp hx with rfl | hmem
      · exact absurd (lt_of_le_of_ne (Fin.le_last x) hne) hb
      · rw [ih ⟨x, hmem, hne⟩, List.cons_append]

lemma carry_append_of_forall {bs : Bytes} (h : ∀ b ∈ bs, b = 255) (cs : Bytes) :
    carry (bs ++ cs) = List.replicate bs.length 0 ++ carry cs := by
  induction bs with
  | nil => rfl
  | cons b bs ih =>
    obtain rfl := h b List.mem_cons_self
    rw [List.cons_append, carry, if_neg (by decide), ih fun b hb => h b (List.mem_cons_of_mem _ hb)]
    rfl

lemma incrementBytes_cons_of_incrementable {key : Bytes} (h : Incrementable key) (b : Byte) :
    incrementBytes (b :: key) = b :: incrementBytes key := by
  have h' : ∃ b ∈ key.reverse, b ≠ 255 := by simpa [Incrementable] using h
  rw [incrementBytes, List.reverse_cons, carry_append_of_exists h', List.reverse_append]
  rfl

lemma incrementBytes_cons_of_forall {key : Bytes} (h : ∀ b ∈ key, b = 255) {b : Byte}
    (hb : b ≠ 255) : incrementBytes (b :: key) = (b + 1) :: List.replicate key.length 0 := by
  have h' : ∀ b ∈ key.reverse, b = 255 := by simpa using h
  have hlt : b < 255 := lt_of_le_of_ne (Fin.le_last b) hb
  rw [incrementBytes, List.reverse_cons, carry_append_of_forall h', carry, if_pos hlt]
  simp

lemma forall_or_incrementable (key : Bytes) : (∀ b ∈ key, b = 255) ∨ Incrementable key := by
  by_cases h : Incrementable key
  · exact .inr h
  · exact .inl fun b hb => not_not.mp fun hne => h ⟨b, hb, hne⟩

/-! ### Order -/

lemma Incrementable.ne_of_forall {key : Bytes} {b : Byte} (h : Incrementable (b :: key))
    (hall : ∀ b ∈ key, b = 255) : b ≠ 255 := by
  rintro rfl
  obtain ⟨x, hx, hne⟩ := h
  rcases List.mem_cons.mp hx with rfl | hmem
  · exact hne rfl
  · exact hne (hall x hmem)

lemma append_lt_incrementBytes {key : Bytes} (h : Incrementable key) (xs ys : Bytes) :
    key ++ xs < incrementBytes key ++ ys := by
  induction key with
  | nil => simp [Incrementable] at h
  | cons b key ih =>
    rcases forall_or_incrementable key with hall | hinc
    · have hb := h.ne_of_forall hall
      rw [incrementBytes_cons_of_forall hall hb, List.cons_append, List.cons_append,
        List.cons_lt_cons_iff]
      exact .inl ((lt_add_one_iff_le hb).mpr le_rfl)
    · rw [incrementBytes_cons_of_incrementable hinc, List.cons_append, List.cons_append,
        List.cons_lt_cons_iff]
      exact .inr ⟨rfl, ih hinc⟩

/-- What lies between a key and its increment, and neither starts with the key nor is the start of
it, goes on with zeros. -/
lemma eq_zero_of_lt_incrementBytes {key other xs ys : Bytes} {n : ℕ} (h : Incrementable key)
    (hkey : ¬ key <+: other) (hother : ¬ other <+: key) (hle : ¬ other ++ xs < key ++ ys)
    (hlt : other ++ xs < incrementBytes key ++ List.replicate n 0) : ∀ x ∈ xs, x = 0 := by
  induction key generalizing other with
  | nil => exact absurd List.nil_prefix hkey
  | cons b key ih =>
    cases other with
    | nil => exact absurd List.nil_prefix hother
    | cons c other =>
      rw [List.cons_append, List.cons_append, List.cons_lt_cons_iff, not_or, not_and] at hle
      rcases forall_or_incrementable key with hall | hinc
      · have hb := h.ne_of_forall hall
        rw [incrementBytes_cons_of_forall hall hb, List.cons_append, List.cons_append,
          List.cons_lt_cons_iff, List.replicate_append_replicate] at hlt
        rcases hlt with hc | ⟨-, hlt⟩
        · -- the first bytes agree, and then bytes `0xFF` would have to come first
          obtain rfl : c = b := le_antisymm ((lt_add_one_iff_le hb).mp hc) (not_lt.mp hle.1)
          rw [List.prefix_cons_inj] at hkey hother
          exact absurd (append_lt_append_of_forall hall hkey hother xs ys) (hle.2 rfl)
        · exact fun x hx => eq_zero_of_lt_replicate hlt x (List.mem_append_right _ hx)
      · rw [incrementBytes_cons_of_incrementable hinc, List.cons_append, List.cons_append,
          List.cons_lt_cons_iff] at hlt
        rcases hlt with hc | ⟨rfl, hlt⟩
        · exact absurd hc hle.1
        · rw [List.prefix_cons_inj] at hkey hother
          exact ih hinc hkey hother (hle.2 rfl) hlt

/-! ### Versions in the range -/

/-- The versions of a key do not come before the start of a range that the key is in. -/
lemma encodeKeyPrefixStart_le {startKey key : Bytes} (h : startKey ≤ key) (revision : ℕ) :
    encodeKeyPrefixStart startKey ≤ encodeKey key revision := by
  have hzero : toBe revisionSuffixLen (u64Max - u64Max) = List.replicate revisionSuffixLen 0 := by
    decide
  refine not_lt.mp fun hlt => not_lt.mpr h ?_
  rw [encodeKeyPrefixStart, encodeKey, encodeKey, hzero] at hlt
  exact lt_of_append_lt (by simp) hlt

lemma inScan_encodeKey {key : Bytes} (h : Incrementable key) (revision : ℕ) :
    InScan key (encodeKey key revision) :=
  ⟨encodeKeyPrefixStart_le le_rfl revision, append_lt_incrementBytes h _ _⟩

/-- Versions of an unrelated key are not, before the last revision. -/
lemma not_inScan_encodeKey {key other : Bytes} (h : Incrementable key) (hkey : ¬ key <+: other)
    (hother : ¬ other <+: key) {revision : ℕ} (hrevision : revision < u64Max) :
    ¬ InScan key (encodeKey other revision) := by
  rintro ⟨hle, hlt⟩
  have hzero := eq_zero_of_lt_incrementBytes h hkey hother (not_lt.mpr hle) hlt
  have hsuffix : toBe revisionSuffixLen (u64Max - revision) = toBe revisionSuffixLen 0 := by
    rw [List.eq_replicate_iff.mpr ⟨toBe_length _ _, hzero⟩]
    decide
  have hbound : u64Max - revision < 256 ^ revisionSuffixLen := by
    simp only [u64Max, revisionSuffixLen]
    omega
  have := congrArg fromBe hsuffix
  rw [fromBe_toBe hbound, fromBe_toBe (by decide)] at this
  omega

/-! ### Which versions are in the range -/

/-- The range of a key of bytes `0xFF` is reversed. -/
lemma encodeKeyPrefixEnd_lt_of_forall {key : Bytes} (h : ∀ b ∈ key, b = 255) (hne : key ≠ [])
    (xs : Bytes) : encodeKeyPrefixEnd key < key ++ xs := by
  have hend : incrementBytes key = 1 :: List.replicate key.length 0 := by
    have hreverse : ∀ b ∈ key.reverse, b = 255 := by simpa using h
    have hcarry := carry_append_of_forall hreverse []
    rw [List.append_nil] at hcarry
    rw [incrementBytes, hcarry]
    simp [carry]
  cases key with
  | nil => exact absurd rfl hne
  | cons b key =>
    obtain rfl := h b List.mem_cons_self
    rw [encodeKeyPrefixEnd, hend, List.cons_append, List.cons_append, List.cons_lt_cons_iff]
    exact .inl (by decide)

/-- The range of the empty key ends before all but its last revisions. -/
lemma encodeKey_nil_lt_iff (revision : ℕ) :
    encodeKey [] revision < encodeKeyPrefixEnd [] ↔ u64Max - revision ≤ 2 ^ 56 := by
  have hend : encodeKeyPrefixEnd [] = toBe revisionSuffixLen (2 ^ 56) ++ [0] := by decide
  have hbound : u64Max - revision < 256 ^ revisionSuffixLen := by
    simp only [u64Max, revisionSuffixLen]
    omega
  have hlast : 2 ^ 56 < 256 ^ revisionSuffixLen := by decide
  have hsplit := append_lt_append_iff (a := toBe revisionSuffixLen (u64Max - revision))
    (b := toBe revisionSuffixLen (2 ^ 56)) (by simp) [] [0]
  rw [List.append_nil] at hsplit
  rw [hend, encodeKey, List.nil_append, hsplit, toBe_lt_toBe_iff hbound hlast]
  constructor
  · rintro (hlt | ⟨heq, -⟩)
    · exact hlt.le
    · have := congrArg fromBe heq
      rw [fromBe_toBe hbound, fromBe_toBe hlast] at this
      exact this.le
  · intro hle
    rcases hle.lt_or_eq with hlt | heq
    · exact .inl hlt
    · exact .inr ⟨by rw [heq], by simp⟩

lemma inScan_encodeKey_iff {key : Bytes} {revision : ℕ} :
    InScan key (encodeKey key revision) ↔
      Incrementable key ∨ key = [] ∧ u64Max - revision ≤ 2 ^ 56 := by
  constructor
  · rintro ⟨-, hlt⟩
    rcases forall_or_incrementable key with hall | hinc
    · by_cases hkey : key = []
      · subst hkey
        exact .inr ⟨rfl, (encodeKey_nil_lt_iff revision).mp hlt⟩
      · exact absurd hlt (encodeKeyPrefixEnd_lt_of_forall hall hkey _).not_gt
    · exact .inl hinc
  · rintro (hinc | ⟨rfl, hle⟩)
    · exact inScan_encodeKey hinc revision
    · exact ⟨encodeKeyPrefixStart_le le_rfl revision, (encodeKey_nil_lt_iff revision).mpr hle⟩

/-- Only ranges of keys of `0xFF` bytes are inverted. -/
lemma hasRange_iff {key : Bytes} : MvccStore.HasRange key ↔ key = [] ∨ Incrementable key := by
  constructor
  · intro h
    rcases forall_or_incrementable key with hall | hinc
    · refine .inl (not_not.mp fun hne => ?_)
      exact absurd h (encodeKeyPrefixEnd_lt_of_forall hall hne _).not_ge
    · exact .inr hinc
  · rintro (rfl | hinc)
    · decide
    · exact (inScan_encodeKey hinc 0).1.trans (inScan_encodeKey hinc 0).2.le

lemma Incrementable.scansKey {σ : Type} [StorageEngine σ] {key : Bytes} (h : Incrementable key) :
    MvccStore.ScansKey σ key :=
  (hasRange_iff.mpr (.inr h)).scansKey

/-- A version lies between the ends of its key's range, so that a scan of a memtable that holds it
returns it, exactly if some byte of the key is not `0xFF`, or the key is empty and the revision one
of the last. -/
theorem encodeKey_bracketed_iff (key : Bytes) (revision : ℕ) :
    (encodeKeyPrefixStart key ≤ encodeKey key revision ∧
      encodeKey key revision < encodeKeyPrefixEnd key ∧
      encodeKeyPrefixStart key ≤ encodeKeyPrefixEnd key ∧
      ∀ (m : MemTable) (value : Option Bytes), m.get (encodeKey key revision) = some value →
        ∃ entries, m.scan (encodeKeyPrefixStart key) (encodeKeyPrefixEnd key) = .ok entries ∧
          ⟨encodeKey key revision, value⟩ ∈ entries) ↔
      Incrementable key ∨ key = [] ∧ u64Max - revision ≤ 2 ^ 56 := by
  rw [← inScan_encodeKey_iff]
  constructor
  · rintro ⟨hle, hlt, -⟩
    exact ⟨hle, hlt⟩
  · intro h
    have hrange := h.1.trans h.2.le
    refine ⟨h.1, h.2, hrange, fun m value hget => ⟨_, MemTable.scan_eq hrange, ?_⟩⟩
    rw [SSTable.range, List.mem_filter, ← SSTable.get_eq_some_iff, MemTable.get_toTable]
    exact ⟨hget, decide_eq_true h⟩

/-- The range of the key `0xFF` is reversed, and a memtable that holds its version panics on it. The
range of the empty key leaves out its first revision. -/
theorem ranges_miss_versions :
    (encodeKeyPrefixEnd [255] < encodeKeyPrefixStart [255] ∧
      ((MemTable.new 0).put (encodeKey [255] 1) [7]).scan (encodeKeyPrefixStart [255])
        (encodeKeyPrefixEnd [255]) = .error .panicked) ∧
    encodeKeyPrefixEnd [] ≤ encodeKey [] 1 := by
  refine ⟨⟨by decide, ?_⟩, by decide⟩
  exact if_pos ⟨by decide, by decide +kernel⟩

/-- Before the last revision, the versions in the range of a key that no other one starts with or is
the start of are its own. -/
lemma eq_of_inScan_encodeKey {key other : Bytes} (hkey : key <+: other → key = other)
    (hother : other <+: key → other = key) {revision : ℕ} (hrevision : revision < u64Max)
    (hin : InScan key (encodeKey other revision)) : other = key := by
  by_contra hne
  rcases forall_or_incrementable key with hall | hinc
  · by_cases hnil : key = []
    · exact hne (hkey (hnil ▸ List.nil_prefix)).symm
    · have hempty : encodeKeyPrefixEnd key < encodeKeyPrefixStart key :=
        encodeKeyPrefixEnd_lt_of_forall hall hnil _
      exact absurd (hin.1.trans_lt hin.2) (lt_asymm hempty)
  · exact not_inScan_encodeKey hinc (fun h => hne (hkey h).symm) (fun h => hne (hother h))
      hrevision hin

/-! ### The latest version -/

namespace MvccStore

variable {σ : Type} [StorageEngine σ] {s : MvccStore σ}

/-- A read without a bound takes the first version that is scanned. -/
lemma get_of_scanKey_eq_cons {key internalKey rawValue : Bytes} {rest : List (Bytes × Bytes)}
    (h : s.scanKey key = (internalKey, rawValue) :: rest)
    (hlen : revisionSuffixLen ≤ internalKey.length) :
    s.get key = (VersionedValue.decode rawValue).map (·.toKeyValue key) := by
  have hle : ¬ u64Max < u64Max - fromBe
      (internalKey.drop (internalKey.length - revisionSuffixLen)) := by
    omega
  rw [get, getAtRevision, h, firstVisible, decodeKey, if_neg (not_lt.mpr hlen)]
  simp only [bind, Except.bind, if_neg hle]
  cases VersionedValue.decode rawValue <;> rfl

lemma get_store_of_not_inScan {key internalKey : Bytes} [ScansKey σ key]
    (h : ¬ InScan key internalKey) (rawValue : Bytes) (revision : ℕ) :
    get ⟨StorageEngine.put s.engine internalKey rawValue, revision⟩ key = s.get key := by
  rw [get, getAtRevision, scanKey, Scans.scan_put_of_not_mem _ h]
  rfl

/-- A version with the least internal key in the range is what a read finds. -/
lemma get_store_self {key : Bytes} (h : Incrementable key) {revision : ℕ}
    (hleast : ∀ e : Bytes × Bytes, StorageEngine.get s.engine e.1 = some e.2 → InScan key e.1 →
      encodeKey key revision ≤ e.1) (vv : VersionedValue) (current : ℕ) :
    get ⟨StorageEngine.put s.engine (encodeKey key revision) vv.encode, current⟩ key =
      (VersionedValue.decode vv.encode).map (·.toKeyValue key) := by
  have := h.scansKey (σ := σ)
  obtain ⟨rest, hscan⟩ := Scans.exists_scan_put_eq_cons (inScan_encodeKey h revision)
    (fun e he => hleast e (Scans.mem_scan.mp he).1 (Scans.mem_scan.mp he).2)
    vv.encode
  exact get_of_scanKey_eq_cons hscan (by simp [encodeKey_length])

end MvccStore

end Raftrust.Mvcc
