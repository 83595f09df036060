import Raftrust.Storage.Wal.Record

/-!
# Writing and reading a write-ahead log file

The writer appends encoded records to a buffer and moves the buffer to the file when it is synced.
The reader decodes records from the start of the file and stops at the first that is torn or
corrupt.
-/

namespace Raftrust.Storage

open Lib

/-! ### Writer -/

/-- An open log: the bytes that are in the file, those still buffered, and the running count. -/
structure WalWriter where
  file : Bytes
  buffer : Bytes
  bytesWritten : ℕ
  deriving DecidableEq, Repr

namespace WalWriter

/-- Open a file for appending. -/
def openFile (file : Bytes) : WalWriter where
  file := file
  buffer := []
  bytesWritten := file.length

/-- Flush the buffer to the file. -/
def sync (w : WalWriter) : WalWriter :=
  { w with file := w.file ++ w.buffer, buffer := [] }

@[simp] lemma openFile_file (f : Bytes) : (openFile f).file = f := rfl

@[simp] lemma openFile_buffer (f : Bytes) : (openFile f).buffer = [] := rfl

@[simp] lemma sync_file (w : WalWriter) : w.sync.file = w.file ++ w.buffer := rfl

@[simp] lemma sync_buffer (w : WalWriter) : w.sync.buffer = [] := rfl

variable [Crc32]

/-- Append a record to the buffer. -/
def append (w : WalWriter) (data : Bytes) : WalWriter :=
  let record := WalRecord.mk data
  { w with
    buffer := w.buffer ++ record.encode
    bytesWritten := w.bytesWritten + (headerSize + data.length) }

end WalWriter

variable [Crc32]

/-- The file that holds exactly the records `rs`. -/
def encodeAll (rs : List WalRecord) : Bytes :=
  rs.flatMap WalRecord.encode

@[simp] lemma encodeAll_nil : encodeAll [] = [] := rfl

@[simp] lemma encodeAll_cons (r : WalRecord) (rs : List WalRecord) :
    encodeAll (r :: rs) = r.encode ++ encodeAll rs := by
  simp [encodeAll]

@[simp] lemma encodeAll_append (rs rs' : List WalRecord) :
    encodeAll (rs ++ rs') = encodeAll rs ++ encodeAll rs' := by
  simp [encodeAll]

namespace WalWriter

@[simp] lemma append_file (w : WalWriter) (data : Bytes) : (w.append data).file = w.file := rfl

@[simp] lemma append_buffer (w : WalWriter) (data : Bytes) :
    (w.append data).buffer = w.buffer ++ (WalRecord.mk data).encode := rfl

@[simp] lemma foldl_append_file (w : WalWriter) (ds : List Bytes) :
    (ds.foldl append w).file = w.file := by
  induction ds generalizing w with
  | nil => rfl
  | cons d ds ih => simp [ih]

@[simp] lemma foldl_append_buffer (w : WalWriter) (ds : List Bytes) :
    (ds.foldl append w).buffer = w.buffer ++ encodeAll (ds.map WalRecord.mk) := by
  induction ds generalizing w with
  | nil => simp
  | cons d ds ih => simp [ih]

end WalWriter

/-! ### Reader -/

namespace WalReader

/-- The replay loop. Every record takes at least a header, so the length of the input bounds the
number of rounds. -/
def readLoop : ℕ → Bytes → Except Error (List WalRecord)
  | 0, _ => .ok []
  | fuel + 1, r =>
    match WalRecord.decode r with
    | .ok (some (record, rest)) => (readLoop fuel rest).map (record :: ·)
    | .ok none => .ok []
    | .error (.corruption _) => .ok []
    | .error e => .error e

/-- Read all valid records. Stops at the first corruption. -/
def readAll (file : Bytes) : Except Error (List WalRecord) :=
  readLoop (file.length + 1) file

lemma length_rest_lt {f rest : Bytes} {r : WalRecord}
    (h : WalRecord.decode f = .ok (some (r, rest))) : rest.length < f.length := by
  obtain ⟨rfl, -⟩ := WalRecord.encode_of_decode h
  simp [WalRecord.encode_length, headerSize]

/-- More rounds than bytes change nothing. -/
lemma readLoop_eq_readAll {fuel : ℕ} {f : Bytes} (h : f.length < fuel) :
    readLoop fuel f = readAll f := by
  have key : ∀ (a b : ℕ) (f : Bytes), f.length < a → f.length < b →
      readLoop a f = readLoop b f := by
    intro a
    induction a with
    | zero => intro b f ha; omega
    | succ a ih =>
      intro b f ha hb
      cases b with
      | zero => omega
      | succ b =>
        simp only [readLoop]
        split
        · next r rest hdec =>
          have := length_rest_lt hdec
          rw [ih b rest (by omega) (by omega)]
        · rfl
        · rfl
        · rfl
  exact key fuel (f.length + 1) f h (Nat.lt_succ_self _)

lemma readAll_of_decode_some {f rest : Bytes} {r : WalRecord}
    (h : WalRecord.decode f = .ok (some (r, rest))) :
    readAll f = (readAll rest).map (r :: ·) := by
  rw [readAll, readLoop, h]
  simp only
  rw [readLoop_eq_readAll (length_rest_lt h)]

lemma readAll_of_decode_none {f : Bytes} (h : WalRecord.decode f = .ok none) :
    readAll f = .ok [] := by
  rw [readAll, readLoop, h]

lemma readAll_of_decode_corruption {f : Bytes} {msg : String}
    (h : WalRecord.decode f = .error (.corruption msg)) : readAll f = .ok [] := by
  rw [readAll, readLoop, h]

/-- No longer record is returned. -/
lemma length_le_of_mem_readAll {f : Bytes} {rs : List WalRecord} (h : readAll f = .ok rs)
    {r : WalRecord} (hr : r ∈ rs) : r.data.length ≤ maxRecordLen := by
  have key : ∀ (fuel : ℕ) (f : Bytes) (rs : List WalRecord), readLoop fuel f = .ok rs →
      ∀ r ∈ rs, r.data.length ≤ maxRecordLen := by
    intro fuel
    induction fuel with
    | zero => rintro f rs ⟨⟩ r hr; simp at hr
    | succ fuel ih =>
      intro f rs hread
      rw [readLoop] at hread
      split at hread
      · next record rest hdec =>
        cases hrest : readLoop fuel rest with
        | error e => rw [hrest] at hread; cases hread
        | ok rs' =>
          rw [hrest] at hread
          obtain rfl := Except.ok.inj hread
          exact List.forall_mem_cons.mpr
            ⟨(WalRecord.encode_of_decode hdec).2, ih rest rs' hrest⟩
      · cases hread; simp
      · cases hread; simp
      · cases hread
  exact key _ _ _ h r hr

/-- A file of records of allowed length is read back in full, and reading goes on behind it. -/
lemma readAll_encodeAll_append {rs : List WalRecord} (h : ∀ r ∈ rs, r.data.length ≤ maxRecordLen)
    (tail : Bytes) : readAll (encodeAll rs ++ tail) = (readAll tail).map (rs ++ ·) := by
  induction rs with
  | nil => cases hr : readAll tail <;> simp [hr, Except.map]
  | cons r rs ih =>
    have hr := h r List.mem_cons_self
    have hrs := ih fun r' hr' => h r' (List.mem_cons_of_mem _ hr')
    rw [encodeAll_cons, List.append_assoc,
      readAll_of_decode_some (WalRecord.decode_encode_append r _ hr), hrs]
    cases readAll tail <;> rfl

@[simp] lemma readAll_nil : readAll [] = .ok [] :=
  readAll_of_decode_none rfl

lemma readAll_encodeAll {rs : List WalRecord} (h : ∀ r ∈ rs, r.data.length ≤ maxRecordLen) :
    readAll (encodeAll rs) = .ok rs := by
  have hread := readAll_encodeAll_append h []
  rw [List.append_nil, readAll_nil] at hread
  simpa [Except.map] using hread

/-- Behind a torn record nothing is read. -/
lemma readAll_take_encode {d : Bytes} (h : d.length ≤ maxRecordLen) {k : ℕ}
    (hk : k < headerSize + d.length) :
    readAll ((WalRecord.encode ⟨d⟩).take k) = .ok [] := by
  have hlt : k < (WalRecord.encode ⟨d⟩).length := by rwa [WalRecord.encode_length]
  rcases WalRecord.decode_take_encode ⟨d⟩ h hlt with hnone | ⟨msg, he⟩
  · exact readAll_of_decode_none hnone
  · exact readAll_of_decode_corruption he

end WalReader

end Raftrust.Storage
