import Raftrust.Lib.Run
import Raftrust.Mvcc.Store

/-!
# Stores with the same versions

Two stores, perhaps on different engines, that hold the same records and have allocated the same
revisions cannot be told apart: reads return the same, and the same write keeps them alike.
-/

namespace Raftrust.Mvcc

open Lib Storage

namespace MvccStore

variable {σ τ : Type} [OrderedEngine σ] [OrderedEngine τ]

/-- The same records under every internal key, and the same revision. -/
structure SameVersions (s : MvccStore σ) (t : MvccStore τ) : Prop where
  revision : s.currentRevision = t.currentRevision
  get : ∀ internalKey,
    StorageEngine.get s.engine internalKey = StorageEngine.get t.engine internalKey

namespace SameVersions

lemma refl (s : MvccStore σ) : SameVersions s s where
  revision := rfl
  get _ := rfl

variable {s : MvccStore σ} {t : MvccStore τ} (h : SameVersions s t)

include h

lemma scanKey_eq (key : Bytes) : s.scanKey key = t.scanKey key :=
  Scans.scan_congr h.get

lemma get_eq (key : Bytes) : s.get key = t.get key := by
  simp only [MvccStore.get, getAtRevision, h.scanKey_eq]

lemma getLatestVersionInfo_eq (key : Bytes) :
    s.getLatestVersionInfo key = t.getLatestVersionInfo key := by
  simp only [getLatestVersionInfo, h.scanKey_eq]

lemma nextRevision : SameVersions s.nextRevision.2 t.nextRevision.2 where
  revision := by simp only [MvccStore.nextRevision, h.revision]
  get := h.get

lemma put (internalKey value : Bytes) (revision : ℕ) :
    SameVersions ⟨StorageEngine.put s.engine internalKey value, revision⟩
      ⟨StorageEngine.put t.engine internalKey value, revision⟩ where
  revision := rfl
  get key := by rw [StorageEngine.get_put, StorageEngine.get_put, h.get]

lemma putWithOptions (key value : Bytes) (leaseId ttlSeconds : Int64) :
    Agree (fun a b => a.1 = b.1 ∧ SameVersions a.2 b.2)
      (s.putWithOptions key value leaseId ttlSeconds)
      (t.putWithOptions key value leaseId ttlSeconds) := by
  refine Agree.bind (.of_eq (fun _ => rfl) (h.nextRevision.getLatestVersionInfo_eq key)) ?_
  rintro info _ - - rfl
  dsimp only
  rw [h.revision]
  exact ⟨rfl, h.put _ _ _⟩

lemma delete (key : Bytes) :
    Agree (fun a b => a.1 = b.1 ∧ a.2.1 = b.2.1 ∧ SameVersions a.2.2 b.2.2)
      (s.delete key) (t.delete key) := by
  refine Agree.bind (.of_eq (fun _ => rfl) (h.getLatestVersionInfo_eq key)) ?_
  rintro info _ - - rfl
  simp only [MvccStore.nextRevision, h.revision]
  exact ⟨rfl, rfl, h.put _ _ _⟩

end SameVersions

end MvccStore

end Raftrust.Mvcc
