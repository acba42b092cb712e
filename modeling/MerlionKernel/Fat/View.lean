import Mathlib.Tactic.Linarith
import MerlionKernel.Fat.Image
import MerlionKernel.Theory.Chain

/-!
# What the bytes of an MF16 disk mean

The allocation table, the directory and the data clusters are read off the bytes of a
disk by total functions. On a buffer that `format` accepts, the bounds-checked reads of
the source return exactly these values, and a write is described by the table entry or
the directory entry it changes and by the bytes it leaves alone.
-/

namespace MerlionKernel.Fat

open Rust

theorem fatOffset_eq (c : Nat) : fatOffset c = 512 + 2 * c := by
  simp only [fatOffset, fatStart, clusterSize]; omega

theorem entryOffset_eq (i : Nat) : entryOffset i = 2048 + 32 * i := by
  simp only [entryOffset, dirStart, clusterSize, entrySize]; omega

theorem dataOffset_eq (c : Nat) : dataOffset c = 4096 + 512 * c := by
  simp only [dataOffset, dataStart, clusterSize]; omega

theorem maxClusters_eq : maxClusters = 768 := rfl

/-- The smallest buffer that `format` accepts. -/
def minLength : Nat := 4608

/-! ### Table and directory entries -/

/-- The table entry of a cluster. -/
def fatEntry (disk : Disk) (c : Nat) : Nat :=
  fromLe [byteAt disk (fatOffset c), byteAt disk (fatOffset c + 1)]

/-- The flag of a directory entry. -/
def flagAt (disk : Disk) (i : Nat) : UInt8 := byteAt disk (entryOffset i + 17)

/-- A directory entry in use. -/
def Active (disk : Disk) (i : Nat) : Prop := flagAt disk i = 1

instance (disk : Disk) (i : Nat) : Decidable (Active disk i) :=
  inferInstanceAs (Decidable (flagAt disk i = 1))

/-- The length of the name of a directory entry. -/
def nameLenAt (disk : Disk) (i : Nat) : Nat := (byteAt disk (entryOffset i + 16)).toNat

/-- The bytes of the name of a directory entry. -/
def nameAt (disk : Disk) (i : Nat) : Bytes := window disk (entryOffset i) (nameLenAt disk i)

/-- The first cluster of a directory entry. -/
def startAt (disk : Disk) (i : Nat) : Nat :=
  fromLe [byteAt disk (entryOffset i + 18), byteAt disk (entryOffset i + 19)]

/-- The file size of a directory entry. -/
def sizeAt (disk : Disk) (i : Nat) : Nat :=
  fromLe [byteAt disk (entryOffset i + 20), byteAt disk (entryOffset i + 21),
    byteAt disk (entryOffset i + 22), byteAt disk (entryOffset i + 23)]

/-- A cluster that no chain uses. -/
def Free (disk : Disk) (c : Nat) : Prop := fatEntry disk c = fatFree

instance (disk : Disk) (c : Nat) : Decidable (Free disk c) :=
  inferInstanceAs (Decidable (fatEntry disk c = fatFree))

/-! ### Reads return what the bytes mean -/

section Reads

variable {disk : Disk}

theorem readFat_eq (hlen : minLength ≤ disk.length) {c : Nat} (hc : c < maxClusters) :
    readFat disk c = .ok (fatEntry disk c) := by
  rw [maxClusters_eq] at hc
  have hoff := fatOffset_eq c
  have hb : fatOffset c + 1 < disk.length := by unfold minLength at hlen; omega
  simp only [readFat, fatEntry]
  rw [if_neg (by omega), index_byteAt (by omega), index_byteAt hb]
  rfl

theorem slice_magic (hlen : minLength ≤ disk.length) :
    slice disk 0 4 = .ok (window disk 0 4) :=
  slice_window (by omega) (by unfold minLength at hlen; omega)

theorem index_entry (hlen : minLength ≤ disk.length) {i : Nat} (hi : i < maxFiles) (k : Nat)
    (hk : k < 32) : index disk (entryOffset i + k) = .ok (byteAt disk (entryOffset i + k)) := by
  have hoff := entryOffset_eq i
  unfold minLength at hlen
  unfold maxFiles at hi
  exact index_byteAt (by omega)

/-- The name of an entry as the scan of the directory sees it. -/
def entryName (disk : Disk) (i : Nat) : String := (fromUtf8 (nameAt disk i)).getD ""

theorem entryMatches_eq (hlen : minLength ≤ disk.length) (name : String) {i : Nat}
    (hi : i < maxFiles) :
    entryMatches disk name i = .ok (decide (Active disk i ∧ entryName disk i = name)) := by
  have hname : (byteAt disk (entryOffset i + 16)).toNat < 256 := UInt8.toNat_lt _
  have hoff := entryOffset_eq i
  simp only [entryMatches, index_entry hlen hi 17 (by omega),
    index_entry hlen hi 16 (by omega), ok_bind]
  by_cases hact : Active disk i
  · have hflag : byteAt disk (entryOffset i + 17) = 1 := hact
    rw [if_neg (by simp [hflag]), slice_window (by omega) (by
      unfold minLength at hlen; unfold maxFiles at hi; omega)]
    simp [hact, entryName, nameAt, nameLenAt]
  · have hflag : byteAt disk (entryOffset i + 17) ≠ 1 := hact
    rw [if_pos hflag]
    simp [hact]

/-- The scan of the directory finds the first entry that matches. -/
theorem findEntry_eq (name : String) {matches? : Nat → Bool} (slots : List Nat)
    (hslots : ∀ i ∈ slots, entryMatches disk name i = .ok (matches? i)) :
    findEntry disk name slots = .ok (slots.find? matches?) := by
  induction slots with
  | nil => rfl
  | cons i rest ih =>
    rw [findEntry, hslots i List.mem_cons_self, ok_bind, List.find?_cons]
    cases matches? i with
    | true => rfl
    | false => exact ih fun j hj => hslots j (List.mem_cons_of_mem _ hj)

end Reads

/-! ### Writes and the bytes they leave alone -/

/-- `disk'` differs from `disk` at most at the positions from `lo` to `hi`. -/
structure SameOutside (disk disk' : Disk) (lo hi : Nat) : Prop where
  length_eq : disk'.length = disk.length
  byte_eq : ∀ j, j < lo ∨ hi ≤ j → byteAt disk' j = byteAt disk j

namespace SameOutside

variable {disk disk' disk'' : Disk} {lo hi : Nat}

theorem refl (disk : Disk) (lo hi : Nat) : SameOutside disk disk lo hi :=
  ⟨rfl, fun _ _ => rfl⟩

theorem trans (h : SameOutside disk disk' lo hi) (h' : SameOutside disk' disk'' lo hi) :
    SameOutside disk disk'' lo hi :=
  ⟨h'.length_eq.trans h.length_eq, fun j hj => (h'.byte_eq j hj).trans (h.byte_eq j hj)⟩

theorem mono (h : SameOutside disk disk' lo hi) {lo' hi' : Nat} (hlo : lo' ≤ lo)
    (hhi : hi ≤ hi') : SameOutside disk disk' lo' hi' :=
  ⟨h.length_eq, fun j hj => h.byte_eq j (by omega)⟩

theorem splice {src : Bytes} (h : lo + src.length ≤ disk.length) :
    SameOutside disk (splice disk lo src) lo (lo + src.length) :=
  ⟨length_splice h, fun j hj => by rw [byteAt_splice h, if_neg (by omega)]⟩

theorem set (h : lo < disk.length) (b : UInt8) : SameOutside disk (disk.set lo b) lo (lo + 1) :=
  ⟨List.length_set, fun j hj => by rw [byteAt_set b h, if_neg (by omega)]⟩

theorem fatEntry_eq (h : SameOutside disk disk' lo hi) {c : Nat}
    (hc : fatOffset c + 2 ≤ lo ∨ hi ≤ fatOffset c) : fatEntry disk' c = fatEntry disk c := by
  rw [fatEntry, fatEntry, h.byte_eq _ (by omega), h.byte_eq _ (by omega)]

end SameOutside

/-- Two disks have the same directory entry `i`. -/
def SameEntry (disk disk' : Disk) (i : Nat) : Prop :=
  disk'.length = disk.length ∧
    ∀ k < 32, byteAt disk' (entryOffset i + k) = byteAt disk (entryOffset i + k)

namespace SameEntry

variable {disk disk' disk'' : Disk} {i : Nat}

theorem trans (h : SameEntry disk disk' i) (h' : SameEntry disk' disk'' i) :
    SameEntry disk disk'' i :=
  ⟨h'.1.trans h.1, fun k hk => (h'.2 k hk).trans (h.2 k hk)⟩

theorem flagAt_eq (h : SameEntry disk disk' i) : flagAt disk' i = flagAt disk i :=
  h.2 17 (by omega)

theorem active_iff (h : SameEntry disk disk' i) : Active disk' i ↔ Active disk i := by
  rw [Active, Active, h.flagAt_eq]

theorem nameLenAt_eq (h : SameEntry disk disk' i) : nameLenAt disk' i = nameLenAt disk i := by
  rw [nameLenAt, nameLenAt, h.2 16 (by omega)]

theorem startAt_eq (h : SameEntry disk disk' i) : startAt disk' i = startAt disk i := by
  rw [startAt, startAt, h.2 18 (by omega), h.2 19 (by omega)]

theorem sizeAt_eq (h : SameEntry disk disk' i) : sizeAt disk' i = sizeAt disk i := by
  rw [sizeAt, sizeAt, h.2 20 (by omega), h.2 21 (by omega), h.2 22 (by omega), h.2 23 (by omega)]

theorem nameAt_eq (h : SameEntry disk disk' i) (hlen : minLength ≤ disk.length)
    (hi : i < maxFiles) (hname : nameLenAt disk i ≤ 16) : nameAt disk' i = nameAt disk i := by
  have hoff := entryOffset_eq i
  unfold minLength at hlen
  unfold maxFiles at hi
  rw [nameAt, nameAt, h.nameLenAt_eq]
  refine window_congr (by omega) (by rw [h.1]; omega) fun j hj hj' => ?_
  obtain ⟨k, rfl⟩ := Nat.exists_eq_add_of_le hj
  exact h.2 k (by omega)

end SameEntry

theorem SameOutside.sameEntry {disk disk' : Disk} {lo hi : Nat}
    (h : SameOutside disk disk' lo hi) {i : Nat}
    (hi : entryOffset i + 32 ≤ lo ∨ hi ≤ entryOffset i) : SameEntry disk disk' i :=
  ⟨h.length_eq, fun k hk => h.byte_eq _ (by omega)⟩

/-- Writing a table entry changes that entry and nothing else. -/
theorem writeFat_spec {disk : Disk} (hlen : minLength ≤ disk.length) {c v : Nat}
    (hc : c < maxClusters) (hv : v < 65536) :
    Returns (writeFat disk c v) fun disk' =>
      SameOutside disk disk' 512 2048 ∧
        ∀ c', fatEntry disk' c' = if c' = c then v else fatEntry disk c' := by
  rw [maxClusters_eq] at hc
  have hoff := fatOffset_eq c
  have hfit : fatOffset c + (toLe 2 v).length ≤ disk.length := by
    rw [length_toLe]; unfold minLength at hlen; omega
  have hsame := SameOutside.splice hfit
  rw [length_toLe] at hfit hsame
  refine ⟨splice disk (fatOffset c) (toLe 2 v), ?_, hsame.mono (by omega) (by omega), ?_⟩
  · simp only [writeFat]
    rw [if_pos hfit]
    exact copyFromSlice_eq_ok (by rw [length_toLe]) hfit
  · intro c'
    have hoff' := fatOffset_eq c'
    by_cases hcc : c' = c
    · subst hcc
      have h0 : byteAt (splice disk (fatOffset c') (toLe 2 v)) (fatOffset c') = UInt8.ofNat v := by
        rw [byteAt_splice (by rw [length_toLe]; exact hfit), length_toLe, if_pos (by omega),
          Nat.sub_self]
        rfl
      have h1 : byteAt (splice disk (fatOffset c') (toLe 2 v)) (fatOffset c' + 1) =
          UInt8.ofNat (v / 256) := by
        rw [byteAt_splice (by rw [length_toLe]; exact hfit), length_toLe, if_pos (by omega),
          Nat.add_sub_cancel_left]
        rfl
      have hval : fromLe (toLe 2 v) = v := fromLe_toLe_of_lt (by omega)
      rw [fatEntry, h0, h1, if_pos rfl]
      exact hval
    · rw [if_neg hcc]
      exact hsame.fatEntry_eq (by omega)

end MerlionKernel.Fat
