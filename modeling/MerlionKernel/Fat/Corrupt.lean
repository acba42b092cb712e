import Mathlib.Data.List.Perm.Subperm
import MerlionKernel.Fat.View

/-!
# Corrupted images

The allocation table of an image from elsewhere may hold anything: chains may run in circles, join
each other or leave the table. `read_file` ends on every image because each round takes something
off the number of bytes that are left. `delete_file` ends because it sets the entry of a cluster to
0 before it follows it. Where a chain runs into a circle, the cluster at which the circle closes is
met a second time, with the entry 0, and the walk ends there.
-/

namespace MerlionKernel.Fat

open Rust Theory

/-- The clusters that the loop of `delete_file` visits. -/
def freedClusters : Nat → Disk × Nat → List Nat
  | 0, _ => []
  | fuel + 1, s =>
    match freeRound s with
    | .ok (.again s') => s.2 :: freedClusters fuel s'
    | _ => []

/-! ### Entries inside and outside the table -/

/-- What `read_fat` answers. -/
def fatNext (disk : Disk) (c : Nat) : Nat :=
  if fatOffset c + 2 > disk.length then fatEof else fatEntry disk c

/-- The disk after `write_fat` has set an entry to 0. -/
def fatErase (disk : Disk) (c : Nat) : Disk :=
  if fatOffset c + 2 ≤ disk.length then splice disk (fatOffset c) (toLe 2 fatFree) else disk

/-- The marks at which the loop of `delete_file` ends. -/
def Halts (c : Nat) : Prop := c = fatEof ∨ c = fatFree

instance : DecidablePred Halts := fun _ => inferInstanceAs (Decidable (_ ∨ _))

theorem readFat_eq_fatNext (disk : Disk) (c : Nat) : readFat disk c = .ok (fatNext disk c) := by
  unfold readFat fatNext
  dsimp only
  split
  · rfl
  · rw [index_byteAt (by omega), ok_bind, index_byteAt (by omega)]
    rfl

theorem writeFat_eq_fatErase (disk : Disk) (c : Nat) :
    writeFat disk c fatFree = .ok (fatErase disk c) := by
  unfold writeFat fatErase
  dsimp only
  split
  · rename_i hin
    exact copyFromSlice_eq_ok (by rw [length_toLe]) hin
  · rfl

theorem fatEntry_lt (disk : Disk) (c : Nat) : fatEntry disk c < 65536 :=
  (fromLe_lt _).trans_eq (by norm_num)

theorem fatNext_lt (disk : Disk) (c : Nat) : fatNext disk c < 65536 := by
  unfold fatNext
  split
  · decide
  · exact fatEntry_lt disk c

theorem length_fatErase (disk : Disk) (c : Nat) : (fatErase disk c).length = disk.length := by
  unfold fatErase
  split
  · rename_i hin
    exact length_splice (by rwa [length_toLe])
  · rfl

/-- The entry that was set to 0, or that is outside the disk, ends a walk. -/
theorem halts_fatNext_fatErase (disk : Disk) (c : Nat) : Halts (fatNext (fatErase disk c) c) := by
  unfold fatNext
  rw [length_fatErase]
  split
  · exact .inl rfl
  · rename_i hin
    have hfit : fatOffset c + (toLe 2 fatFree).length ≤ disk.length := by
      rw [length_toLe]
      omega
    refine .inr ?_
    unfold fatErase fatEntry
    rw [if_pos (by omega), byteAt_splice hfit, byteAt_splice hfit, length_toLe, if_pos (by omega),
      if_pos (by omega), Nat.sub_self, Nat.add_sub_cancel_left]
    rfl

/-- The entries of other clusters stay, wherever they are. -/
theorem fatNext_fatErase_of_ne {c d : Nat} (disk : Disk) (hne : d ≠ c) :
    fatNext (fatErase disk c) d = fatNext disk d := by
  have hoff := fatOffset_eq c
  have hoff' := fatOffset_eq d
  unfold fatNext
  rw [length_fatErase]
  split
  · rfl
  · unfold fatErase
    split
    · have hfit : fatOffset c + (toLe 2 fatFree).length ≤ disk.length := by rwa [length_toLe]
      apply (SameOutside.splice hfit).fatEntry_eq
      rw [length_toLe]
      omega
    · rfl

/-! ### The walk of `delete_file` -/

theorem freeRound_eq (disk : Disk) (c : Nat) :
    freeRound (disk, c) =
      .ok (if Halts c then .stop disk else .again (fatErase disk c, fatNext disk c)) := by
  unfold freeRound
  dsimp only
  by_cases hhalts : Halts c
  · rw [if_neg fun h => hhalts.elim h.1 h.2, if_pos hhalts]
    rfl
  · rw [if_pos (not_or.mp hhalts), if_neg hhalts, readFat_eq_fatNext, ok_bind,
      writeFat_eq_fatErase]
    rfl

theorem freedClusters_eq (fuel : Nat) (disk : Disk) (c : Nat) :
    freedClusters fuel (disk, c) = visits fatNext fatErase Halts fuel disk c := by
  induction fuel generalizing disk c with
  | zero => rfl
  | succ fuel ih =>
    rw [freedClusters, freeRound_eq, visits]
    split
    · rename_i hflow
      split at hflow
      · cases hflow
      · cases hflow
        rename_i hgo
        rw [if_neg hgo, ih]
    · rename_i hflow
      split at hflow
      · rename_i hhalts
        rw [if_pos hhalts]
      · exact absurd rfl (hflow _)

/-- Only the last cluster that is visited may have been visited before. -/
theorem nodup_dropLast_freedClusters (fuel : Nat) (disk : Disk) (c : Nat) :
    (freedClusters fuel (disk, c)).dropLast.Nodup := by
  rw [freedClusters_eq]
  exact nodup_dropLast_visits halts_fatNext_fatErase (fun s _ _ => fatNext_fatErase_of_ne s) ..

theorem length_freedClusters_le (fuel : Nat) (disk : Disk) {c : Nat} (hc : c < 65536) :
    (freedClusters fuel (disk, c)).length ≤ 65535 := by
  have hnodup := nodup_dropLast_freedClusters fuel disk c
  have hsub : (freedClusters fuel (disk, c)).dropLast ⊆ List.range' 1 65534 := by
    intro d hd
    rw [freedClusters_eq] at hd
    have hvisit := forall_mem_visits (p := (· < 65536)) fatNext_lt hc d
      (List.dropLast_subset _ hd)
    have hgo := not_or.mp hvisit.2
    unfold fatEof fatFree at hgo
    rw [List.mem_range'_1]
    omega
  have hle := (hnodup.subperm hsub).length_le
  rw [List.length_dropLast, List.length_range'] at hle
  omega

/-- The loop returns when it has rounds for the clusters it visits, and one to end. -/
theorem loop_freeRound_returns {fuel : Nat} {disk : Disk} {c : Nat}
    (hfuel : (freedClusters fuel (disk, c)).length < fuel) :
    Returns (loop freeRound fuel (disk, c)) fun disk' => disk'.length = disk.length := by
  induction fuel generalizing disk c with
  | zero => exact absurd hfuel (Nat.not_lt_zero _)
  | succ fuel ih =>
    have hround := freeRound_eq disk c
    by_cases hhalts : Halts c
    · rw [if_pos hhalts] at hround
      rw [loop_stop hround]
      exact .ok rfl
    · rw [if_neg hhalts] at hround
      rw [loop_again hround]
      rw [freedClusters, hround] at hfuel
      exact (ih (Nat.lt_of_succ_lt_succ hfuel)).mono fun disk' hlen =>
        hlen.trans (length_fatErase disk c)

/-- The rounds that the model grants suffice. -/
theorem freeChain_returns (disk : Disk) {start : Nat} (hstart : start < 65536) :
    Returns (loop freeRound (2 ^ 16 + 1) (disk, start)) fun disk' =>
      disk'.length = disk.length := by
  have hvisits := length_freedClusters_le (2 ^ 16 + 1) disk hstart
  exact loop_freeRound_returns (Nat.lt_of_le_of_lt hvisits (by decide))

/-! ### The functions -/

/-- The walk of `read_file` ends, since every round lowers the number of bytes left. -/
theorem loop_readRound_returns (disk : Disk) (s : ReadState) :
    Returns (loop (readRound disk) (s.remaining + 1) s) fun _ => True := by
  apply loop_returns (fun _ => True) ReadState.remaining _ trivial (Nat.lt_succ_self _)
  intro s _
  unfold readRound
  split
  · rename_i hgo
    dsimp only
    have hsmaller : s.remaining - min s.remaining clusterSize < s.remaining := by
      have hpos : 0 < clusterSize := by decide
      omega
    split
    · rename_i hin
      rw [slice_eq_ok (Nat.le_add_right ..) hin, ok_bind, readFat_eq_fatNext]
      exact .ok ⟨trivial, hsmaller⟩
    · rw [pure_eq_ok, ok_bind, readFat_eq_fatNext]
      exact .ok ⟨trivial, hsmaller⟩
  · exact .ok trivial

section Functions

variable {disk : Disk} (hlen : minLength ≤ disk.length) (name : String)

include hlen

/-- The scan of the directory returns on every image. -/
theorem findEntry_returns :
    Returns (findEntry disk name (List.range maxFiles)) fun slot => ∀ i, slot = some i →
      i < maxFiles := by
  refine ⟨_, findEntry_eq name _ fun i hi => entryMatches_eq hlen name (List.mem_range.mp hi), ?_⟩
  intro i hi
  exact List.mem_range.mp (List.mem_of_find?_eq_some hi)

theorem readFile_returns : Returns (readFile disk name) fun _ => True := by
  unfold readFile
  rw [slice_magic hlen, ok_bind]
  split
  · exact .ok trivial
  · obtain ⟨slot, hslot, hlt⟩ := findEntry_returns hlen name
    rw [hslot, ok_bind]
    cases slot with
    | none => exact .ok trivial
    | some i =>
      have hi := hlt i rfl
      dsimp only
      rw [index_entry hlen hi 18 (by decide), ok_bind, index_entry hlen hi 19 (by decide), ok_bind,
        index_entry hlen hi 20 (by decide), ok_bind, index_entry hlen hi 21 (by decide), ok_bind,
        index_entry hlen hi 22 (by decide), ok_bind, index_entry hlen hi 23 (by decide), ok_bind]
      obtain ⟨data, hdata, -⟩ := loop_readRound_returns disk ⟨_, _, []⟩
      rw [hdata]
      exact .ok trivial

theorem deleteFile_returns_of_length : Returns (deleteFile disk name) fun _ => True := by
  unfold deleteFile
  rw [slice_magic hlen, ok_bind]
  split
  · exact .ok trivial
  · obtain ⟨slot, hslot, hlt⟩ := findEntry_returns hlen name
    rw [hslot, ok_bind]
    cases slot with
    | none => exact .ok trivial
    | some i =>
      have hi := hlt i rfl
      have hoff := entryOffset_eq i
      dsimp only
      rw [index_entry hlen hi 18 (by decide), ok_bind, index_entry hlen hi 19 (by decide), ok_bind]
      have hstart : fromLe [byteAt disk (entryOffset i + 18), byteAt disk (entryOffset i + 19)] <
          65536 := (fromLe_lt _).trans_eq (by norm_num)
      obtain ⟨disk', hloop, hsame⟩ := freeChain_returns disk hstart
      rw [hloop, ok_bind, store_eq_ok _ (by unfold minLength at hlen; unfold maxFiles at hi; omega)]
      exact .ok trivial

end Functions

/-- On every image that is large enough, whatever its bytes, `read_file` and `delete_file` return
for every name. From whatever cluster it starts, the walk of `delete_file` ends, and the only
cluster it may visit a second time is the last one it visits. -/
theorem walks_terminate {disk : Disk} (hlen : minLength ≤ disk.length) (name : String) :
    (∃ contents, readFile disk name = .ok contents) ∧
      (∃ outcome, deleteFile disk name = .ok outcome) ∧
      ∀ start < 65536, (∃ disk', loop freeRound (2 ^ 16 + 1) (disk, start) = .ok disk') ∧
        (freedClusters (2 ^ 16 + 1) (disk, start)).dropLast.Nodup := by
  obtain ⟨contents, hread, -⟩ := readFile_returns hlen name
  obtain ⟨outcome, hdelete, -⟩ := deleteFile_returns_of_length hlen name
  refine ⟨⟨contents, hread⟩, ⟨outcome, hdelete⟩, fun start hstart => ⟨?_, ?_⟩⟩
  · obtain ⟨disk', hloop, -⟩ := freeChain_returns disk hstart
    exact ⟨disk', hloop⟩
  · exact nodup_dropLast_freedClusters ..

/-- An image whose only file "a" has 2000 bytes from cluster 5 on, with a table in which cluster 5
is followed by itself. -/
def circle : Disk :=
  let zeros := fun n => List.replicate n (0 : UInt8)
  magic ++ (zeros 518 ++ 5 :: (zeros 1525 ++ 97 :: (zeros 15 ++ 1 :: 1 :: 5 :: 0 :: 0xD0 :: 7 ::
    zeros 2538)))

theorem walks_terminate_circle :
    minLength ≤ circle.length ∧ window circle 0 4 = magic ∧ startAt circle 0 = 5 ∧
      fatEntry circle 5 = 5 ∧
      (∃ contents, readFile circle "a" = .ok contents) ∧
      (∃ outcome, deleteFile circle "a" = .ok outcome) ∧
      ∀ start < 65536, (∃ disk', loop freeRound (2 ^ 16 + 1) (circle, start) = .ok disk') ∧
        (freedClusters (2 ^ 16 + 1) (circle, start)).dropLast.Nodup := by
  have himage : minLength ≤ circle.length ∧ window circle 0 4 = magic ∧ startAt circle 0 = 5 ∧
      fatEntry circle 5 = 5 := by decide +kernel
  exact ⟨himage.1, himage.2.1, himage.2.2.1, himage.2.2.2, walks_terminate himage.1 "a"⟩

/-- Deleting the file visits cluster 5 twice. -/
theorem freedClusters_circle :
    circle.length = minLength ∧ window circle 0 4 = magic ∧
      findEntry circle "a" (List.range maxFiles) = .ok (some 0) ∧
      (deleteFile circle "a").map (·.1) = .ok (.ok ()) ∧
      freedClusters (2 ^ 16 + 1) (circle, startAt circle 0) = [5, 5] := by
  decide +kernel

end MerlionKernel.Fat
