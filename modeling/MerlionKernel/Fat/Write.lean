import MerlionKernel.Fat.Delete

/-!
# Writing a file

`write_file` first deletes the old file, then takes the first free clusters, links them,
copies the contents and at last fills in the first free directory entry. The lemmas here
describe each of these steps by what it changes: `Stored` is the disk once the contents
are in place, `Filled` the change of the directory entry.
-/

namespace MerlionKernel.Fat

open Rust Theory

/-! ### Allocation -/

/-- The free clusters in increasing order. -/
def freeClusters (disk : Disk) : List Nat :=
  (List.range maxClusters).filter fun c => decide (Free disk c)

theorem mem_freeClusters {disk : Disk} {c : Nat} :
    c ∈ freeClusters disk ↔ c < maxClusters ∧ Free disk c := by
  simp [freeClusters]

/-- The search collects the first free clusters of the list. -/
theorem allocate_eq_append {disk : Disk} (hlen : minLength ≤ disk.length) {needed : Nat}
    (clusters : List Nat) (hlt : ∀ c ∈ clusters, c < maxClusters) (acc : List Nat)
    (hneeded : acc.length < needed) :
    allocate disk needed clusters acc =
      .ok (acc ++ (clusters.filter fun c => decide (Free disk c)).take
        (needed - acc.length)) := by
  induction clusters generalizing acc with
  | nil => simp [allocate]
  | cons c rest ih =>
    have hrest := fun d hd => hlt d (List.mem_cons_of_mem _ hd)
    rw [allocate, readFat_eq hlen (hlt c List.mem_cons_self), ok_bind]
    by_cases hfree : Free disk c
    · have hfree' : fatEntry disk c = fatFree := hfree
      rw [if_pos hfree', List.filter_cons_of_pos (by simpa using hfree)]
      obtain ⟨k, hk⟩ : ∃ k, needed - acc.length = k + 1 := ⟨needed - acc.length - 1, by omega⟩
      by_cases hlast : (acc ++ [c]).length = needed
      · have hk0 : k = 0 := by rw [List.length_append, List.length_singleton] at hlast; omega
        rw [if_pos hlast, hk, hk0]
        simp
      · have hmore : (acc ++ [c]).length < needed := by
          rw [List.length_append, List.length_singleton] at hlast ⊢
          omega
        rw [if_neg hlast, ih hrest (acc ++ [c]) hmore, hk, List.take_succ_cons,
          show needed - (acc ++ [c]).length = k by
            rw [List.length_append, List.length_singleton]; omega]
        simp
    · have hfree' : ¬ fatEntry disk c = fatFree := hfree
      rw [if_neg hfree', List.filter_cons_of_neg (by simpa using hfree), ih hrest acc hneeded]

theorem allocate_eq {disk : Disk} (hlen : minLength ≤ disk.length) {needed : Nat}
    (hneeded : 0 < needed) :
    allocate disk needed (List.range maxClusters) [] = .ok ((freeClusters disk).take needed) := by
  rw [allocate_eq_append hlen _ (fun c hc => List.mem_range.mp hc) [] hneeded]
  rfl

/-- Clusters fit for a new chain: free, without repetition and with cluster 0 at most in
front. -/
structure Allocated (disk : Disk) (l : List Nat) : Prop where
  lt : ∀ c ∈ l, c < maxClusters
  free : ∀ c ∈ l, Free disk c
  nodup : l.Nodup
  zero_notMem : 0 ∉ l.tail

theorem allocated_take (disk : Disk) (n : Nat) : Allocated disk ((freeClusters disk).take n) := by
  have hmem : ∀ c ∈ (freeClusters disk).take n, c < maxClusters ∧ Free disk c :=
    fun c hc => mem_freeClusters.mp (List.mem_of_mem_take hc)
  have hsorted : ((freeClusters disk).take n).Pairwise (· < ·) :=
    (List.pairwise_lt_range.filter _).sublist (List.take_sublist _ _)
  refine ⟨fun c hc => (hmem c hc).1, fun c hc => (hmem c hc).2, hsorted.imp Nat.ne_of_lt, ?_⟩
  cases hl : (freeClusters disk).take n with
  | nil => simp
  | cons a l =>
    rw [hl] at hsorted
    intro hzero
    have := (List.pairwise_cons.mp hsorted).1 0 hzero
    omega

/-! ### Linking the clusters -/

theorem nextCluster_eq (l : List Nat) (k : Nat) :
    nextCluster l k = .ok (l.getD (k + 1) fatEof) := by
  unfold nextCluster
  split
  · rename_i hlt
    rw [index_eq_ok hlt, List.getD_eq_getElem l fatEof hlt]
  · rename_i hge
    rw [List.getD_eq_default l fatEof (by omega)]
    rfl

theorem linkCluster_spec {disk : Disk} (hlen : minLength ≤ disk.length) {l : List Nat}
    (hlt : ∀ c ∈ l, c < maxClusters) {k c : Nat} (hk : l[k]? = some c) :
    Returns (linkCluster l disk k) fun disk' =>
      SameOutside disk disk' 512 2048 ∧
        ∀ c', fatEntry disk' c' = if c' = c then l.getD (k + 1) fatEof else fatEntry disk c' := by
  have hvalue : l.getD (k + 1) fatEof < 65536 := by
    by_cases hlt' : k + 1 < l.length
    · rw [List.getD_eq_getElem l fatEof hlt']
      have := hlt _ (List.getElem_mem hlt')
      rw [maxClusters_eq] at this
      omega
    · rw [List.getD_eq_default l fatEof (by omega)]
      decide
  rw [linkCluster, nextCluster_eq, ok_bind, index_eq_ok_iff.mpr hk, ok_bind]
  exact writeFat_spec hlen (hlt c (List.mem_of_getElem? hk)) hvalue

/-- Writing the chain links every allocated cluster to the next and leaves the other table
entries alone. -/
theorem writeChain_spec {disk : Disk} (hlen : minLength ≤ disk.length) {l : List Nat}
    (hlt : ∀ c ∈ l, c < maxClusters) (hnodup : l.Nodup) :
    Returns (writeChain l disk) fun disk' =>
      SameOutside disk disk' 512 2048 ∧
        (∀ k c, l[k]? = some c → fatEntry disk' c = l.getD (k + 1) fatEof) ∧
          ∀ c, c ∉ l → fatEntry disk' c = fatEntry disk c := by
  have hfold : Returns (writeChain l disk) fun disk' =>
      SameOutside disk disk' 512 2048 ∧
        (∀ k ∈ List.range l.length, ∀ c, l[k]? = some c →
          fatEntry disk' c = l.getD (k + 1) fatEof) ∧
          ∀ c, c ∉ l → fatEntry disk' c = fatEntry disk c := by
    refine foldlM_returns (fun visited disk' => SameOutside disk disk' 512 2048 ∧
      (∀ k ∈ visited, ∀ c, l[k]? = some c → fatEntry disk' c = l.getD (k + 1) fatEof) ∧
        ∀ c, c ∉ l → fatEntry disk' c = fatEntry disk c) _ ?_ ⟨.refl .., by simp, by simp⟩
    rintro visited k rest disk' hrange ⟨hsame, hlinked, hother⟩
    have hk : k < l.length := by
      have : k ∈ List.range l.length := by simp [hrange]
      exact List.mem_range.mp this
    refine (linkCluster_spec (hsame.length_eq ▸ hlen) hlt (List.getElem?_eq_getElem hk)).mono ?_
    rintro disk'' ⟨hsame', hfat⟩
    refine ⟨hsame.trans hsame', ?_, fun c hc => ?_⟩
    · intro k' hk' c hc
      rw [hfat]
      rcases List.mem_append.mp hk' with hvis | hlast
      · -- An index visited before names a different cluster.
        have hkk : k' ≠ k := by
          have hdup : (visited ++ k :: rest).Nodup := hrange ▸ List.nodup_range
          rintro rfl
          exact (List.nodup_append.mp hdup).2.2 k' hvis k' List.mem_cons_self rfl
        have hcc : c ≠ l[k] := fun heq => by
          obtain ⟨hk'lt, hk'eq⟩ := List.getElem?_eq_some_iff.mp hc
          exact hkk ((hnodup.getElem_inj_iff).mp (hk'eq.trans heq))
        rw [if_neg hcc]
        exact hlinked k' hvis c hc
      · obtain rfl := List.mem_singleton.mp hlast
        rw [List.getElem?_eq_getElem hk, Option.some_inj] at hc
        rw [if_pos hc.symm]
    · rw [hfat, if_neg (ne_of_mem_of_not_mem (List.getElem_mem hk) hc).symm]
      exact hother c hc
  refine hfold.mono fun disk' h => ⟨h.1, fun k c hc => ?_, h.2.2⟩
  obtain ⟨hk, -⟩ := List.getElem?_eq_some_iff.mp hc
  exact h.2.1 k (List.mem_range.mpr hk) c hc

/-! ### Copying the contents -/

theorem clustersNeeded_zero : clustersNeeded 0 = 0 := by decide

/-- One cluster takes the first block of what is left to write. -/
theorem clustersNeeded_of_pos {size : Nat} (h : 0 < size) :
    clustersNeeded size = clustersNeeded (size - min size clusterSize) + 1 := by
  unfold clustersNeeded clusterSize
  omega

theorem fits_of_data {len : Nat} {l : List Nat} {size : Nat}
    (hl : l.length = clustersNeeded size)
    (hin : ∀ c ∈ l, dataOffset c + clusterSize ≤ len) : Fits len l size := by
  induction l generalizing size with
  | nil =>
    by_contra hpos
    rw [clustersNeeded_of_pos (Nat.pos_of_ne_zero hpos)] at hl
    simp at hl
  | cons c l ih =>
    have hpos : 0 < size := by
      by_contra hzero
      rw [show size = 0 by omega, clustersNeeded_zero] at hl
      simp at hl
    rw [clustersNeeded_of_pos hpos, List.length_cons, Nat.add_right_cancel_iff] at hl
    have hc := hin c List.mem_cons_self
    exact ⟨hpos, by omega, ih hl fun d hd => hin d (List.mem_cons_of_mem _ hd)⟩

theorem writeBlock_eq {contents : Bytes} {disk : Disk} {written c : Nat}
    (hw : written ≤ contents.length)
    (hin : dataOffset c + min (contents.length - written) clusterSize ≤ disk.length) :
    writeBlock contents (disk, written) c =
      .ok (splice disk (dataOffset c)
          (window contents written (min (contents.length - written) clusterSize)),
        written + min (contents.length - written) clusterSize) := by
  have hblock : written + min (contents.length - written) clusterSize ≤ contents.length := by
    omega
  simp only [writeBlock]
  rw [slice_window (by omega) hblock, ok_bind, Nat.add_sub_cancel_left,
    copyFromSlice_eq_ok (by rw [length_window hblock]) hin]
  rfl

/-- The source stops when a block would lie outside the buffer. -/
theorem writeBlock_in {contents : Bytes} {disk : Disk} {written c : Nat} {out : Disk × Nat}
    (h : writeBlock contents (disk, written) c = .ok out) :
    dataOffset c + min (contents.length - written) clusterSize ≤ disk.length := by
  simp only [writeBlock, bind_eq_ok_iff] at h
  obtain ⟨block, -, disk', hcopy, -⟩ := h
  by_contra hout
  rw [copyFromSlice, if_neg (by omega)] at hcopy
  exact absurd hcopy (by simp)

/-- Two clusters have no byte in common. -/
theorem dataOffset_disjoint {c d : Nat} (h : c ≠ d) :
    dataOffset c + clusterSize ≤ dataOffset d ∨ dataOffset d + clusterSize ≤ dataOffset c := by
  rw [dataOffset_eq, dataOffset_eq, clusterSize]
  omega

/-- Copying the rest of the contents into clusters that fit it. -/
theorem foldlM_writeBlock {contents : Bytes} {l : List Nat} (hnodup : l.Nodup) {disk : Disk}
    {written : Nat} (hw : written ≤ contents.length)
    (hfits : Fits disk.length l (contents.length - written)) :
    Returns (l.foldlM (writeBlock contents) (disk, written)) fun out =>
      out.1.length = disk.length ∧
        (∀ p, (∀ c ∈ l, p < dataOffset c ∨ dataOffset c + clusterSize ≤ p) →
          byteAt out.1 p = byteAt disk p) ∧
          gather out.1 l (contents.length - written) = contents.drop written := by
  induction l generalizing disk written with
  | nil =>
    have hdone : contents.length - written = 0 := hfits
    refine .ok ⟨rfl, fun _ _ => rfl, ?_⟩
    rw [gather, List.drop_eq_nil_of_le (by omega)]
  | cons c l ih =>
    obtain ⟨hpos, hin, hrest⟩ := hfits
    obtain ⟨hcl, hnodup'⟩ := List.nodup_cons.mp hnodup
    rw [List.foldlM_cons, writeBlock_eq hw hin, ok_bind]
    set n := min (contents.length - written) clusterSize with hn
    have hblock : (window contents written n).length = n := length_window (by omega)
    have hfit : dataOffset c + (window contents written n).length ≤ disk.length := by
      rw [hblock]; exact hin
    have hsame := SameOutside.splice hfit
    rw [hblock] at hsame
    have hleft : contents.length - (written + n) = contents.length - written - n := by omega
    have hnext : written + n ≤ contents.length := by omega
    refine (ih hnodup' hnext (by rw [hsame.length_eq, hleft]; exact hrest)).mono ?_
    rintro ⟨disk', total⟩ ⟨hlen', hbyte, hgather⟩
    refine ⟨hlen'.trans hsame.length_eq, fun p hp => ?_, ?_⟩
    · rw [hbyte p fun d hd => hp d (List.mem_cons_of_mem _ hd)]
      exact hsame.byte_eq p (by have := hp c List.mem_cons_self; omega)
    · -- The later blocks go to other clusters, so this one is still in place.
      have hhere : window disk' (dataOffset c) n = window contents written n := by
        have hstill : window disk' (dataOffset c) n =
            window (splice disk (dataOffset c) (window contents written n)) (dataOffset c) n :=
          window_congr (by rw [hsame.length_eq]; exact hin)
            (by rw [hlen', hsame.length_eq]; exact hin) fun p hp hp' =>
              hbyte p fun d hd => by
                have := dataOffset_disjoint (ne_of_mem_of_not_mem hd hcl)
                omega
        have hback := window_splice_self hfit
        rw [hblock] at hback
        exact hstill.trans hback
      rw [gather, ← hn, hhere, ← hleft, hgather, window, ← List.drop_drop,
        List.take_append_drop]

/-- When the copy returns, the clusters fit the contents. -/
theorem fits_of_foldlM_writeBlock {contents : Bytes} {l : List Nat} {disk : Disk}
    {written : Nat} (hw : written ≤ contents.length)
    (hl : l.length = clustersNeeded (contents.length - written)) {out : Disk × Nat}
    (h : l.foldlM (writeBlock contents) (disk, written) = .ok out) :
    Fits disk.length l (contents.length - written) := by
  induction l generalizing disk written with
  | nil => exact fits_of_data hl (by simp)
  | cons c l ih =>
    have hpos : 0 < contents.length - written := by
      by_contra hzero
      rw [show contents.length - written = 0 by omega, clustersNeeded_zero] at hl
      simp at hl
    rw [clustersNeeded_of_pos hpos, List.length_cons, Nat.add_right_cancel_iff] at hl
    rw [List.foldlM_cons, bind_eq_ok_iff] at h
    obtain ⟨mid, hblock, hrest⟩ := h
    have hin := writeBlock_in hblock
    rw [writeBlock_eq hw hin] at hblock
    obtain rfl := Except.ok.inj hblock
    have hsub : contents.length - (written + min (contents.length - written) clusterSize) =
        contents.length - written - min (contents.length - written) clusterSize := by omega
    have hlen : (splice disk (dataOffset c)
        (window contents written (min (contents.length - written) clusterSize))).length =
          disk.length :=
      length_splice (by rw [length_window (by omega)]; exact hin)
    have := ih (by omega) (by rw [hsub]; exact hl) hrest
    rw [hlen, hsub] at this
    exact ⟨hpos, hin, this⟩

end MerlionKernel.Fat
