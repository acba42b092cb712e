import MerlionKernel.Fat.Store

/-!
# Disks smaller than the table

The allocation table has 768 entries, whatever the size of the disk, and a write takes the first
ones that are free. On a disk with fewer data clusters, as the one of 128 KB that the kernel uses,
a write can take clusters that are not there.

A write does as it should, that is, stays inside the buffer and answers that the disk is full when
the clusters of the disk are used up, exactly when the table does not have enough free entries
either, or the disk has enough free clusters.
-/

namespace MerlionKernel.Fat

open Rust Theory

/-- `FS_SIZE`: the size of the kernel's disk. -/
def fsSize : Nat := 256 * 512

/-- The number of data clusters that lie inside the buffer. -/
def dataClusters (disk : Disk) : Nat := (disk.length - dataOffset 0) / clusterSize

/-- The free clusters that lie inside the buffer. -/
def freeData (disk : Disk) : List Nat := (freeClusters disk).filter (· < dataClusters disk)

variable {disk disk₁ : Disk} {name : String} {contents : Bytes}

theorem lt_dataClusters_iff (hlen : minLength ≤ disk.length) {c : Nat} :
    c < dataClusters disk ↔ dataOffset c + clusterSize ≤ disk.length := by
  have hmin : minLength = 4608 := rfl
  unfold dataClusters clusterSize
  rw [dataOffset_eq, dataOffset_eq]
  omega

/-- The elements of an ordered list below a bound come first. -/
theorem filter_lt_isPrefix {l : List Nat} (h : l.Pairwise (· < ·)) (bound : Nat) :
    l.filter (· < bound) <+: l := by
  induction l with
  | nil => exact List.prefix_rfl
  | cons a l ih =>
    obtain ⟨hhead, htail⟩ := List.pairwise_cons.mp h
    by_cases ha : a < bound
    · rw [List.filter_cons_of_pos (by simpa using ha)]
      exact List.cons_prefix_cons.mpr ⟨rfl, ih htail⟩
    · have hnil : l.filter (· < bound) = [] := by
        rw [List.filter_eq_nil_iff]
        intro b hb
        have := hhead b hb
        simp only [decide_eq_true_eq]
        omega
      rw [List.filter_cons_of_neg (by simpa using ha), hnil]
      exact List.nil_prefix

/-- If the disk has enough free clusters, those that are taken lie inside it. -/
theorem fits_newChain (hlen : minLength ≤ disk.length)
    (h : clustersNeeded contents.length ≤ (freeData disk).length) :
    Fits disk.length (newChain disk contents) contents.length := by
  have hprefix : freeData disk <+: freeClusters disk :=
    filter_lt_isPrefix (List.pairwise_lt_range.filter _) _
  have htake : newChain disk contents =
      (freeData disk).take (clustersNeeded contents.length) := by
    rw [newChain, List.prefix_iff_eq_take.mp hprefix, List.take_take, Nat.min_eq_left h]
  have henough : clustersNeeded contents.length ≤ (freeClusters disk).length :=
    h.trans hprefix.length_le
  refine fits_of_data (length_newChain henough) fun c hc => ?_
  rw [htake] at hc
  have hmem := List.mem_filter.mp (List.mem_of_mem_take hc)
  exact (lt_dataClusters_iff hlen).mp (by simpa using hmem.2)

/-- The last part of a write does not answer that the disk is full. -/
theorem writeEntry_ne_full {l slots : List Nat} {out : Outcome}
    (h : writeEntry name contents l disk slots = .ok out) : out.1 ≠ .error "disk full" := by
  induction slots with
  | nil =>
    cases h
    simp
  | cons i slots ih =>
    obtain ⟨flag, -, h⟩ := bind_eq_ok_iff.mp h
    split_ifs at h
    · obtain ⟨disk', -, h⟩ := bind_eq_ok_iff.mp h
      cases h
      simp
    · exact ih h

/-! ### One write -/

/-- A file to be written. -/
abbrev Write := String × Bytes

/-- The disk that a write leaves. -/
def writeStep (disk : Disk) (w : Write) : Exec Disk := step disk (.write w.1 w.2)

/-- The write returns, and if the free clusters of the disk without the old file are not enough, it
answers that the disk is full. -/
def WithinDisk (disk : Disk) (w : Write) : Prop :=
  ∃ out, writeFile disk w.1 w.2 = .ok out ∧
    ∀ answer disk₁, deleteFile disk w.1 = .ok (answer, disk₁) → (asBytes w.1).length ≤ 16 →
      (freeData disk₁).length < clustersNeeded w.2.length → out.1 = .error "disk full"

/-- The table has too few free entries for the file as well, or the disk has enough clusters. -/
def TableAgrees (disk : Disk) (w : Write) : Prop :=
  ∀ answer disk₁, deleteFile disk w.1 = .ok (answer, disk₁) → (asBytes w.1).length ≤ 16 →
    clustersNeeded w.2.length ≤ (freeClusters disk₁).length →
      clustersNeeded w.2.length ≤ (freeData disk₁).length

/-- A write that returns although the free clusters of the disk are not enough, but those of the
table are, does not answer that the disk is full. -/
theorem ne_full_of_enough (h : Consistent disk) (hname : (asBytes name).length ≤ 16)
    {answer : Except String Unit} (hdel : deleteFile disk name = .ok (answer, disk₁))
    (hlen : minLength ≤ disk₁.length) (hpos : 0 < clustersNeeded contents.length)
    (henough : clustersNeeded contents.length ≤ (freeClusters disk₁).length) {out : Outcome}
    (hw : writeFile disk name contents = .ok out) : out.1 ≠ .error "disk full" := by
  have hzero : contents.length ≠ 0 := mt clustersNeeded_eq_zero_iff.mpr hpos.ne'
  rw [h.writeFile_eq contents hname hdel hlen, if_neg hzero,
    if_neg (Nat.not_lt.mpr henough)] at hw
  obtain ⟨disk₂, -, hw⟩ := bind_eq_ok_iff.mp hw
  obtain ⟨stored, -, hw⟩ := bind_eq_ok_iff.mp hw
  exact writeEntry_ne_full hw

theorem withinDisk_iff (h : Consistent disk) (w : Write) :
    WithinDisk disk w ↔ TableAgrees disk w := by
  obtain ⟨name, contents⟩ := w
  obtain ⟨⟨answer, disk₁⟩, hdel, hclear, -⟩ := h.deleteFile_returns name
  have hlen : minLength ≤ disk₁.length := (hclear.consistent h).length_le
  -- The deletion determines the disk that the clusters are taken from.
  have hunique : ∀ {answer' disk'}, deleteFile disk name = .ok (answer', disk') →
      disk' = disk₁ := by
    intro answer' disk' hdel'
    rw [hdel] at hdel'
    cases hdel'
    rfl
  constructor
  · rintro ⟨out, hw, hfull⟩ answer' disk' hdel' hname henough
    obtain rfl := hunique hdel'
    -- The write went past the clusters that exist and yet returned, with another answer.
    by_contra hused
    have hused := Nat.lt_of_not_le hused
    exact ne_full_of_enough h hname hdel' hlen (by omega) henough hw
      (hfull answer' disk' hdel' hname hused)
  · intro hagrees
    obtain ⟨out, hw, -⟩ := h.writeFile_returns_of_fits name contents
      fun out hname hdel' hclear' henough => by
        rw [← hclear'.length_eq]
        exact fits_newChain (hclear'.consistent h).length_le
          (hagrees out.1 out.2 hdel' hname henough)
    refine ⟨out, hw, fun answer' disk' hdel' hname hused => ?_⟩
    obtain rfl := hunique hdel'
    have hfull : (freeClusters disk').length < clustersNeeded contents.length := by
      by_contra henough
      have := hagrees answer' disk' hdel' hname (Nat.le_of_not_lt henough)
      omega
    have hzero : contents.length ≠ 0 := fun hzero => by
      rw [hzero, clustersNeeded_zero] at hfull
      omega
    rw [h.writeFile_eq contents hname hdel' hlen, if_neg hzero, if_pos hfull] at hw
    cases hw
    rfl

/-! ### Sequences of writes -/

/-- **MF16 and the size of its disk.** On a formatted disk every write of a sequence stays inside
the buffer, and answers that the disk is full when its clusters are used up, exactly when no write
finds more free entries in the table than it needs but fewer free clusters on the disk. -/
theorem writes_withinDisk_iff {buffer disk : Disk} (hformat : format buffer = .ok (.ok (), disk))
    (writes : List Write) :
    Guarded writeStep WithinDisk disk writes ↔ Guarded writeStep TableAgrees disk writes := by
  obtain ⟨hlen, rfl⟩ := format_eq_ok_iff.mp hformat
  have hexact : Always writeStep (fun _ => True) (blank buffer.length) writes ∧
      Guarded writeStep WithinDisk (blank buffer.length) writes ↔
        Guarded writeStep TableAgrees (blank buffer.length) writes :=
    always_safe_iff_guarded Consistent (fun _ _ => trivial)
      (fun _ w h => (withinDisk_iff h w).mpr) (fun _ _ _ h _ => step_consistent h)
      (fun _ w h hmiss hsafe => absurd ((withinDisk_iff h w).mp hsafe) hmiss)
      (consistent_blank hlen) writes
  rw [← hexact]
  exact ⟨fun h => ⟨fun _ _ _ _ => trivial, h⟩, And.right⟩

theorem minLength_le_fsSize : minLength ≤ fsSize := by decide

theorem format_fsSize : format (List.replicate fsSize 0) = .ok (.ok (), blank fsSize) := by
  rw [format_eq_ok_iff, List.length_replicate]
  exact ⟨minLength_le_fsSize, rfl⟩

/-- On the kernel's disk of 248 data clusters a single write of a file of 249 clusters is enough. -/
theorem overrun_fsSize :
    ¬ WithinDisk (blank fsSize) ("f", List.replicate (249 * 512) 0) := by
  have hconsistent := consistent_blank minLength_le_fsSize
  rw [withinDisk_iff hconsistent]
  intro hagrees
  obtain ⟨⟨answer, disk₁⟩, hdel, hclear, -⟩ := hconsistent.deleteFile_returns "f"
  obtain rfl := hclear.eq_of_absent (slotOf_blank minLength_le_fsSize "f")
  have hneeded : clustersNeeded (List.replicate (249 * 512) (0 : UInt8)).length = 249 := by
    rw [List.length_replicate]
    decide
  have hexist : (freeData (blank fsSize)).length = 248 := by
    have hcount : dataClusters (blank fsSize) = 248 := by
      rw [dataClusters, length_blank minLength_le_fsSize]
      decide
    rw [freeData, freeClusters_blank minLength_le_fsSize, hcount]
    decide +kernel
  have hfits := hagrees answer _ hdel (by decide)
  rw [hneeded, hexist, freeClusters_blank minLength_le_fsSize, List.length_range] at hfits
  exact absurd (hfits (by decide)) (by decide)

/-- A file of one byte has room on the kernel's disk. -/
theorem writes_withinDisk_iff_fsSize :
    format (List.replicate fsSize 0) = .ok (.ok (), blank fsSize) ∧
      (Guarded writeStep WithinDisk (blank fsSize) [("f", [1])] ↔
        Guarded writeStep TableAgrees (blank fsSize) [("f", [1])]) :=
  ⟨format_fsSize, writes_withinDisk_iff format_fsSize _⟩

end MerlionKernel.Fat
