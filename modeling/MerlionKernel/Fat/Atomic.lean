import Mathlib.Data.Finset.Card
import MerlionKernel.Fat.Leak

/-!
# When a failed write leaves the disk as it was

`write_file` deletes the old file before it knows whether the new one can be stored, and
it links the clusters of a new file before it knows whether the directory has an entry
for it. A write that fails after the first of these loses the old file; a write that fails
after the second loses free clusters. In every other case a failed write leaves all files
and all free clusters as they were.
-/

namespace MerlionKernel.Fat

open Rust Theory

/-- If the write answers an error, every file still reads as before and the same clusters
are free. -/
def Atomic (disk : Disk) (name : String) (contents : Bytes) : Prop :=
  ∀ e disk', writeFile disk name contents = .ok (.error e, disk') →
    (∀ other data, readFile disk other = .ok (some data) →
      readFile disk' other = .ok (some data)) ∧
    ∀ c < maxClusters, Free disk' c ↔ Free disk c

/-- The number of clusters that deleting entry `i` with chain `l` gives back. -/
def reclaimed (disk : Disk) (i : Nat) (l : List Nat) : Nat :=
  if startAt disk i = 0 then 0 else l.length

/-- A new file is turned down before anything is written, or it gets its entry, or the
call stops outside the buffer. -/
def NewFileSafe (disk : Disk) (name : String) (contents : Bytes) : Prop :=
  slotOf disk name = none ∧
    (contents.length = 0 ∨ (freeClusters disk).length < clustersNeeded contents.length ∨
      (∃ i < maxFiles, flagAt disk i = 0) ∨
      ¬ Fits disk.length (newChain disk contents) contents.length)

/-- A file is overwritten with contents that fit the disk once the old file is deleted. -/
def OverwriteSafe (disk : Disk) (name : String) (contents : Bytes) : Prop :=
  ∃ i l, slotOf disk name = some i ∧ Owns disk i l ∧ 0 < contents.length ∧
    clustersNeeded contents.length ≤ (freeClusters disk).length + reclaimed disk i l

/-! ### Counting free clusters -/

theorem length_freeClusters (disk : Disk) :
    (freeClusters disk).length = ((Finset.range maxClusters).filter (Free disk)).card := by
  have hnodup : (freeClusters disk).Nodup := List.nodup_range.filter _
  rw [← List.toFinset_card_of_nodup hnodup]
  refine congrArg Finset.card (Finset.ext fun c => ?_)
  rw [List.mem_toFinset, mem_freeClusters, Finset.mem_filter, Finset.mem_range]

/-- A deletion frees the clusters of the chain, unless the chain starts at cluster 0. -/
theorem length_freeClusters_of_deleted {disk disk' : Disk} {i : Nat} {l : List Nat}
    (hl : Owns disk i l) (hdel : Deleted disk disk' i l) :
    (freeClusters disk').length = (freeClusters disk).length + reclaimed disk i l := by
  have hfree : ∀ c < maxClusters,
      (Free disk' c ↔ Free disk c ∨ (c ∈ l ∧ startAt disk i ≠ 0)) := by
    intro c hc
    unfold Free
    rw [hdel.fat c hc]
    by_cases hand : c ∈ l ∧ startAt disk i ≠ fatFree
    · rw [if_pos hand]
      exact ⟨fun _ => Or.inr hand, fun _ => rfl⟩
    · rw [if_neg hand]
      exact ⟨Or.inl, fun hor => hor.resolve_right hand⟩
  rw [length_freeClusters, length_freeClusters, reclaimed]
  split_ifs with hstart
  · rw [Nat.add_zero]
    refine congrArg Finset.card (Finset.filter_congr fun c hc => ?_)
    rw [hfree c (Finset.mem_range.mp hc)]
    simp [hstart]
  · -- The clusters of the chain were in use, so they add to those that were free.
    have hdisjoint : Disjoint ((Finset.range maxClusters).filter (Free disk)) l.toFinset := by
      rw [Finset.disjoint_left]
      intro c hc hcl
      exact hl.not_free (List.mem_toFinset.mp hcl) (Finset.mem_filter.mp hc).2
    rw [← List.toFinset_card_of_nodup hl.chain.nodup, ← Finset.card_union_of_disjoint hdisjoint]
    refine congrArg Finset.card (Finset.ext fun c => ?_)
    simp only [Finset.mem_filter, Finset.mem_range, Finset.mem_union, List.mem_toFinset]
    constructor
    · rintro ⟨hc, hfree'⟩
      rcases (hfree c hc).mp hfree' with hold | ⟨hcl, -⟩
      · exact Or.inl ⟨hc, hold⟩
      · exact Or.inr hcl
    · rintro (⟨hc, hold⟩ | hcl)
      · exact ⟨hc, (hfree c hc).mpr (Or.inl hold)⟩
      · exact ⟨hl.lt c hcl, (hfree c (hl.lt c hcl)).mpr (Or.inr ⟨hcl, hstart⟩)⟩

section Atomic

variable {disk : Disk} {name : String} {contents : Bytes}

/-- A failed write of a file that does not exist yet. -/
theorem NewFileSafe.unchanged (h : NewFileSafe disk name contents) {e : String} {disk' : Disk}
    (hout : WriteOutcome disk name contents (.error e, disk')) : disk' = disk := by
  obtain ⟨hslot, hsafe⟩ := h
  cases hout with
  | tooLong _ => rfl
  | emptyFile _ hclear _ => exact hclear.eq_of_absent hslot
  | diskFull _ hclear _ _ => exact hclear.eq_of_absent hslot
  | directoryFull _ hclear hpos henough hstored hfull =>
    rw [hclear.eq_of_absent hslot] at henough hstored hfull
    rcases hsafe with hzero | hless | ⟨i, hi, hflag⟩ | hfits
    · omega
    · omega
    · exact absurd hflag (hfull i hi)
    · exact absurd hstored.fits hfits

/-- Overwriting a file with contents that fit the disk does not fail. -/
theorem OverwriteSafe.not_error (h : OverwriteSafe disk name contents)
    (hname : (asBytes name).length ≤ 16) {e : String} {disk' : Disk}
    (hout : WriteOutcome disk name contents (.error e, disk')) : False := by
  obtain ⟨i, l, hslot, hl, hpos, hroom⟩ := h
  have hcleared : ∀ {disk₁}, Cleared disk name disk₁ → Deleted disk disk₁ i l := by
    intro disk₁ hclear
    cases hclear with
    | absent hnone => simp [hslot] at hnone
    | deleted hslot' hl' hdel =>
      obtain rfl := Option.some_inj.mp (hslot'.symm.trans hslot)
      rw [hl.unique hl']
      exact hdel
  cases hout with
  | tooLong hlong => omega
  | emptyFile _ _ hzero => omega
  | diskFull _ hclear _ hless =>
    rw [length_freeClusters_of_deleted hl (hcleared hclear)] at hless
    omega
  | directoryFull _ hclear _ _ _ hfull =>
    exact hfull i (slotOf_some hslot).1 (hcleared hclear).flag

/-- A write that fails after it deleted the old file is not atomic. -/
theorem Consistent.not_atomic_of_present (hc : Consistent disk) {i : Nat}
    (hslot : slotOf disk name = some i) {e : String} {disk' : Disk}
    (hclear : Cleared disk name disk')
    (hw : writeFile disk name contents = .ok (.error e, disk')) :
    ¬ Atomic disk name contents := by
  intro hatomic
  obtain ⟨hi, hact, -⟩ := slotOf_some hslot
  obtain ⟨l, hl⟩ := hc.owns i hi hact
  have hlost := (hatomic e disk' hw).1 name _ (hc.readFile_eq_some hslot hl)
  rw [(hc.readFile_of_cleared hclear).1] at hlost
  simp at hlost

theorem Consistent.overwriteSafe_of_atomic (hc : Consistent disk)
    (hname : (asBytes name).length ≤ 16) {i : Nat} (hslot : slotOf disk name = some i)
    (hatomic : Atomic disk name contents) : OverwriteSafe disk name contents := by
  obtain ⟨hi, hact, -⟩ := slotOf_some hslot
  obtain ⟨l, hl⟩ := hc.owns i hi hact
  obtain ⟨⟨r, disk₁⟩, hdelete, hclear, -⟩ := hc.deleteFile_returns name
  obtain ⟨⟨r', disk₁'⟩, hdelete', -, hdel⟩ := hc.deleteFile_spec hslot hl
  obtain rfl : disk₁ = disk₁' := by
    rw [hdelete] at hdelete'
    exact congrArg Prod.snd (Except.ok.inj hdelete')
  have hwrite := hc.writeFile_eq contents hname hdelete
    (hclear.consistent hc).length_le
  refine ⟨i, l, hslot, hl, Nat.pos_of_ne_zero fun hzero => ?_, Nat.le_of_not_lt fun hless => ?_⟩
  · rw [if_pos hzero] at hwrite
    exact hc.not_atomic_of_present hslot hclear hwrite hatomic
  · rw [← length_freeClusters_of_deleted hl hdel] at hless
    have hnonzero : ¬ contents.length = 0 := fun hzero => by
      rw [hzero, clustersNeeded_zero] at hless
      omega
    rw [if_neg hnonzero, if_pos hless] at hwrite
    exact hc.not_atomic_of_present hslot hclear hwrite hatomic

theorem Consistent.newFileSafe_of_atomic (hc : Consistent disk)
    (hname : (asBytes name).length ≤ 16) (hslot : slotOf disk name = none)
    (hatomic : Atomic disk name contents) : NewFileSafe disk name contents := by
  refine ⟨hslot, ?_⟩
  by_contra hunsafe
  push Not at hunsafe
  obtain ⟨hpos, henough, hfull, hfits⟩ := hunsafe
  have hpos : 0 < contents.length := Nat.pos_of_ne_zero hpos
  -- The write reaches the full directory, with the clusters of the file already linked.
  obtain ⟨⟨r, disk'⟩, hw, hout⟩ := hc.writeFile_returns_of_fits name contents
    fun _ _ _ hclear _ => by
      rw [hclear.eq_of_absent hslot]
      exact hfits
  obtain ⟨message, rfl, c, hmem, hlt, hused, -⟩ :=
    hout.leaks_newChain hc hname hslot hpos henough hfull
  exact hused (((hatomic _ _ hw).2 c hlt).mpr ((allocated_newChain disk contents).free c hmem))

/-- **Atomicity of a failed write.** An error of `write_file` has no effect exactly when
the name is too long, or the file is new and is turned down before anything is written (or
gets an entry, or runs out of the buffer), or an existing file is overwritten with contents
that fit. -/
theorem atomic_iff (hreach : Reachable disk) (name : String) (contents : Bytes) :
    Atomic disk name contents ↔
      16 < (asBytes name).length ∨ NewFileSafe disk name contents ∨
        OverwriteSafe disk name contents := by
  have hc := hreach.consistent
  constructor
  · intro hatomic
    by_cases hname : 16 < (asBytes name).length
    · exact Or.inl hname
    · have hname := Nat.le_of_not_lt hname
      cases hslot : slotOf disk name with
      | none => exact Or.inr (Or.inl (hc.newFileSafe_of_atomic hname hslot hatomic))
      | some i => exact Or.inr (Or.inr (hc.overwriteSafe_of_atomic hname hslot hatomic))
  · intro hsafe e disk' hw
    have hout := hc.writeFile_cases hw
    have hsame : disk' = disk := by
      rcases hsafe with hlong | hnew | hover
      · cases hout with
        | tooLong _ => rfl
        | emptyFile hname _ _ => omega
        | diskFull hname _ _ _ => omega
        | directoryFull hname _ _ _ _ _ => omega
      · exact hnew.unchanged hout
      · by_cases hname : 16 < (asBytes name).length
        · cases hout with
          | tooLong _ => rfl
          | emptyFile hname' _ _ => omega
          | diskFull hname' _ _ _ => omega
          | directoryFull hname' _ _ _ _ _ => omega
        · exact (hover.not_error (Nat.le_of_not_lt hname) hout).elim
    subst hsame
    exact ⟨fun _ _ hread => hread, fun _ _ => Iff.rfl⟩

end Atomic

/-- Writing nothing fails, after a file of the name has been deleted. -/
theorem Consistent.writeFile_nil {disk : Disk} (hc : Consistent disk) {name : String}
    (hname : (asBytes name).length ≤ 16) :
    ∃ disk', Cleared disk name disk' ∧
      writeFile disk name [] = .ok (.error "empty file", disk') := by
  obtain ⟨⟨r, disk'⟩, hdelete, hclear, -⟩ := hc.deleteFile_returns name
  have hempty := hc.writeFile_eq [] hname hdelete (hclear.consistent hc).length_le
  rw [if_pos List.length_nil] at hempty
  exact ⟨disk', hclear, hempty⟩

/-- Overwriting a file with nothing fails. -/
theorem atomic_iff_overwrite : ∃ disk, Reachable disk ∧ (∃ i, slotOf disk "a" = some i) ∧
    (∃ disk', writeFile disk "a" [] = .ok (.error "empty file", disk')) ∧
    (Atomic disk "a" [] ↔ 16 < (asBytes "a").length ∨ NewFileSafe disk "a" [] ∨
      OverwriteSafe disk "a" []) := by
  obtain ⟨disk, hreach, hslot⟩ := exists_oneFile
  have hname : (asBytes "a").length ≤ 16 := by decide
  obtain ⟨disk', -, hempty⟩ := hreach.consistent.writeFile_nil hname
  exact ⟨disk, hreach, hslot, ⟨disk', hempty⟩, atomic_iff hreach "a" []⟩

/-- Overwriting a file with nothing answers an error and loses the file. -/
theorem empty_overwrite_not_atomic :
    ¬ ∀ disk name contents, Reachable disk → Atomic disk name contents := by
  intro hclaim
  obtain ⟨disk, hreach, i, hslot⟩ := exists_oneFile
  have hc := hreach.consistent
  obtain ⟨disk', hclear, hempty⟩ := hc.writeFile_nil (by decide : (asBytes "a").length ≤ 16)
  exact hc.not_atomic_of_present hslot hclear hempty (hclaim disk "a" [] hreach)

end MerlionKernel.Fat
