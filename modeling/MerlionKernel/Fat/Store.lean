import Mathlib.Logic.Function.Basic
import MerlionKernel.Fat.Outcome
import MerlionKernel.Theory.Run

/-!
# MF16 as a file store

What the filesystem is for is a map from names to contents. A disk represents such a map
when `read_file` answers it. Every disk reached from a formatted buffer by writing and
deleting files represents one, a successful write changes it at the written name and
nowhere else, and a successful deletion removes the deleted name.
-/

namespace MerlionKernel.Fat

open Rust Theory

/-! ### Formatting -/

/-- The disk `format` makes of a buffer of length `len`. -/
def blank (len : Nat) : Disk := splice (List.replicate len 0) 0 magic

theorem format_eq_ok_iff {buffer disk : Disk} :
    format buffer = .ok (.ok (), disk) ↔
      minLength ≤ buffer.length ∧ disk = blank buffer.length := by
  by_cases hlen : buffer.length < minLength
  · have hsmall : buffer.length < dataStart * clusterSize + clusterSize := hlen
    simp [format, hsmall, hlen]
  · have hlarge : ¬ buffer.length < dataStart * clusterSize + clusterSize := hlen
    have hcopy : copyFromSlice (List.replicate buffer.length (0 : UInt8)) 0 4 magic =
        .ok (blank buffer.length) :=
      copyFromSlice_eq_ok rfl (by unfold minLength at hlen; rw [List.length_replicate]; omega)
    rw [format, if_neg hlarge, hcopy, ok_bind]
    simp [Nat.le_of_not_lt hlen, eq_comm]

section Blank

variable {len : Nat}

theorem length_blank (h : minLength ≤ len) : (blank len).length = len := by
  rw [blank, length_splice, List.length_replicate]
  rw [List.length_replicate]
  exact le_trans (by decide) h

theorem byteAt_blank (h : minLength ≤ len) {p : Nat} (hp : 4 ≤ p) : byteAt (blank len) p = 0 := by
  have hfit : 0 + magic.length ≤ (List.replicate len (0 : UInt8)).length := by
    rw [List.length_replicate]
    exact le_trans (by decide) h
  have hmagic : magic.length = 4 := rfl
  rw [blank, byteAt_splice hfit, if_neg (by omega), byteAt, List.getD_eq_getElem?_getD,
    List.getElem?_replicate]
  split <;> rfl

theorem flagAt_blank (h : minLength ≤ len) (i : Nat) : flagAt (blank len) i = 0 :=
  byteAt_blank h (by rw [entryOffset_eq]; omega)

theorem not_active_blank (h : minLength ≤ len) (i : Nat) : ¬ Active (blank len) i := by
  rw [Active, flagAt_blank h]
  decide

theorem free_blank (h : minLength ≤ len) (c : Nat) : Free (blank len) c := by
  have hoff := fatOffset_eq c
  rw [Free, fatEntry, byteAt_blank h (by omega), byteAt_blank h (by omega)]
  rfl

theorem slotOf_blank (h : minLength ≤ len) (name : String) :
    slotOf (blank len) name = none :=
  slotOf_eq_none_iff.mpr fun i _ hact => absurd hact (not_active_blank h i)

theorem freeClusters_blank (h : minLength ≤ len) :
    freeClusters (blank len) = List.range maxClusters :=
  List.filter_eq_self.mpr fun c _ => decide_eq_true (free_blank h c)

theorem consistent_blank (h : minLength ≤ len) : Consistent (blank len) where
  length_le := (length_blank h).symm ▸ h
  magic_eq := window_splice_self (by
    rw [List.length_replicate]
    exact le_trans (by decide) h)
  flag i _ := Or.inl (flagAt_blank h i)
  name_le i _ hact := absurd hact (not_active_blank h i)
  name_text i _ hact := absurd hact (not_active_blank h i)
  name_inj i _ _ _ hact := absurd hact (not_active_blank h i)
  owns i _ hact := absurd hact (not_active_blank h i)
  disjoint i _ _ _ hact := absurd hact (not_active_blank h i)

end Blank

/-! ### Runs -/

/-- A call that changes the disk. -/
inductive Op
  | write (name : String) (contents : Bytes)
  | delete (name : String)

/-- The disk a call leaves, whether it succeeds or answers an error. -/
def step (disk : Disk) : Op → Exec Disk
  | .write name contents => do
    let out ← writeFile disk name contents
    return out.2
  | .delete name => do
    let out ← deleteFile disk name
    return out.2

/-- What one call does to a consistent disk. -/
theorem step_cases {disk disk' : Disk} (h : Consistent disk) {op : Op}
    (hstep : step disk op = .ok disk') :
    (∃ name contents r, op = .write name contents ∧
        WriteOutcome disk name contents (r, disk')) ∨
      ∃ name, op = .delete name ∧ Cleared disk name disk' := by
  cases op with
  | write name contents =>
    obtain ⟨⟨r, disk₁⟩, hw, hout⟩ := bind_eq_ok_iff.mp hstep
    obtain rfl := Except.ok.inj hout
    exact Or.inl ⟨name, contents, r, rfl, h.writeFile_cases hw⟩
  | delete name =>
    obtain ⟨⟨r, disk₁⟩, hd, hout⟩ := bind_eq_ok_iff.mp hstep
    obtain rfl := Except.ok.inj hout
    exact Or.inr ⟨name, rfl, ((h.deleteFile_returns name).elim hd).1⟩

theorem step_consistent {disk : Disk} {op : Op} {disk' : Disk} (h : Consistent disk)
    (hstep : step disk op = .ok disk') : Consistent disk' := by
  obtain ⟨name, contents, r, -, hout⟩ | ⟨name, -, hclear⟩ := step_cases h hstep
  · exact hout.consistent h
  · exact hclear.consistent h

/-- A disk reached from a formatted buffer by writing and deleting files. -/
def Reachable (disk : Disk) : Prop :=
  ∃ buffer disk₀ ops, format buffer = .ok (.ok (), disk₀) ∧ run step disk₀ ops = .ok disk

theorem Reachable.consistent {disk : Disk} (h : Reachable disk) : Consistent disk := by
  obtain ⟨buffer, disk₀, ops, hformat, hrun⟩ := h
  obtain ⟨hlen, rfl⟩ := format_eq_ok_iff.mp hformat
  exact run_invariant (fun _ _ _ hs hstep => step_consistent hs hstep) (consistent_blank hlen) hrun

/-! ### The represented map -/

/-- Reading any name on the disk answers the map. -/
def Represents (disk : Disk) (store : String → Option Bytes) : Prop :=
  ∀ name, readFile disk name = .ok (store name)

theorem Consistent.exists_represents {disk : Disk} (h : Consistent disk) :
    ∃ store, Represents disk store := by
  have hread : ∀ name, ∃ answer, readFile disk name = .ok answer := by
    intro name
    cases hslot : slotOf disk name with
    | none => exact ⟨none, h.readFile_eq_none hslot⟩
    | some i =>
      obtain ⟨hi, hact, -⟩ := slotOf_some hslot
      obtain ⟨l, hl⟩ := h.owns i hi hact
      exact ⟨_, h.readFile_eq_some hslot hl⟩
  choose store hstore using hread
  exact ⟨store, hstore⟩

/-- A change that answers `answer` at one name and leaves the others alone updates the map. -/
theorem Represents.update {disk disk' : Disk} {store : String → Option Bytes}
    (h : Represents disk store) {name : String} {answer : Option Bytes}
    (hself : readFile disk' name = .ok answer)
    (hother : ∀ other, other ≠ name → readFile disk' other = readFile disk other) :
    Represents disk' (Function.update store name answer) := by
  intro other
  by_cases hne : other = name
  · subst hne
    rw [Function.update_self]
    exact hself
  · rw [Function.update_of_ne hne, hother other hne]
    exact h other

/-- A written file reads back, and every other file as before. -/
theorem Consistent.readFile_of_written {disk disk' : Disk} (h : Consistent disk) {name : String}
    {contents : Bytes} (hw : WriteOutcome disk name contents (.ok (), disk')) :
    readFile disk' name = .ok (some contents) ∧
      ∀ other, other ≠ name → readFile disk' other = readFile disk other := by
  have hc' : Consistent disk' := hw.consistent h
  cases hw with
  | @written disk₁ disk₂ _ i hname hclear _ _ hstored hi hflag hfilled =>
    have hc₁ := hclear.consistent h
    have halloc := allocated_newChain disk₁ contents
    have hslot : slotOf disk' name = some i := hc'.slotOf_eq_some hi hfilled.flag hfilled.name
    refine ⟨?_, fun other hne => ?_⟩
    · rw [hc'.readFile_eq_some hslot (hfilled.owns hstored halloc), hfilled.gather_eq hi hstored]
    · rw [← hclear.readFile_eq h hne]
      refine (hfilled.keeps hi hstored halloc).readFile_eq hc₁ hc' ?_ ?_
      · intro j _ hji hact
        rw [not_not.mp hji, Active, hflag] at hact
        exact absurd hact (by decide)
      · intro j _ hji _ hother
        rw [not_not.mp hji, hfilled.name, asBytes_inj] at hother
        exact hne hother.symm

/-- A deleted file is gone, and every other file reads as before. -/
theorem Consistent.readFile_of_cleared {disk disk' : Disk} (h : Consistent disk) {name : String}
    (hclear : Cleared disk name disk') :
    readFile disk' name = .ok none ∧
      ∀ other, other ≠ name → readFile disk' other = readFile disk other :=
  ⟨(hclear.consistent h).readFile_eq_none (hclear.slotOf_eq_none h),
    fun _ hne => hclear.readFile_eq h hne⟩

/-- The length of a buffer with room for every cluster. -/
def roomyLength : Nat := dataOffset maxClusters

theorem minLength_le_roomyLength : minLength ≤ roomyLength := by decide

/-- On a buffer with room for every cluster every call returns and keeps the disk
consistent. -/
theorem step_returns {disk : Disk} (h : Consistent disk) (hroom : roomyLength ≤ disk.length)
    (op : Op) : Returns (step disk op) fun disk' =>
      Consistent disk' ∧ roomyLength ≤ disk'.length := by
  have hlength : ∀ {disk'}, step disk op = .ok disk' → disk'.length = disk.length := by
    intro disk' hstep
    obtain ⟨name, contents, r, -, hout⟩ | ⟨name, -, hclear⟩ := step_cases h hstep
    · exact hout.length_eq
    · exact hclear.length_eq
  suffices hret : ∃ disk', step disk op = .ok disk' by
    obtain ⟨disk', hstep⟩ := hret
    exact ⟨disk', hstep, step_consistent h hstep, (hlength hstep).symm ▸ hroom⟩
  cases op with
  | write name contents =>
    obtain ⟨out, hw, -⟩ := h.writeFile_returns hroom name contents
    exact ⟨out.2, by simp [step, hw]⟩
  | delete name =>
    obtain ⟨out, hd, -⟩ := h.deleteFile_returns name
    exact ⟨out.2, by simp [step, hd]⟩

/-- **MF16 is a file store.** A reachable disk represents a map from names to contents;
a successful write sets the written name, a successful deletion removes the deleted name,
and nothing else changes. On a buffer with room for every cluster every call returns. -/
theorem reachable_refines_store {disk : Disk} (hreach : Reachable disk) :
    (∃ store, Represents disk store ∧
      (∀ name contents disk', writeFile disk name contents = .ok (.ok (), disk') →
        Represents disk' (Function.update store name (some contents))) ∧
      ∀ name disk', deleteFile disk name = .ok (.ok (), disk') →
        Represents disk' (Function.update store name none)) ∧
    (roomyLength ≤ disk.length → ∀ op, ∃ disk', step disk op = .ok disk') := by
  have h := hreach.consistent
  obtain ⟨store, hstore⟩ := h.exists_represents
  refine ⟨⟨store, hstore, fun name contents disk' hw => ?_, fun name disk' hd => ?_⟩,
    fun hroom op => ?_⟩
  · obtain ⟨hself, hother⟩ := h.readFile_of_written (h.writeFile_cases hw)
    exact hstore.update hself hother
  · obtain ⟨hself, hother⟩ := h.readFile_of_cleared ((h.deleteFile_returns name).elim hd).1
    exact hstore.update hself hother
  · obtain ⟨disk', hstep, -⟩ := step_returns h hroom op
    exact ⟨disk', hstep⟩

/-- Formatting a zeroed buffer with room for every cluster. -/
theorem format_zeroed :
    format (List.replicate roomyLength 0) = .ok (.ok (), blank roomyLength) := by
  rw [format_eq_ok_iff, List.length_replicate]
  exact ⟨minLength_le_roomyLength, rfl⟩

/-! ### The first file of a disk -/

/-- The first file written to a formatted disk starts at cluster 0. -/
theorem startAt_first_write {len : Nat} (hroom : roomyLength ≤ len) (name : String)
    (contents : Bytes) (hname : (asBytes name).length ≤ 16) (hpos : 0 < contents.length)
    (hfits : clustersNeeded contents.length ≤ maxClusters) :
    Returns (step (blank len) (.write name contents)) fun disk =>
      ∃ i, slotOf disk name = some i ∧ startAt disk i = 0 := by
  have hlen := minLength_le_roomyLength.trans hroom
  have hc := consistent_blank hlen
  have hcount : (freeClusters (blank len)).length = maxClusters := by
    rw [freeClusters_blank hlen, List.length_range]
  have hslot : slotOf (blank len) name = none := slotOf_blank hlen name
  obtain ⟨⟨r, disk⟩, hw, hout⟩ :=
    hc.writeFile_returns ((length_blank hlen).symm ▸ hroom) name contents
  refine ⟨disk, by simp [step, hw], ?_⟩
  have hc' : Consistent disk := hout.consistent hc
  cases hout with
  | tooLong hlong => omega
  | emptyFile _ _ hzero => omega
  | diskFull _ hclear _ hless =>
    rw [hclear.eq_of_absent hslot, hcount] at hless
    omega
  | directoryFull _ hclear _ _ _ hfull =>
    rw [hclear.eq_of_absent hslot] at hfull
    exact absurd (flagAt_blank hlen 0) (hfull 0 (by decide))
  | @written disk₁ _ _ i _ hclear _ _ _ hi _ hfilled =>
    refine ⟨i, hc'.slotOf_eq_some hi hfilled.flag hfilled.name, ?_⟩
    obtain ⟨k, hk⟩ : ∃ k, clustersNeeded contents.length = k + 1 :=
      Nat.exists_eq_add_of_lt (clustersNeeded_pos hpos) |>.imp fun k hk => by omega
    rw [hfilled.start, hclear.eq_of_absent hslot, newChain, freeClusters_blank hlen, hk,
      maxClusters_eq, List.range_succ_eq_map, List.take_succ_cons]
    rfl

theorem exists_oneFile : ∃ disk, Reachable disk ∧ ∃ i, slotOf disk "a" = some i := by
  obtain ⟨disk, hwrite, i, hslot, -⟩ :=
    startAt_first_write le_rfl "a" [65] (by decide) (by decide) (by decide)
  refine ⟨disk, ⟨_, _, [.write "a" [65]], format_zeroed, ?_⟩, i, hslot⟩
  rw [run_cons, hwrite, ok_bind, run_nil]

/-- A disk with a file that is written again. -/
theorem oneFile_refines_store : ∃ disk store, Reachable disk ∧ (∃ i, slotOf disk "a" = some i) ∧
    Represents disk store ∧
    ∀ contents disk', writeFile disk "a" contents = .ok (.ok (), disk') →
      Represents disk' (Function.update store "a" (some contents)) := by
  obtain ⟨disk, hreach, hslot⟩ := exists_oneFile
  obtain ⟨⟨store, hstore, hwrite, -⟩, -⟩ := reachable_refines_store hreach
  exact ⟨disk, store, hreach, hslot, hstore, hwrite "a"⟩

end MerlionKernel.Fat
