import MerlionKernel.Rust.Each

/-!
# The table of memory mappings

`mmap.rs` keeps the mapped regions of all processes in one vector. `munmap` drops every region of
the process that overlaps the range, the parts outside of the range included; a region is never
cut, and the range is not rounded to pages.
-/

namespace MerlionKernel.Mmap

open Rust

/-- A region of the address space of a process, backed by a file. -/
structure MmapRegion where
  virtAddr : Nat
  length : Nat
  filePath : String
  offset : Nat
  prot : UInt8
  pid : Nat
  populated : Bool

/-- The mappings of all processes. -/
structure MmapTable where
  regions : List MmapRegion

namespace MmapRegion

/-- The region holds the address. -/
def Holds (r : MmapRegion) (a : Nat) : Prop := r.virtAddr ≤ a ∧ a < r.virtAddr + r.length

/-- The region begins before the end of the range and ends behind its beginning. -/
def Overlaps (r : MmapRegion) (addr length : Nat) : Prop :=
  r.virtAddr < addr + length ∧ addr < r.virtAddr + r.length

instance (r : MmapRegion) (addr length : Nat) : Decidable (r.Overlaps addr length) :=
  inferInstanceAs (Decidable (_ ∧ _))

/-- The test of `remove`, which computes the ends as far as it needs them. -/
def hit (r : MmapRegion) (pid addr length : Nat) : Exec Bool := do
  if r.pid = pid then
    let stop ← u64 (addr + length)
    if r.virtAddr < stop then
      let last ← u64 (r.virtAddr + r.length)
      return decide (addr < last)
    else return false
  else return false

theorem of_hit {r : MmapRegion} {pid addr length : Nat} {b : Bool}
    (h : r.hit pid addr length = .ok b) : b = decide (r.pid = pid ∧ r.Overlaps addr length) := by
  unfold hit at h
  split at h
  · next hpid =>
    obtain ⟨stop, hstop, h⟩ := bind_eq_ok_iff.mp h
    obtain ⟨-, rfl⟩ := u64_eq_ok_iff.mp hstop
    split at h
    · next hbefore =>
      obtain ⟨last, hlast, h⟩ := bind_eq_ok_iff.mp h
      obtain ⟨-, rfl⟩ := u64_eq_ok_iff.mp hlast
      cases h
      exact decide_eq_decide.mpr ⟨fun h => ⟨hpid, hbefore, h⟩, fun h => h.2.2⟩
    · next hbefore =>
      cases h
      exact (decide_eq_false fun h => hbefore h.2.1).symm
  · next hpid =>
    cases h
    exact (decide_eq_false fun h => hpid h.1).symm

end MmapRegion

namespace MmapTable

/-- `insert`. -/
def insert (self : MmapTable) (region : MmapRegion) : MmapTable :=
  { regions := self.regions ++ [region] }

/-- Remove all regions of the process that overlap the range; returns how many there were. -/
def remove (self : MmapTable) (pid addr length : Nat) : Exec (Nat × MmapTable) := do
  let kept ← retain (fun r => do return !(← r.hit pid addr length)) self.regions
  let removed ← sub self.regions.length kept.length
  return (removed, { regions := kept })

/-- Some region of the process holds the address. -/
def Covers (self : MmapTable) (pid a : Nat) : Prop := ∃ r ∈ self.regions, r.pid = pid ∧ r.Holds a

end MmapTable

/-- `munmap`, for the current process. `MMAP_TABLE` is `none` before `init`. -/
def munmap (table : Option MmapTable) (pid addr length : Nat) :
    Exec (Except String Unit × Option MmapTable) :=
  match table with
  | none => return (.error "mmap not initialized", none)
  | some tbl => do
    let (removed, tbl) ← tbl.remove pid addr length
    if removed = 0 then return (.error "no mapping found at that address", some tbl)
    else return (.ok (), some tbl)

/-- What a removal leaves. -/
theorem regions_of_remove {table table' : MmapTable} {pid addr length removed : Nat}
    (h : table.remove pid addr length = .ok (removed, table')) :
    table'.regions =
      table.regions.filter fun r => !decide (r.pid = pid ∧ r.Overlaps addr length) := by
  obtain ⟨kept, hkept, h⟩ := bind_eq_ok_iff.mp h
  obtain ⟨n, -, h⟩ := bind_eq_ok_iff.mp h
  cases h
  refine of_retain ?_ hkept
  intro r b hb
  obtain ⟨hit, hhit, hb⟩ := bind_eq_ok_iff.mp hb
  cases hb
  rw [MmapRegion.of_hit hhit]

/-- After `munmap` the process is left with its regions that do not overlap the range, and the
other processes with all of theirs. -/
theorem munmap_removes_overlapping {table : MmapTable} {table' : Option MmapTable}
    {pid addr length : Nat} (h : munmap (some table) pid addr length = .ok (.ok (), table')) :
    ∃ left, table' = some left ∧
      (∀ a, left.Covers pid a ↔
        ∃ r ∈ table.regions, r.pid = pid ∧ r.Holds a ∧ ¬ r.Overlaps addr length) ∧
      left.regions.filter (fun r => r.pid ≠ pid) = table.regions.filter fun r => r.pid ≠ pid := by
  obtain ⟨⟨removed, left⟩, hremove, h⟩ := bind_eq_ok_iff.mp h
  have hleft : table' = some left := by
    dsimp only at h
    split at h
    · cases h
    · cases h
      rfl
  have hregions := regions_of_remove hremove
  refine ⟨left, hleft, fun a => ?_, ?_⟩
  · constructor
    · rintro ⟨r, hr, hpid, hholds⟩
      rw [hregions, List.mem_filter] at hr
      refine ⟨r, hr.1, hpid, hholds, fun hover => ?_⟩
      simp [hpid, hover] at hr
    · rintro ⟨r, hr, hpid, hholds, hover⟩
      refine ⟨r, ?_, hpid, hholds⟩
      rw [hregions, List.mem_filter]
      exact ⟨hr, by simp [hover]⟩
  · rw [hregions, List.filter_filter]
    apply List.filter_congr
    intro r hr
    by_cases hpid : r.pid = pid <;> simp [hpid]

/-- The table with one region of two pages, mapped by process 1. -/
def twoPages : MmapTable :=
  { regions := [{ virtAddr := 8192, length := 8192, filePath := "/tmp/a", offset := 0, prot := 2
                  pid := 1, populated := false }] }

theorem munmap_removes_overlapping_twoPages :
    ∃ left, munmap (some twoPages) 1 8192 4096 = .ok (.ok (), some left) ∧
      ∀ a, left.Covers 1 a ↔
        ∃ r ∈ twoPages.regions, r.pid = 1 ∧ r.Holds a ∧ ¬ r.Overlaps 8192 4096 := by
  have h : munmap (some twoPages) 1 8192 4096 = .ok (.ok (), some { regions := [] }) := rfl
  obtain ⟨left, hleft, hcovers, -⟩ := munmap_removes_overlapping h
  cases hleft
  exact ⟨_, h, hcovers⟩

/-- Unmapping the first of two pages takes the second one away too. -/
theorem munmap_takes_whole_region :
    ¬ ∀ (table left : MmapTable) (pid addr length : Nat),
      munmap (some table) pid addr length = .ok (.ok (), some left) →
        ∀ a, left.Covers pid a ↔ table.Covers pid a ∧
          ¬ (addr / 4096 * 4096 ≤ a ∧ a < (addr + length + 4095) / 4096 * 4096) := by
  intro h
  obtain ⟨r, hr, -⟩ := (h twoPages { regions := [] } 1 8192 4096 rfl 12288).mpr
    ⟨⟨_, List.mem_singleton_self _, rfl, by decide, by decide⟩, by decide⟩
  cases hr

end MerlionKernel.Mmap
