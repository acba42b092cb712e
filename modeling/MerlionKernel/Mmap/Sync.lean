import MerlionKernel.Mmap.Table
import MerlionKernel.Vfs.Store

/-!
# Writing a mapping back

A page fault fills a page with the bytes of the file from the offset of the mapping on, and with
zeros behind the end of the file. `msync` writes the bytes from the start of the region as the whole
file: it takes neither the offset into account nor where the file ends. So a mapping nobody has
stored to can change its file.
-/

namespace MerlionKernel.Mmap

open Rust Vfs

/-- `PAGE_SIZE`. -/
def pageSize : Nat := 4096

/-- `PROT_WRITE`. -/
def protWrite : UInt8 := 2

/-- What the calls work on: the table, `MMAP_NEXT`, the memory and the file system. -/
structure MmapState where
  table : Option MmapTable
  next : Nat
  memory : Nat → UInt8
  vfs : VfsLock

/-- The test of `find`. -/
def MmapRegion.at (r : MmapRegion) (pid addr : Nat) : Exec Bool := do
  if r.pid = pid ∧ r.virtAddr ≤ addr then
    let stop ← u64 (r.virtAddr + r.length)
    return decide (addr < stop)
  else return false

/-- Where `find` and `find_mut` find the region of an address. -/
def position (pid addr : Nat) : List MmapRegion → Exec (Option Nat)
  | [] => return none
  | r :: regions => do
    if ← r.at pid addr then return some 0
    else return (← position pid addr regions).map (· + 1)

section Calls

variable (sec : Security) (procText : NodeType → String) (pid : Nat)

/-- `mmap`; the null pointer is 0. -/
def mmap (st : MmapState) (path : String) (offset length : Nat) (prot : UInt8) :
    Exec (Nat × MmapState) := do
  if length = 0 then return (0, st)
  else
    match ← cat st.vfs sec procText path with
    | .error _ => return (0, st)
    | .ok _ =>
      let sum ← u64 (length + pageSize)
      let alignedLen := (sum - 1) / pageSize * pageSize
      let region : MmapRegion :=
        { virtAddr := st.next, length := alignedLen, filePath := path, offset, prot, pid
          populated := false }
      return (st.next, { st with
        table := st.table.map fun tbl => tbl.insert region
        next := (st.next + alignedLen) % 2 ^ 64 })

/-- The memory after a page was cleared and the file copied to it. -/
def loadPage (memory : Nat → UInt8) (pageAddr : Nat) (data : Bytes) (fileOff : Nat) :
    Nat → UInt8 := fun a =>
  if pageAddr ≤ a ∧ a < pageAddr + pageSize then
    (((data.drop fileOff).take pageSize)[a - pageAddr]?).getD 0
  else memory a

/-- `handle_page_fault`; `mapped` tells whether a page could be mapped. -/
def handlePageFault (st : MmapState) (mapped : Bool) (faultAddr : Nat) : Exec (Bool × MmapState) :=
  match st.table with
  | none => return (false, st)
  | some tbl => do
    match ← position pid faultAddr tbl.regions with
    | none => return (false, st)
    | some i =>
      let region ← index tbl.regions i
      let pageAddr := faultAddr / pageSize * pageSize
      let pageOffset ← sub pageAddr region.virtAddr
      if !mapped then return (false, st)
      else
        let memory ← match ← cat st.vfs sec procText region.filePath with
          | .error _ => pure st.memory
          | .ok data => do
            let fileOff ← u64 (region.offset + pageOffset)
            pure (loadPage st.memory pageAddr (asBytes data) fileOff)
        return (true, { st with
          memory
          table := some { regions := tbl.regions.set i { region with populated := true } } })

/-- `msync`. The end of a region that was found does not overflow, so its addresses do not. -/
def msync (st : MmapState) (addr length : Nat) : Exec (Except String Unit × MmapState) :=
  match st.table with
  | none => return (.error "mmap not initialized", st)
  | some tbl => do
    match ← position pid addr tbl.regions with
    | none => return (.error "no mapping at that address", st)
    | some i =>
      let region ← index tbl.regions i
      if region.prot &&& protWrite = 0 then return (.error "region is not writable", st)
      else if !region.populated then return (.error "region has not been faulted in yet", st)
      else
        let syncLen := min length region.length
        let buf := (List.range syncLen).map fun i => st.memory (region.virtAddr + i)
        match fromUtf8 buf with
        -- `from_utf8_unchecked` has no defined behaviour here.
        | none => .error .panicked
        | some text =>
          let (_, vfs) ← write st.vfs sec region.filePath text
          return (.ok (), { st with vfs })

/-- Page faults one after the other, each of which finds a page. -/
def faultIn (st : MmapState) (faults : List Nat) : Exec MmapState :=
  faults.foldlM (fun st a => do
    let (_, st) ← handlePageFault sec procText pid st true a
    return st) st

end Calls

/-! ### Finding the region -/

theorem position_append {old : List MmapRegion} {r : MmapRegion} {pid addr : Nat}
    (hold : ∀ o ∈ old, o.pid = pid → o.virtAddr + o.length ≤ addr) (haddr : addr < 2 ^ 64)
    (hpid : r.pid = pid) (hr : r.Holds addr) (hstop : r.virtAddr + r.length < 2 ^ 64) :
    position pid addr (old ++ [r]) = .ok (some old.length) := by
  induction old with
  | nil =>
    have hat : r.at pid addr = .ok true := by
      rw [MmapRegion.at, if_pos ⟨hpid, hr.1⟩, u64_eq_ok hstop, ok_bind, decide_eq_true hr.2]
      rfl
    rw [List.nil_append, position, hat, ok_bind]
    rfl
  | cons o old ih =>
    obtain ⟨ho, hold⟩ := List.forall_mem_cons.mp hold
    have hat : o.at pid addr = .ok false := by
      rw [MmapRegion.at]
      split
      · next h =>
        have hle := ho h.1
        rw [u64_eq_ok (hle.trans_lt haddr), ok_bind, decide_eq_false (not_lt.mpr hle)]
        rfl
      · rfl
    rw [List.cons_append, position, hat, ok_bind, if_neg Bool.false_ne_true, ih hold, ok_bind]
    rfl

/-! ### Mapping and faulting in -/

/-- A regular file that can be read. -/
structure Readable (fs : Filesystem) (sec : Security) (path : String) (idx : Nat) (inode : Inode) :
    Prop where
  canRead : sec.canRead path = true
  found : fs.resolve path = some idx
  node : fs.inodes[idx]? = some inode
  regular : inode.nodeType = .regularFile

/-- The new region lies behind the others of the process, and nothing overflows. -/
structure Fits (tbl : MmapTable) (pid next offset aligned : Nat) : Prop where
  behind : ∀ r ∈ tbl.regions, r.pid = pid → r.virtAddr + r.length ≤ next
  onPage : next % pageSize = 0
  stop : next + aligned < 2 ^ 64
  file : offset + aligned < 2 ^ 64

/-- The length of a mapping in whole pages. -/
def alignUp (length : Nat) : Nat := (length + pageSize - 1) / pageSize * pageSize

/-- The byte of the file, or zero behind its end. -/
def fileByte (data : Bytes) (i : Nat) : UInt8 := (data[i]?).getD 0

section FaultIn

variable {sec : Security} (procText : NodeType → String) {pid : Nat} {fs : Filesystem}
  {idx : Nat} {inode : Inode} {tbl : MmapTable} {region : MmapRegion}

/-- The pages of the addresses hold the file; nothing else has happened to the table. -/
structure Loaded (fs : Filesystem) (inode : Inode) (tbl : MmapTable) (region : MmapRegion)
    (done : List Nat) (st : MmapState) : Prop where
  vfs : st.vfs = some fs
  table : st.table =
    some { regions := tbl.regions ++ [{ region with populated := !done.isEmpty }] }
  memory : ∀ a d, d ∈ done → a / pageSize = d / pageSize →
    st.memory a = fileByte (asBytes inode.data) (region.offset + (a - region.virtAddr))

/-- A page fault in the region loads its page. -/
theorem handlePageFault_loads (hfile : Readable fs sec region.filePath idx inode)
    (hfits : Fits tbl pid region.virtAddr region.offset region.length)
    (hpid : region.pid = pid) {done : List Nat} {st : MmapState}
    (h : Loaded fs inode tbl region done st) {a : Nat} (ha : region.Holds a) :
    ∃ st', handlePageFault sec procText pid st true a = .ok (true, st') ∧
      Loaded fs inode tbl region (done ++ [a]) st' := by
  have hstop := hfits.stop
  have hposition : position pid a (tbl.regions ++ [{ region with populated := !done.isEmpty }]) =
      .ok (some tbl.regions.length) :=
    position_append (fun r hr hrpid => (hfits.behind r hr hrpid).trans ha.1)
      (ha.2.trans hstop) hpid ha hstop
  -- The region starts at a page, so the page of the address does not start before it.
  have hpage : region.virtAddr ≤ a / pageSize * pageSize := by
    have hon := hfits.onPage
    have hle := ha.1
    unfold pageSize at *
    omega
  have hoffset : region.offset + (a / pageSize * pageSize - region.virtAddr) < 2 ^ 64 := by
    have hfile := hfits.file
    have hlt := ha.2
    unfold pageSize at *
    omega
  refine ⟨{ st with
    memory := loadPage st.memory (a / pageSize * pageSize) (asBytes inode.data)
      (region.offset + (a / pageSize * pageSize - region.virtAddr))
    table := some { regions := tbl.regions ++ [{ region with populated := true }] } }, ?_, ?_⟩
  · unfold handlePageFault
    simp only [h.table, h.vfs, hposition, ok_bind, index_append_cons, sub_eq_ok hpage,
      cat_eq hfile.canRead hfile.found hfile.node hfile.regular, u64_eq_ok hoffset, pure_eq_ok]
    simp
  · refine ⟨h.vfs, ?_, fun a' d hd hpage' => ?_⟩
    · simp
    · show loadPage _ _ _ _ a' = _
      unfold loadPage
      by_cases hhere : a' / pageSize = a / pageSize
      · have hin : a / pageSize * pageSize ≤ a' ∧ a' < a / pageSize * pageSize + pageSize := by
          unfold pageSize at *
          omega
        rw [if_pos hin, List.getElem?_take, if_pos (by omega), List.getElem?_drop, fileByte]
        congr 2
        omega
      · have hout : ¬ (a / pageSize * pageSize ≤ a' ∧ a' < a / pageSize * pageSize + pageSize) := by
          unfold pageSize at *
          omega
        rw [if_neg hout]
        rcases List.mem_append.mp hd with hd | hd
        · exact h.memory a' d hd hpage'
        · rw [List.mem_singleton.mp hd] at hpage'
          exact (hhere hpage').elim

theorem faultIn_loads (hfile : Readable fs sec region.filePath idx inode)
    (hfits : Fits tbl pid region.virtAddr region.offset region.length)
    (hpid : region.pid = pid) {faults done : List Nat} {st : MmapState}
    (h : Loaded fs inode tbl region done st) (hfaults : ∀ a ∈ faults, region.Holds a) :
    ∃ st', faultIn sec procText pid st faults = .ok st' ∧
      Loaded fs inode tbl region (done ++ faults) st' := by
  induction faults generalizing done st with
  | nil => exact ⟨st, rfl, by rwa [List.append_nil]⟩
  | cons a faults ih =>
    obtain ⟨ha, hfaults⟩ := List.forall_mem_cons.mp hfaults
    obtain ⟨st₁, hstep, h₁⟩ := handlePageFault_loads procText hfile hfits hpid h ha
    obtain ⟨st₂, hrun, h₂⟩ := ih h₁ hfaults
    refine ⟨st₂, ?_, by rwa [List.append_assoc] at h₂⟩
    unfold faultIn at hrun ⊢
    rw [List.foldlM_cons, hstep]
    exact hrun

end FaultIn

/-! ### Writing back -/

/-- The bytes that a mapping shows of a file, and zeros behind it. -/
def image (data : Bytes) (offset n : Nat) : Bytes :=
  (List.range n).map fun i => fileByte data (offset + i)

theorem image_zero (data : Bytes) : image data 0 data.length = data := by
  refine List.ext_getElem (by simp [image]) fun i hi hi' => ?_
  simp [image, fileByte, hi']

/-- The image is the file exactly if it is as long and starts where the file does, or there are
only zeros. -/
theorem image_eq_iff {data : Bytes} {offset n : Nat} :
    image data offset n = data ↔ n = data.length ∧ (offset = 0 ∨ ∀ b ∈ data, b = 0) := by
  constructor
  · intro h
    have hlen : n = data.length := by
      have hlen := congrArg List.length h
      rwa [image, List.length_map, List.length_range] at hlen
    refine ⟨hlen, or_iff_not_imp_left.mpr fun hoffset => ?_⟩
    have hshift : ∀ i, fileByte data i = fileByte data (offset + i) := by
      intro i
      by_cases hi : i < data.length
      · have hget : (image data offset n)[i]? = data[i]? := by rw [h]
        have himage : (image data offset n)[i]? = some (fileByte data (offset + i)) := by
          rw [image, List.getElem?_map, List.getElem?_range (hlen ▸ hi)]
          rfl
        show (data[i]?).getD 0 = _
        rw [← hget, himage]
        rfl
      · rw [fileByte, fileByte, List.getElem?_eq_none (not_lt.mp hi),
          List.getElem?_eq_none (by omega)]
    -- Every byte is equal to one further on, and behind the end there are zeros.
    have hzero : ∀ m i, data.length ≤ i + m → fileByte data i = 0 := by
      intro m
      induction m with
      | zero =>
        intro i hi
        rw [fileByte, List.getElem?_eq_none (by omega)]
        rfl
      | succ m ih =>
        intro i hi
        rw [hshift]
        exact ih _ (by omega)
    intro b hb
    obtain ⟨i, hi, rfl⟩ := List.getElem_of_mem hb
    have hbyte := hzero data.length i (by omega)
    rwa [fileByte, List.getElem?_eq_getElem hi] at hbyte
  · rintro ⟨rfl, rfl | hzero⟩
    · exact image_zero data
    · refine List.ext_getElem (by simp [image]) fun i hi hi' => ?_
      have hbyte : ∀ j, fileByte data j = 0 := by
        intro j
        rw [fileByte]
        cases hj : data[j]? with
        | none => rfl
        | some b => exact hzero b (List.mem_of_getElem? hj)
      rw [hzero _ (List.getElem_mem hi')]
      simp [image, hbyte]

/-- The file has the contents it had. -/
def Unchanged (idx : Nat) (inode : Inode) (vfs : VfsLock) : Prop :=
  ∃ fs, vfs = some fs ∧ (fs.inodes[idx]?).map Inode.data = some inode.data

section Msync

variable {sec : Security} {procText : NodeType → String} {pid : Nat} {fs : Filesystem}
  {path : String} {idx : Nat} {inode : Inode}

/-- A write to the file changes it unless it is refused or the text is the old one. -/
theorem write_unchanged_iff (hfile : Readable fs sec path idx inode) (text : String) :
    Returns (write (some fs) sec path text) fun (_, vfs) => (Unchanged idx inode vfs ↔
      sec.canWrite path ≠ true ∨ maxFileSize < (asBytes text).length ∨ text = inode.data) := by
  have hsame : Unchanged idx inode (some fs) := ⟨fs, rfl, by rw [hfile.node]; rfl⟩
  unfold write
  by_cases hcan : sec.canWrite path = true
  · rw [if_neg (not_not.mpr hcan)]
    simp only [Filesystem.openFile, hfile.found, pure_eq_ok, ok_bind, Filesystem.writeFile,
      index_eq_ok_iff.mpr hfile.node, hfile.regular]
    by_cases hlarge : (asBytes text).length > maxFileSize
    · simp only [if_pos hlarge, ok_bind]
      exact .ok (iff_of_true hsame (.inr (.inl hlarge)))
    · simp only [if_neg hlarge, ok_bind]
      refine .ok ⟨?_, ?_⟩
      · rintro ⟨fs', hfs', hdata⟩
        cases hfs'
        have hlt : idx < fs.inodes.length := (List.getElem?_eq_some_iff.mp hfile.node).1
        simp only [List.getElem?_set_self hlt, Option.map_some, Option.some.injEq] at hdata
        exact .inr (.inr hdata)
      · rintro (hnot | hnot | rfl)
        · exact (hnot hcan).elim
        · exact (hlarge hnot).elim
        · refine ⟨_, rfl, ?_⟩
          have hlt : idx < fs.inodes.length := (List.getElem?_eq_some_iff.mp hfile.node).1
          simp [List.getElem?_set_self hlt]
  · rw [if_pos hcan]
    exact .ok (iff_of_true hsame (.inl hcan))

/-- The pages of a region that was faulted in hold the image of the file. -/
theorem Loaded.image_eq {tbl : MmapTable} {region : MmapRegion} {faults : List Nat}
    {st : MmapState} (h : Loaded fs inode tbl region faults st)
    (hall : ∀ a, region.Holds a → ∃ d ∈ faults, a / pageSize = d / pageSize) {n : Nat}
    (hn : n ≤ region.length) :
    ((List.range n).map fun i => st.memory (region.virtAddr + i)) =
      image (asBytes inode.data) region.offset n := by
  refine List.map_congr_left fun i hi => ?_
  have hi' := List.mem_range.mp hi
  obtain ⟨d, hd, hpage⟩ := hall (region.virtAddr + i) ⟨Nat.le_add_right _ _, by omega⟩
  rw [h.memory _ d hd hpage, Nat.add_sub_cancel_left]

/-- The region of a new mapping. -/
def newRegion (next pid : Nat) (path : String) (offset length : Nat) (prot : UInt8) : MmapRegion :=
  { virtAddr := next, length := alignUp length, filePath := path, offset, prot, pid
    populated := false }

theorem mmap_eq {st : MmapState} {tbl : MmapTable} (hvfs : st.vfs = some fs)
    (htable : st.table = some tbl) (hfile : Readable fs sec path idx inode) {length : Nat}
    (hlength : 0 < length) (hsum : length + pageSize < 2 ^ 64) (offset : Nat) (prot : UInt8) :
    mmap sec procText pid st path offset length prot = .ok (st.next, { st with
      table := some
        { regions := tbl.regions ++ [newRegion st.next pid path offset length prot] }
      next := (st.next + alignUp length) % 2 ^ 64
      vfs := some fs }) := by
  unfold mmap
  rw [if_neg hlength.ne', hvfs, cat_eq hfile.canRead hfile.found hfile.node hfile.regular, htable]
  simp only [ok_bind, u64_eq_ok hsum, pure_eq_ok]
  rfl

/-- A region that was faulted in is written back from its start, as the whole file. -/
theorem Loaded.msync_eq {tbl : MmapTable} {region : MmapRegion} {faults : List Nat}
    {st : MmapState} (h : Loaded fs inode tbl region faults st)
    (hfits : Fits tbl pid region.virtAddr region.offset region.length) (hpid : region.pid = pid)
    (hprot : region.prot &&& protWrite ≠ 0)
    (hall : ∀ a, region.Holds a → ∃ d ∈ faults, a / pageSize = d / pageSize) {addr : Nat}
    (haddr : region.Holds addr) (n : Nat) :
    msync sec pid st addr n =
      match fromUtf8 (image (asBytes inode.data) region.offset (min n region.length)) with
      | none => .error .panicked
      | some text => do
        let (_, vfs) ← write (some fs) sec region.filePath text
        return (.ok (), { st with vfs }) := by
  have hne : faults.isEmpty = false := by
    obtain ⟨d, hd, -⟩ := hall addr haddr
    cases faults with
    | nil => cases hd
    | cons a faults => rfl
  have htable : st.table =
      some { regions := tbl.regions ++ [{ region with populated := true }] } := by
    rw [h.table, hne]
    rfl
  have hposition : position pid addr (tbl.regions ++ [{ region with populated := true }]) =
      .ok (some tbl.regions.length) :=
    position_append (fun r hr hrpid => (hfits.behind r hr hrpid).trans haddr.1)
      (haddr.2.trans hfits.stop) hpid haddr hfits.stop
  unfold msync
  simp only [htable, hposition, ok_bind, index_append_cons, h.vfs,
    h.image_eq hall (min_le_right n region.length)]
  rw [if_neg hprot, if_neg (by decide)]

/-- The bytes written are the file's exactly if the text is. -/
theorem eq_data_iff {text : String} {offset n : Nat}
    (htext : fromUtf8 (image (asBytes inode.data) offset n) = some text) :
    text = inode.data ↔
      n = (asBytes inode.data).length ∧ (offset = 0 ∨ ∀ b ∈ asBytes inode.data, b = 0) := by
  rw [← image_eq_iff, ← fromUtf8_eq_some_iff.mp htext]
  constructor
  · exact congrArg asBytes
  · intro heq
    have htext' := fromUtf8_asBytes text
    rw [heq, fromUtf8_asBytes] at htext'
    exact (Option.some.inj htext').symm

/-- Faulting a fresh mapping in and writing it back, without a store in between, leaves the file
alone exactly if the write is refused or the bytes written are the file again. -/
theorem msync_unchanged_iff {st : MmapState} {tbl : MmapTable} (hvfs : st.vfs = some fs)
    (htable : st.table = some tbl) (hfile : Readable fs sec path idx inode)
    {offset length addr n : Nat} {prot : UInt8} {faults : List Nat} (hlength : 0 < length)
    (hprot : prot &&& protWrite ≠ 0) (hsum : length + pageSize < 2 ^ 64)
    (hfits : Fits tbl pid st.next offset (alignUp length))
    (hfaults : ∀ a ∈ faults, st.next ≤ a ∧ a < st.next + alignUp length)
    (hall : ∀ a, st.next ≤ a → a < st.next + alignUp length →
      ∃ d ∈ faults, a / pageSize = d / pageSize)
    (haddr : st.next ≤ addr ∧ addr < st.next + alignUp length) :
    ∃ st₁ st₂, mmap sec procText pid st path offset length prot = .ok (st.next, st₁) ∧
      faultIn sec procText pid st₁ faults = .ok st₂ ∧
      ((∃ result st₃, msync sec pid st₂ addr n = .ok (result, st₃) ∧
          Unchanged idx inode st₃.vfs) ↔
        fromUtf8 (image (asBytes inode.data) offset (min n (alignUp length))) ≠ none ∧
            (sec.canWrite path ≠ true ∨ maxFileSize < min n (alignUp length)) ∨
          min n (alignUp length) = (asBytes inode.data).length ∧
            (offset = 0 ∨ ∀ b ∈ asBytes inode.data, b = 0)) := by
  have hstart : Loaded fs inode tbl (newRegion st.next pid path offset length prot) [] { st with
      table := some
        { regions := tbl.regions ++ [newRegion st.next pid path offset length prot] }
      next := (st.next + alignUp length) % 2 ^ 64
      vfs := some fs } :=
    ⟨rfl, rfl, nofun⟩
  obtain ⟨st₂, hfault, hloaded⟩ := faultIn_loads procText hfile hfits rfl hstart hfaults
  refine ⟨_, st₂, mmap_eq hvfs htable hfile hlength hsum offset prot, hfault, ?_⟩
  have hmsync : msync sec pid st₂ addr n = _ :=
    hloaded.msync_eq hfits rfl hprot (fun a ha => hall a ha.1 ha.2) haddr n
  simp only [newRegion] at hmsync
  rw [hmsync]
  cases htext : fromUtf8 (image (asBytes inode.data) offset (min n (alignUp length))) with
  | none =>
    refine iff_of_false nofun ?_
    rintro (⟨hvalid, -⟩ | hsame)
    · exact hvalid rfl
    · rw [image_eq_iff.mpr hsame, fromUtf8_asBytes] at htext
      cases htext
  | some text =>
    obtain ⟨⟨result, vfs⟩, hwrite, hiff⟩ := write_unchanged_iff hfile text
    have hlen : (asBytes text).length = min n (alignUp length) := by
      rw [fromUtf8_eq_some_iff.mp htext, image, List.length_map, List.length_range]
    rw [hlen, eq_data_iff htext, ← or_assoc] at hiff
    simp only [hwrite, ok_bind]
    refine Iff.trans ⟨?_, fun h => ⟨_, _, rfl, h⟩⟩ (hiff.trans (or_congr_left ?_))
    · rintro ⟨result', st₃, heq, h⟩
      cases heq
      exact h
    · exact (and_iff_right (Option.some_ne_none _)).symm

end Msync

/-- The file system after `write("/tmp/a", "ab")`. -/
def twoBytesFs : Filesystem :=
  match write (some freshFs) ⟨Security.init, []⟩ "/tmp/a" "ab" with
  | .ok (_, some fs) => fs
  | _ => freshFs

/-- The same, with nothing mapped. -/
def twoBytes : MmapState :=
  { table := some { regions := [] }, next := 8192, memory := fun _ => 0, vfs := some twoBytesFs }

/-- The inode of `/tmp/a`. -/
def twoBytesInode : Inode :=
  { Filesystem.newInode ⟨Security.init, []⟩ "a" .regularFile 13 with data := "ab" }

theorem msync_unchanged_iff_twoBytes :
    ∃ st₁ st₂, mmap ⟨Security.init, []⟩ (fun _ => "") 1 twoBytes "/tmp/a" 0 2 protWrite =
        .ok (8192, st₁) ∧
      faultIn ⟨Security.init, []⟩ (fun _ => "") 1 st₁ [8192] = .ok st₂ ∧
      ∃ result st₃, msync ⟨Security.init, []⟩ 1 st₂ 8192 2 = .ok (result, st₃) ∧
        Unchanged twoBytesFs.inodes.length.pred twoBytesInode st₃.vfs := by
  have halign : alignUp 2 = 4096 := by decide
  have hfile : Readable twoBytesFs ⟨Security.init, []⟩ "/tmp/a" twoBytesFs.inodes.length.pred
      twoBytesInode := by
    constructor
    all_goals decide +kernel
  have hfits : Fits { regions := [] } 1 twoBytes.next 0 (alignUp 2) :=
    ⟨List.forall_mem_nil _, by decide, by decide, by decide⟩
  have hpages : ∀ a, 8192 ≤ a → a < 8192 + alignUp 2 →
      ∃ d ∈ [8192], a / pageSize = d / pageSize := by
    intro a hle hlt
    refine ⟨8192, List.mem_singleton_self _, ?_⟩
    rw [halign] at hlt
    unfold pageSize
    omega
  obtain ⟨st₁, st₂, hmmap, hfault, hiff⟩ :=
    @msync_unchanged_iff _ (fun _ => "") 1 _ _ _ _ twoBytes _ rfl rfl hfile 0 2 8192 2 protWrite
      [8192] (by decide) (by decide) (by decide) hfits (by decide) hpages (by decide)
  exact ⟨st₁, st₂, hmmap, hfault, hiff.mpr (.inr ⟨by decide, .inl rfl⟩)⟩

/-- A mapping of the second byte, faulted in and written back: the first byte is lost. -/
theorem msync_drops_byte :
    cat twoBytes.vfs ⟨Security.init, []⟩ (fun _ => "") "/tmp/a" = .ok (.ok "ab") ∧
      (do
        let (addr, st) ← mmap ⟨Security.init, []⟩ (fun _ => "") 1 twoBytes "/tmp/a" 1 1 protWrite
        let st ← faultIn ⟨Security.init, []⟩ (fun _ => "") 1 st [addr]
        let (_, st) ← msync ⟨Security.init, []⟩ 1 st addr 1
        cat st.vfs ⟨Security.init, []⟩ (fun _ => "") "/tmp/a") = .ok (.ok "b") := by
  decide +kernel

end MerlionKernel.Mmap
