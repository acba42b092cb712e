import MerlionKernel.Fat.Write

/-!
# The outcomes of a call

`Cleared` and `WriteOutcome` list everything that `delete_file` and `write_file` can do to
a consistent disk. Each case names the intermediate disks, so that a property of the
filesystem is proved by going through the cases once.
-/

namespace MerlionKernel.Fat

open Rust Theory

/-! ### The contents in place -/

/-- The change that linking the clusters of `l` and copying the contents into them makes. -/
structure Stored (disk disk' : Disk) (l : List Nat) (contents : Bytes) : Prop where
  length_eq : disk'.length = disk.length
  low : ∀ p < 512, byteAt disk' p = byteAt disk p
  entry : ∀ j < maxFiles, SameEntry disk disk' j
  fat : ∀ c < maxClusters, c ∉ l → fatEntry disk' c = fatEntry disk c
  data : ∀ c, c ∉ l → ∀ p, dataOffset c ≤ p → p < dataOffset c + clusterSize →
    byteAt disk' p = byteAt disk p
  links : ∀ k c, l[k]? = some c → fatEntry disk' c = l.getD (k + 1) fatEof
  fits : Fits disk.length l contents.length
  gather_eq : gather disk' l contents.length = contents

/-- Writing the chain and then the data stores the contents whenever both return. -/
theorem stored_of_write {disk disk₁ disk₂ : Disk} (hlen : minLength ≤ disk.length)
    {l : List Nat} (halloc : Allocated disk l) {contents : Bytes}
    (hl : l.length = clustersNeeded contents.length) {total : Nat}
    (hchain : writeChain l disk = .ok disk₁)
    (hdata : writeData contents l disk₁ = .ok (disk₂, total)) :
    Stored disk disk₂ l contents := by
  obtain ⟨hsame, hlinks, hother⟩ := (writeChain_spec hlen halloc.lt halloc.nodup).elim hchain
  have hfits : Fits disk₁.length l (contents.length - 0) :=
    fits_of_foldlM_writeBlock (Nat.zero_le _) hl hdata
  obtain ⟨hlen₂, hbyte, hgather⟩ :=
    (foldlM_writeBlock halloc.nodup (Nat.zero_le _) hfits).elim hdata
  have hlow : ∀ p < 4096, byteAt disk₂ p = byteAt disk₁ p := fun p hp =>
    hbyte p fun c _ => by have := dataOffset_eq c; omega
  have hfat : ∀ c < maxClusters, fatEntry disk₂ c = fatEntry disk₁ c := fun c hc => by
    have hoff := fatOffset_eq c
    rw [maxClusters_eq] at hc
    rw [fatEntry, fatEntry, hlow _ (by omega), hlow _ (by omega)]
  refine ⟨hlen₂.trans hsame.length_eq, fun p hp => ?_, fun j hj => ⟨hlen₂.trans hsame.length_eq,
    fun k hk => ?_⟩, fun c hc hcl => ?_, fun c hcl p hp hp' => ?_, fun k c hk => ?_, ?_, ?_⟩
  · rw [hlow p (by omega), hsame.byte_eq p (by omega)]
  · have hoff := entryOffset_eq j
    unfold maxFiles at hj
    rw [hlow _ (by omega), hsame.byte_eq _ (by omega)]
  · rw [hfat c hc, hother c hcl]
  · have hoff := dataOffset_eq c
    rw [hbyte p fun d hd => by have := dataOffset_disjoint (ne_of_mem_of_not_mem hd hcl); omega,
      hsame.byte_eq p (by omega)]
  · rw [hfat c (halloc.lt c (List.mem_of_getElem? hk)), hlinks k c hk]
  · rw [← hsame.length_eq]
    exact hfits
  · simpa using hgather

namespace Stored

variable {disk disk' : Disk} {l : List Nat} {contents : Bytes}

theorem keeps (h : Stored disk disk' l contents) (halloc : Allocated disk l) :
    Keeps disk disk' fun _ => True where
  length_eq := h.length_eq
  magic_eq p hp := h.low p (by omega)
  entry j hj _ := h.entry j hj
  fat j _ _ _ m hm c hc := h.fat c (hm.lt c hc) fun hcl => hm.not_free hc (halloc.free c hcl)
  data j _ _ _ m hm c hc := h.data c fun hcl => hm.not_free hc (halloc.free c hcl)

theorem consistent (h : Stored disk disk' l contents) (hc : Consistent disk)
    (halloc : Allocated disk l) : Consistent disk' :=
  (h.keeps halloc).consistent hc (fun _ _ hk => absurd trivial hk)
    (fun _ _ _ _ hk => absurd trivial hk) (fun _ _ hk => absurd trivial hk)

theorem chain (h : Stored disk disk' l contents) (halloc : Allocated disk l) :
    IsChain (fatEntry disk') fatEof (l.headD fatEof) l := by
  refine .of_links (fun hmem => ?_) h.links
  exact absurd (halloc.lt _ hmem) (by decide)

end Stored

/-! ### The directory entry -/

/-- The change that filling in directory entry `i` makes. -/
structure Filled (disk disk' : Disk) (i : Nat) (name : String) (start size : Nat) : Prop where
  same : SameOutside disk disk' (entryOffset i) (entryOffset i + 32)
  flag : flagAt disk' i = 1
  nameLen : nameLenAt disk' i = (asBytes name).length
  name : nameAt disk' i = asBytes name
  start : startAt disk' i = start
  size : sizeAt disk' i = size

theorem byteAt_splice_add {buf src : Bytes} {lo k : Nat} (h : lo + src.length ≤ buf.length)
    (hk : k < src.length) : byteAt (splice buf lo src) (lo + k) = byteAt src k := by
  rw [byteAt_splice h, if_pos (by omega), Nat.add_sub_cancel_left]

theorem fillEntry_spec {disk : Disk} (hlen : minLength ≤ disk.length) {i : Nat}
    (hi : i < maxFiles) {name : String} (hname : (asBytes name).length ≤ 16) {contents : Bytes}
    (hsize : contents.length < 256 ^ 4) {a : Nat} {l : List Nat} (ha : a < 256 ^ 2) :
    Returns (fillEntry name contents (a :: l) i disk) fun disk' =>
      Filled disk disk' i name a contents.length := by
  have hoff := entryOffset_eq i
  unfold minLength at hlen
  unfold maxFiles at hi
  generalize hnb : asBytes name = nb at hname
  generalize hoff' : entryOffset i = off at hoff
  have hwindow : off + 32 ≤ disk.length := by omega
  -- The five writes in order, each inside the entry.
  have fit₁ : off + nb.length ≤ disk.length := by omega
  have same₁ := SameOutside.splice fit₁
  set disk₁ := splice disk off nb
  have len₁ := same₁.length_eq
  have fit₂ : off + 16 < disk₁.length := by omega
  have same₂ := SameOutside.set fit₂ (UInt8.ofNat nb.length)
  have val₂ := byteAt_set (UInt8.ofNat nb.length) fit₂
  set disk₂ := disk₁.set (off + 16) (UInt8.ofNat nb.length)
  have len₂ := same₂.length_eq
  have fit₃ : off + 17 < disk₂.length := by omega
  have same₃ := SameOutside.set fit₃ 1
  have val₃ := byteAt_set 1 fit₃
  set disk₃ := disk₂.set (off + 17) 1
  have len₃ := same₃.length_eq
  have fit₄ : off + 18 + (toLe 2 a).length ≤ disk₃.length := by rw [length_toLe]; omega
  have same₄ := SameOutside.splice fit₄
  have val₄ := fun k => byteAt_splice_add (k := k) fit₄
  set disk₄ := splice disk₃ (off + 18) (toLe 2 a)
  have len₄ := same₄.length_eq
  have fit₅ : off + 20 + (toLe 4 contents.length).length ≤ disk₄.length := by
    rw [length_toLe]; omega
  have same₅ := SameOutside.splice fit₅
  have val₅ := fun k => byteAt_splice_add (k := k) fit₅
  set disk₅ := splice disk₄ (off + 20) (toLe 4 contents.length)
  rw [length_toLe] at same₄ same₅ val₄ val₅ fit₄ fit₅
  have hrun : fillEntry name contents (a :: l) i disk = .ok disk₅ := by
    have run₁ : copyFromSlice disk off (off + nb.length) nb = .ok disk₁ :=
      copyFromSlice_eq_ok rfl fit₁
    have run₂ : store disk₁ (off + 16) (UInt8.ofNat nb.length) = .ok disk₂ :=
      store_eq_ok _ (by omega)
    have run₃ : store disk₂ (off + 17) 1 = .ok disk₃ := store_eq_ok _ (by omega)
    have hindex : index (a :: l) 0 = .ok a := rfl
    have run₄ : copyFromSlice disk₃ (off + 18) (off + 20) (toLe 2 a) = .ok disk₄ :=
      copyFromSlice_eq_ok (by rw [length_toLe]) (by omega)
    have run₅ : copyFromSlice disk₄ (off + 20) (off + 24) (toLe 4 contents.length) = .ok disk₅ :=
      copyFromSlice_eq_ok (by rw [length_toLe]) (by omega)
    simp only [fillEntry, hnb, hoff', run₁, run₂, run₃, hindex, run₄, run₅, ok_bind]
  have hlenByte : byteAt disk₅ (off + 16) = UInt8.ofNat nb.length := by
    rw [same₅.byte_eq _ (by omega), same₄.byte_eq _ (by omega), same₃.byte_eq _ (by omega), val₂,
      if_pos rfl]
  have hnameLen : (byteAt disk₅ (off + 16)).toNat = nb.length := by
    rw [hlenByte, UInt8.toNat_ofNat', Nat.mod_eq_of_lt (by omega)]
  refine ⟨disk₅, hrun, ?_, ?_, ?_, ?_, ?_, ?_⟩
  · rw [hoff']
    exact ((((same₁.mono le_rfl (by omega)).trans (same₂.mono (by omega) (by omega))).trans
      (same₃.mono (by omega) (by omega))).trans (same₄.mono (by omega) (by omega))).trans
      (same₅.mono (by omega) (by omega))
  · rw [flagAt, hoff', same₅.byte_eq _ (by omega), same₄.byte_eq _ (by omega), val₃, if_pos rfl]
  · rw [nameLenAt, hoff', hnameLen, hnb]
  · rw [nameAt, nameLenAt, hoff', hnameLen, hnb]
    have hkeep : window disk₅ off nb.length = window disk₁ off nb.length :=
      window_congr (by omega) (by have := same₅.length_eq; omega) fun p hp hp' => by
        rw [same₅.byte_eq p (by omega), same₄.byte_eq p (by omega), same₃.byte_eq p (by omega),
          same₂.byte_eq p (by omega)]
    exact hkeep.trans (window_splice_self fit₁)
  · rw [startAt, hoff', same₅.byte_eq _ (by omega), same₅.byte_eq _ (by omega)]
    rw [show off + 19 = off + 18 + 1 by omega, val₄ 1 (by omega)]
    have h0 := val₄ 0 (by omega)
    rw [Nat.add_zero] at h0
    rw [h0]
    exact fromLe_toLe_of_lt ha
  · rw [sizeAt, hoff', show off + 21 = off + 20 + 1 by omega, show off + 22 = off + 20 + 2 by omega,
      show off + 23 = off + 20 + 3 by omega, val₅ 1 (by omega), val₅ 2 (by omega),
      val₅ 3 (by omega)]
    have h0 := val₅ 0 (by omega)
    rw [Nat.add_zero] at h0
    rw [h0]
    exact fromLe_toLe_of_lt hsize

/-- The search for a free entry fills in the first one, if there is one. -/
theorem writeEntry_eq {disk : Disk} (hlen : minLength ≤ disk.length) (name : String)
    (contents : Bytes) (l : List Nat) (slots : List Nat) (hslots : ∀ i ∈ slots, i < maxFiles) :
    writeEntry name contents l disk slots =
      match slots.find? fun i => decide (flagAt disk i = 0) with
      | none => .ok (.error "directory full", disk)
      | some i => fillEntry name contents l i disk >>= fun disk' => .ok (.ok (), disk') := by
  induction slots with
  | nil => rfl
  | cons i rest ih =>
    have hflag : index disk (entryOffset i + 17) = .ok (flagAt disk i) :=
      index_entry hlen (hslots i List.mem_cons_self) _ (by omega)
    rw [writeEntry, hflag, ok_bind, List.find?_cons]
    by_cases hfree : flagAt disk i = 0
    · simp [hfree]
    · rw [if_neg hfree, decide_eq_false hfree]
      exact ih fun j hj => hslots j (List.mem_cons_of_mem _ hj)

/-! ### Deletion by name -/

/-- The disk after the file with a name, if there is one, has been deleted. -/
inductive Cleared (disk : Disk) (name : String) : Disk → Prop
  | absent : slotOf disk name = none → Cleared disk name disk
  | deleted {disk' : Disk} {i : Nat} {l : List Nat} :
      slotOf disk name = some i → Owns disk i l → Deleted disk disk' i l →
        Cleared disk name disk'

namespace Consistent

variable {disk : Disk}

/-- `delete_file` returns, and it succeeds exactly when the file exists. -/
theorem deleteFile_returns (h : Consistent disk) (name : String) :
    Returns (deleteFile disk name) fun out => Cleared disk name out.2 ∧
      out.1 = if slotOf disk name = none then .error "file not found" else .ok () := by
  cases hslot : slotOf disk name with
  | none =>
    rw [h.deleteFile_eq_error hslot]
    exact .ok ⟨.absent hslot, rfl⟩
  | some i =>
    obtain ⟨hi, hact, -⟩ := slotOf_some hslot
    obtain ⟨l, hl⟩ := h.owns i hi hact
    exact (h.deleteFile_spec hslot hl).mono fun out hout => ⟨.deleted hslot hl hout.2, hout.1⟩

end Consistent

namespace Cleared

variable {disk disk' : Disk} {name : String}

/-- Nothing happens when there is no such file. -/
theorem eq_of_absent (h : Cleared disk name disk') (hslot : slotOf disk name = none) :
    disk' = disk := by
  cases h with
  | absent _ => rfl
  | deleted hslot' _ _ => simp [hslot] at hslot'

theorem consistent (h : Cleared disk name disk') (hc : Consistent disk) : Consistent disk' := by
  cases h with
  | absent _ => exact hc
  | deleted hslot hl hdel =>
    obtain ⟨hi, hact, -⟩ := slotOf_some hslot
    exact hdel.consistent hc hi hact hl

theorem slotOf_eq_none (h : Cleared disk name disk') (hc : Consistent disk) :
    slotOf disk' name = none := by
  cases h with
  | absent hslot => exact hslot
  | deleted hslot hl hdel =>
    obtain ⟨hi, hact, hname⟩ := slotOf_some hslot
    exact hdel.slotOf_eq_none hc hi hact hl hname

theorem readFile_eq (h : Cleared disk name disk') (hc : Consistent disk) {other : String}
    (hne : other ≠ name) : readFile disk' other = readFile disk other := by
  cases h with
  | absent _ => rfl
  | deleted hslot hl hdel =>
    obtain ⟨hi, hact, hname⟩ := slotOf_some hslot
    refine hdel.readFile_eq hc hi hact hl fun heq => hne ?_
    exact (asBytes_inj.mp (hname.symm.trans heq)).symm

theorem length_eq (h : Cleared disk name disk') : disk'.length = disk.length := by
  cases h with
  | absent _ => rfl
  | deleted _ _ hdel => exact hdel.length_eq

end Cleared

/-! ### The outcomes of a write -/

/-- The clusters a write takes. -/
def newChain (disk : Disk) (contents : Bytes) : List Nat :=
  (freeClusters disk).take (clustersNeeded contents.length)

/-- Everything `write_file` can do, with the disk `disk₁` after the old file is deleted and
the disk `disk₂` once the contents are in place. -/
inductive WriteOutcome (disk : Disk) (name : String) (contents : Bytes) : Outcome → Prop
  | tooLong : 16 < (asBytes name).length →
      WriteOutcome disk name contents (.error "filename too long", disk)
  | emptyFile {disk₁ : Disk} : (asBytes name).length ≤ 16 → Cleared disk name disk₁ →
      contents.length = 0 → WriteOutcome disk name contents (.error "empty file", disk₁)
  | diskFull {disk₁ : Disk} : (asBytes name).length ≤ 16 → Cleared disk name disk₁ →
      0 < contents.length →
      (freeClusters disk₁).length < clustersNeeded contents.length →
      WriteOutcome disk name contents (.error "disk full", disk₁)
  | directoryFull {disk₁ disk₂ : Disk} : (asBytes name).length ≤ 16 →
      Cleared disk name disk₁ → 0 < contents.length →
      clustersNeeded contents.length ≤ (freeClusters disk₁).length →
      Stored disk₁ disk₂ (newChain disk₁ contents) contents →
      (∀ i < maxFiles, flagAt disk₁ i ≠ 0) →
      WriteOutcome disk name contents (.error "directory full", disk₂)
  | written {disk₁ disk₂ disk₃ : Disk} {i : Nat} : (asBytes name).length ≤ 16 →
      Cleared disk name disk₁ → 0 < contents.length →
      clustersNeeded contents.length ≤ (freeClusters disk₁).length →
      Stored disk₁ disk₂ (newChain disk₁ contents) contents →
      i < maxFiles → flagAt disk₁ i = 0 →
      Filled disk₂ disk₃ i name ((newChain disk₁ contents).headD fatEof) contents.length →
      WriteOutcome disk name contents (.ok (), disk₃)

theorem allocated_newChain (disk : Disk) (contents : Bytes) :
    Allocated disk (newChain disk contents) :=
  allocated_take disk _

theorem length_newChain {disk : Disk} {contents : Bytes}
    (h : clustersNeeded contents.length ≤ (freeClusters disk).length) :
    (newChain disk contents).length = clustersNeeded contents.length := by
  rw [newChain, List.length_take]
  omega

theorem clustersNeeded_eq_zero_iff {size : Nat} : clustersNeeded size = 0 ↔ size = 0 := by
  unfold clustersNeeded clusterSize
  omega

theorem clustersNeeded_pos {size : Nat} (h : 0 < size) : 0 < clustersNeeded size :=
  Nat.pos_of_ne_zero fun hz => h.ne' (clustersNeeded_eq_zero_iff.mp hz)

/-- A file that fits the table has a size that fits its directory entry. -/
theorem size_lt {disk : Disk} {size : Nat}
    (h : clustersNeeded size ≤ (freeClusters disk).length) : size < 256 ^ 4 := by
  have hle : (freeClusters disk).length ≤ maxClusters := by
    simpa [freeClusters] using
      List.length_filter_le (fun c => decide (Free disk c)) (List.range maxClusters)
  rw [maxClusters_eq] at hle
  unfold clustersNeeded clusterSize at h
  omega

/-- The last part of a write, from the linked clusters to the directory entry. -/
theorem writeEntry_cases {disk disk₁ disk₂ : Disk} {name : String} {contents : Bytes}
    (hname : (asBytes name).length ≤ 16) (hclear : Cleared disk name disk₁)
    (hlen : minLength ≤ disk₁.length) (hpos : 0 < contents.length)
    (henough : clustersNeeded contents.length ≤ (freeClusters disk₁).length)
    (hstored : Stored disk₁ disk₂ (newChain disk₁ contents) contents) :
    Returns (writeEntry name contents (newChain disk₁ contents) disk₂ (List.range maxFiles))
      (WriteOutcome disk name contents) := by
  have hlen₂ : minLength ≤ disk₂.length := hstored.length_eq ▸ hlen
  rw [writeEntry_eq hlen₂ name contents _ _ fun i hi => List.mem_range.mp hi]
  cases hfind : (List.range maxFiles).find? fun i => decide (flagAt disk₂ i = 0) with
  | none =>
    refine .ok (.directoryFull hname hclear hpos henough hstored fun i hi => ?_)
    have := List.find?_eq_none.mp hfind i (List.mem_range.mpr hi)
    rw [← (hstored.entry i hi).flagAt_eq]
    simpa using this
  | some i =>
    have hi := List.mem_range.mp (List.mem_of_find?_eq_some hfind)
    have hflag : flagAt disk₂ i = 0 := by simpa using List.find?_some hfind
    rw [(hstored.entry i hi).flagAt_eq] at hflag
    cases hchain : newChain disk₁ contents with
    | nil =>
      have hlength := length_newChain henough
      rw [hchain, List.length_nil] at hlength
      exact absurd (clustersNeeded_pos hpos) (by omega)
    | cons a l =>
      have ha : a < 256 ^ 2 := by
        have := (allocated_newChain disk₁ contents).lt a (by rw [hchain]; exact List.mem_cons_self)
        rw [maxClusters_eq] at this
        omega
      refine (fillEntry_spec hlen₂ hi hname (size_lt henough) ha).bind fun disk₃ hfilled => ?_
      refine .ok (.written hname hclear hpos henough hstored hi hflag ?_)
      rw [hchain]
      exact hfilled

namespace Consistent

variable {disk : Disk} {name : String} {contents : Bytes}

/-- The start of a write: the checks and the deletion of the old file. -/
theorem writeFile_eq (h : Consistent disk) (contents : Bytes) (hname : (asBytes name).length ≤ 16)
    {out : Outcome} (hdel : deleteFile disk name = .ok out) (hlen : minLength ≤ out.2.length) :
    writeFile disk name contents =
      if contents.length = 0 then .ok (.error "empty file", out.2)
      else if (freeClusters out.2).length < clustersNeeded contents.length then
        .ok (.error "disk full", out.2)
      else
        writeChain (newChain out.2 contents) out.2 >>= fun disk₁ =>
          writeData contents (newChain out.2 contents) disk₁ >>= fun stored =>
            writeEntry name contents (newChain out.2 contents) stored.1
              (List.range maxFiles) := by
  simp only [writeFile, slice_magic h.length_le, ok_bind, h.magic_eq, hdel, ne_eq,
    not_true_eq_false, ↓reduceIte, clustersNeeded_eq_zero_iff, show ¬ 16 < (asBytes name).length by
      omega]
  by_cases hzero : contents.length = 0
  · simp [hzero]
  · have hneeded := clustersNeeded_pos (Nat.pos_of_ne_zero hzero)
    rw [if_neg hzero, if_neg hzero, allocate_eq hlen hneeded, ok_bind]
    have hcount : ((freeClusters out.2).take (clustersNeeded contents.length)).length <
        clustersNeeded contents.length ↔
          (freeClusters out.2).length < clustersNeeded contents.length := by
      rw [List.length_take]
      omega
    simp only [hcount, newChain]
    rfl

/-- Every write that returns has one of the listed outcomes. -/
theorem writeFile_cases (h : Consistent disk) {out : Outcome}
    (hw : writeFile disk name contents = .ok out) : WriteOutcome disk name contents out := by
  by_cases hname : 16 < (asBytes name).length
  · simp only [writeFile, slice_magic h.length_le, ok_bind, h.magic_eq, ne_eq, not_true_eq_false,
      ↓reduceIte, gt_iff_lt, hname, pure_eq_ok, Except.ok.injEq] at hw
    exact hw ▸ .tooLong hname
  · have hname := Nat.le_of_not_lt hname
    obtain ⟨⟨r, disk₁⟩, hdel, hclear, -⟩ := h.deleteFile_returns name
    have hlen := (hclear.consistent h).length_le
    rw [h.writeFile_eq contents hname hdel hlen] at hw
    split_ifs at hw with hzero hfull
    · exact Except.ok.inj hw ▸ .emptyFile hname hclear hzero
    · exact Except.ok.inj hw ▸ .diskFull hname hclear (Nat.pos_of_ne_zero hzero) hfull
    · obtain ⟨disk₂, hchain, hw⟩ := bind_eq_ok_iff.mp hw
      obtain ⟨⟨disk₃, total⟩, hdata, hw⟩ := bind_eq_ok_iff.mp hw
      have henough := Nat.le_of_not_lt hfull
      have hstored := stored_of_write hlen (allocated_newChain disk₁ contents)
        (length_newChain henough) hchain hdata
      exact (writeEntry_cases hname hclear hlen (Nat.pos_of_ne_zero hzero) henough hstored).elim hw

/-- A write returns when the clusters it takes lie inside the buffer. -/
theorem writeFile_returns_of_fits (h : Consistent disk) (name : String) (contents : Bytes)
    (hfits : ∀ out, (asBytes name).length ≤ 16 → deleteFile disk name = .ok out →
      Cleared disk name out.2 → clustersNeeded contents.length ≤ (freeClusters out.2).length →
        Fits disk.length (newChain out.2 contents) contents.length) :
    Returns (writeFile disk name contents) (WriteOutcome disk name contents) := by
  suffices hret : ∃ out, writeFile disk name contents = .ok out by
    obtain ⟨out, hout⟩ := hret
    exact ⟨out, hout, h.writeFile_cases hout⟩
  by_cases hname : 16 < (asBytes name).length
  · simp [writeFile, slice_magic h.length_le, h.magic_eq, hname]
  · have hname := Nat.le_of_not_lt hname
    obtain ⟨⟨r, disk₁⟩, hdel, hclear, -⟩ := h.deleteFile_returns name
    have hlen := (hclear.consistent h).length_le
    rw [h.writeFile_eq contents hname hdel hlen]
    split_ifs with hzero hfull
    · exact ⟨_, rfl⟩
    · exact ⟨_, rfl⟩
    · have henough := Nat.le_of_not_lt hfull
      have halloc := allocated_newChain disk₁ contents
      obtain ⟨disk₂, hchain, hsame, -⟩ := writeChain_spec hlen halloc.lt halloc.nodup
      have hfits₂ : Fits disk₂.length (newChain disk₁ contents) (contents.length - 0) := by
        rw [hsame.length_eq, hclear.length_eq]
        exact hfits (r, disk₁) hname hdel hclear henough
      obtain ⟨⟨disk₃, total⟩, hdata, -⟩ :=
        foldlM_writeBlock halloc.nodup (Nat.zero_le contents.length) hfits₂
      have hstored := stored_of_write hlen halloc (length_newChain henough) hchain hdata
      obtain ⟨out, hout, -⟩ :=
        writeEntry_cases hname hclear hlen (Nat.pos_of_ne_zero hzero) henough hstored
      have hdata' : writeData contents (newChain disk₁ contents) disk₂ = .ok (disk₃, total) := hdata
      exact ⟨out, by rw [hchain, ok_bind, hdata', ok_bind, hout]⟩

/-- On a buffer with room for every cluster a write returns. -/
theorem writeFile_returns (h : Consistent disk)
    (hroom : dataOffset maxClusters ≤ disk.length) (name : String) (contents : Bytes) :
    Returns (writeFile disk name contents) (WriteOutcome disk name contents) := by
  refine h.writeFile_returns_of_fits name contents fun out _ _ _ henough => ?_
  refine fits_of_data (length_newChain henough) fun c hc => ?_
  have hlt := (allocated_newChain out.2 contents).lt c hc
  rw [dataOffset_eq] at hroom ⊢
  unfold clusterSize
  omega

end Consistent

/-! ### A written file -/

section Written

variable {disk₁ disk₂ disk₃ : Disk} {l : List Nat} {contents : Bytes} {i : Nat} {name : String}

theorem Filled.fatEntry_eq {start size c : Nat} (h : Filled disk₂ disk₃ i name start size)
    (hc : c < maxClusters) : fatEntry disk₃ c = fatEntry disk₂ c := by
  have hoff := entryOffset_eq i
  have hoffc := fatOffset_eq c
  rw [maxClusters_eq] at hc
  exact h.same.fatEntry_eq (by omega)

theorem Filled.byteAt_eq {start size p : Nat} (h : Filled disk₂ disk₃ i name start size)
    (hi : i < maxFiles) (hp : p < 2048 ∨ 4096 ≤ p) : byteAt disk₃ p = byteAt disk₂ p := by
  have hoff := entryOffset_eq i
  unfold maxFiles at hi
  exact h.same.byte_eq p (by omega)

/-- Writing a file keeps every file in another entry. -/
theorem Filled.keeps {start size : Nat} (hfilled : Filled disk₂ disk₃ i name start size)
    (hi : i < maxFiles) (hstored : Stored disk₁ disk₂ l contents)
    (halloc : Allocated disk₁ l) : Keeps disk₁ disk₃ (· ≠ i) where
  length_eq := hfilled.same.length_eq.trans hstored.length_eq
  magic_eq p hp := (hfilled.byteAt_eq hi (by omega)).trans (hstored.low p (by omega))
  entry j hj hji := by
    have hoff := entryOffset_eq i
    have hoffj := entryOffset_eq j
    exact (hstored.entry j hj).trans (hfilled.same.sameEntry (by omega))
  fat j hj _ hact m hm c hc :=
    (hfilled.fatEntry_eq (hm.lt c hc)).trans
      ((hstored.keeps halloc).fat j hj trivial hact m hm c hc)
  data j hj _ hact m hm c hc p hp hp' :=
    (hfilled.byteAt_eq hi (by have := dataOffset_eq c; omega)).trans
      ((hstored.keeps halloc).data j hj trivial hact m hm c hc p hp hp')

/-- The written entry owns the new chain. -/
theorem Filled.owns (hfilled : Filled disk₂ disk₃ i name (l.headD fatEof) contents.length)
    (hstored : Stored disk₁ disk₂ l contents) (halloc : Allocated disk₁ l) : Owns disk₃ i l where
  chain := by
    rw [hfilled.start]
    exact (hstored.chain halloc).congr fun c hc => hfilled.fatEntry_eq (halloc.lt c hc)
  lt := halloc.lt
  zero_notMem := halloc.zero_notMem
  fits := by
    rw [hfilled.size, hfilled.same.length_eq, hstored.length_eq]
    exact hstored.fits

/-- The written file holds the contents. -/
theorem Filled.gather_eq (hfilled : Filled disk₂ disk₃ i name (l.headD fatEof) contents.length)
    (hi : i < maxFiles) (hstored : Stored disk₁ disk₂ l contents) :
    gather disk₃ l (sizeAt disk₃ i) = contents := by
  have hfits : Fits disk₂.length l contents.length := by
    rw [hstored.length_eq]
    exact hstored.fits
  rw [hfilled.size, gather_congr hfilled.same.length_eq hfits fun c _ p hp _ =>
    hfilled.byteAt_eq hi (by have := dataOffset_eq c; omega)]
  exact hstored.gather_eq

theorem Filled.consistent (hfilled : Filled disk₂ disk₃ i name (l.headD fatEof) contents.length)
    (hi : i < maxFiles) (hname : (asBytes name).length ≤ 16)
    (hstored : Stored disk₁ disk₂ l contents) (halloc : Allocated disk₁ l)
    (hc : Consistent disk₁) (hslot : slotOf disk₁ name = none) : Consistent disk₃ := by
  refine (hfilled.keeps hi hstored halloc).consistent hc ?_ ?_ ?_
  · intro j _ hji
    rw [not_not.mp hji]
    exact Or.inr hfilled.flag
  · intro j _ k _ hji hki
    rw [not_not.mp hji, not_not.mp hki]
  · intro j _ hji _
    obtain rfl := not_not.mp hji
    refine ⟨hfilled.nameLen ▸ hname, ⟨name, hfilled.name.symm⟩, fun k hk _ hact => ?_,
      l, hfilled.owns hstored halloc, fun k _ _ _ m hm c hcm hcl => ?_⟩
    · rw [hfilled.name]
      exact slotOf_eq_none_iff.mp hslot k hk hact
    · exact hm.not_free hcm (halloc.free c hcl)

end Written

theorem WriteOutcome.length_eq {disk : Disk} {name : String} {contents : Bytes} {out : Outcome}
    (h : WriteOutcome disk name contents out) : out.2.length = disk.length := by
  cases h with
  | tooLong _ => rfl
  | emptyFile _ hclear _ => exact hclear.length_eq
  | diskFull _ hclear _ _ => exact hclear.length_eq
  | directoryFull _ hclear _ _ hstored _ => exact hstored.length_eq.trans hclear.length_eq
  | written _ hclear _ _ hstored _ _ hfilled =>
    exact hfilled.same.length_eq.trans (hstored.length_eq.trans hclear.length_eq)

/-- A consistent disk stays consistent, whatever the outcome of a write. -/
theorem WriteOutcome.consistent {disk : Disk} {name : String} {contents : Bytes} {out : Outcome}
    (h : WriteOutcome disk name contents out) (hc : Consistent disk) : Consistent out.2 := by
  cases h with
  | tooLong _ => exact hc
  | emptyFile _ hclear _ => exact hclear.consistent hc
  | diskFull _ hclear _ _ => exact hclear.consistent hc
  | directoryFull _ hclear _ _ hstored _ =>
    exact hstored.consistent (hclear.consistent hc) (allocated_newChain _ _)
  | written hname hclear _ _ hstored hi _ hfilled =>
    exact hfilled.consistent hi hname hstored (allocated_newChain _ _) (hclear.consistent hc)
      (hclear.slotOf_eq_none hc)

end MerlionKernel.Fat
