import MerlionKernel.Fat.View

/-!
# Consistent disks

A disk is consistent when every active directory entry owns a cluster chain that covers
its file, no two active entries share a cluster and no two carry the same name. The
chain may start at cluster 0, whose number is also the mark of a free table entry, but
never passes through it later.

On a consistent disk `read_file` finds the one entry with the name and gathers the
contents of its chain.
-/

namespace MerlionKernel.Fat

open Rust Theory

/-! ### Files in clusters -/

/-- The first `size` bytes of the clusters of a list, in order. -/
def gather (disk : Disk) : List Nat → Nat → Bytes
  | [], _ => []
  | c :: l, size =>
    window disk (dataOffset c) (min size clusterSize) ++
      gather disk l (size - min size clusterSize)

/-- The clusters of a list are just enough for `size` bytes, and the bytes lie inside a
buffer of length `len`. -/
def Fits (len : Nat) : List Nat → Nat → Prop
  | [], size => size = 0
  | c :: l, size =>
    0 < size ∧ dataOffset c + min size clusterSize ≤ len ∧
      Fits len l (size - min size clusterSize)

/-- Two disks hold the same bytes in the clusters of a list. -/
def SameData (disk disk' : Disk) (l : List Nat) : Prop :=
  ∀ c ∈ l, ∀ j, dataOffset c ≤ j → j < dataOffset c + clusterSize →
    byteAt disk' j = byteAt disk j

theorem gather_congr {disk disk' : Disk} (hlen : disk'.length = disk.length) {l : List Nat}
    {size : Nat} (hfits : Fits disk.length l size) (hdata : SameData disk disk' l) :
    gather disk' l size = gather disk l size := by
  induction l generalizing size with
  | nil => rfl
  | cons c l ih =>
    obtain ⟨-, hin, hrest⟩ := hfits
    have hseg : window disk' (dataOffset c) (min size clusterSize) =
        window disk (dataOffset c) (min size clusterSize) :=
      window_congr hin (hlen ▸ hin) fun j hj hj' =>
        hdata c List.mem_cons_self j hj (by omega)
    rw [gather, gather, hseg, ih hrest fun d hd => hdata d (List.mem_cons_of_mem _ hd)]

/-- Following a chain that covers a file reads the file. -/
theorem loop_readRound {disk : Disk} (hlen : minLength ≤ disk.length) {l : List Nat}
    {cluster size : Nat} (hchain : IsChain (fatEntry disk) fatEof cluster l)
    (hlt : ∀ c ∈ l, c < maxClusters) (hfits : Fits disk.length l size) (acc : Bytes)
    {fuel : Nat} (hfuel : size < fuel) :
    loop (readRound disk) fuel ⟨cluster, size, acc⟩ = .ok (acc ++ gather disk l size) := by
  induction l generalizing cluster size acc fuel with
  | nil =>
    cases hchain
    obtain ⟨fuel, rfl⟩ := Nat.exists_eq_add_of_lt hfuel
    rw [loop_stop (b := acc) (by simp [readRound])]
    simp [gather]
  | cons c l ih =>
    cases hchain with
    | cons hne htail =>
      obtain ⟨hpos, hin, hrest⟩ := hfits
      obtain ⟨fuel, rfl⟩ : ∃ f, fuel = f + 1 := ⟨fuel - 1, by omega⟩
      have hround : readRound disk ⟨c, size, acc⟩ = .ok (.again
          ⟨fatEntry disk c, size - min size clusterSize,
            acc ++ window disk (dataOffset c) (min size clusterSize)⟩) := by
        simp only [readRound]
        rw [if_pos ⟨hne, hpos⟩, if_pos hin, slice_window (by omega) hin, ok_bind,
          readFat_eq hlen (hlt c List.mem_cons_self), Nat.add_sub_cancel_left]
        rfl
      have hsmaller : size - min size clusterSize < fuel := by unfold clusterSize; omega
      rw [loop_again hround, ih htail (fun d hd => hlt d (List.mem_cons_of_mem _ hd)) hrest _
        hsmaller, gather, List.append_assoc]

/-! ### Ownership of chains -/

/-- The chain of directory entry `i` visits the clusters of `l` and covers the file. -/
structure Owns (disk : Disk) (i : Nat) (l : List Nat) : Prop where
  chain : IsChain (fatEntry disk) fatEof (startAt disk i) l
  lt : ∀ c ∈ l, c < maxClusters
  zero_notMem : 0 ∉ l.tail
  fits : Fits disk.length l (sizeAt disk i)

namespace Owns

variable {disk disk' : Disk} {i : Nat} {l l' : List Nat}

theorem unique (h : Owns disk i l) (h' : Owns disk i l') : l = l' :=
  h.chain.unique h'.chain

/-- A cluster of a chain is not free. -/
theorem not_free (h : Owns disk i l) {c : Nat} (hc : c ∈ l) : ¬ Free disk c := by
  intro hfree
  rcases h.chain.next_mem hc with hnext | hnext
  · rw [hfree] at hnext
    exact absurd hnext (by decide)
  · rw [hfree] at hnext
    exact h.zero_notMem hnext

/-- An entry keeps its file when its entry, its part of the table and its clusters are
left alone. -/
theorem of_same (h : Owns disk i l) (hentry : SameEntry disk disk' i)
    (hfat : ∀ c ∈ l, fatEntry disk' c = fatEntry disk c) : Owns disk' i l where
  chain := by
    rw [hentry.startAt_eq]
    exact h.chain.congr hfat
  lt := h.lt
  zero_notMem := h.zero_notMem
  fits := by
    rw [hentry.sizeAt_eq, hentry.1]
    exact h.fits

end Owns

/-! ### The invariant -/

/-- The invariant of the filesystem. -/
structure Consistent (disk : Disk) : Prop where
  length_le : minLength ≤ disk.length
  magic_eq : window disk 0 4 = magic
  flag : ∀ i < maxFiles, flagAt disk i = 0 ∨ flagAt disk i = 1
  name_le : ∀ i < maxFiles, Active disk i → nameLenAt disk i ≤ 16
  name_text : ∀ i < maxFiles, Active disk i → ∃ s, asBytes s = nameAt disk i
  name_inj : ∀ i < maxFiles, ∀ j < maxFiles, Active disk i → Active disk j →
    nameAt disk i = nameAt disk j → i = j
  owns : ∀ i < maxFiles, Active disk i → ∃ l, Owns disk i l
  disjoint : ∀ i < maxFiles, ∀ j < maxFiles, Active disk i → Active disk j → i ≠ j →
    ∀ l l', Owns disk i l → Owns disk j l' → ∀ c ∈ l, c ∉ l'

/-- The first active entry with the name. -/
def slotOf (disk : Disk) (name : String) : Option Nat :=
  (List.range maxFiles).find? fun i => decide (Active disk i ∧ nameAt disk i = asBytes name)

theorem slotOf_eq_none_iff {disk : Disk} {name : String} :
    slotOf disk name = none ↔ ∀ i < maxFiles, Active disk i → nameAt disk i ≠ asBytes name := by
  simp [slotOf]

theorem slotOf_some {disk : Disk} {name : String} {i : Nat} (h : slotOf disk name = some i) :
    i < maxFiles ∧ Active disk i ∧ nameAt disk i = asBytes name := by
  have hmem := List.mem_range.mp (List.mem_of_find?_eq_some h)
  have hprop := List.find?_some h
  simp only [decide_eq_true_eq] at hprop
  exact ⟨hmem, hprop⟩

namespace Consistent

variable {disk : Disk}

theorem entryName_eq_iff (h : Consistent disk) {i : Nat} (hi : i < maxFiles)
    (hact : Active disk i) (name : String) :
    entryName disk i = name ↔ nameAt disk i = asBytes name := by
  obtain ⟨s, hs⟩ := h.name_text i hi hact
  rw [entryName, ← hs, fromUtf8_asBytes, Option.getD_some, asBytes_inj]

theorem findEntry_eq (h : Consistent disk) (name : String) :
    findEntry disk name (List.range maxFiles) = .ok (slotOf disk name) := by
  refine Fat.findEntry_eq name _ fun i hi => ?_
  have hi := List.mem_range.mp hi
  rw [entryMatches_eq h.length_le name hi]
  congr 1
  rw [decide_eq_decide]
  exact and_congr_right fun hact => h.entryName_eq_iff hi hact name

theorem slotOf_eq_some (h : Consistent disk) {i : Nat} (hi : i < maxFiles)
    (hact : Active disk i) {name : String} (hname : nameAt disk i = asBytes name) :
    slotOf disk name = some i := by
  cases hslot : slotOf disk name with
  | none => exact absurd hname (slotOf_eq_none_iff.mp hslot i hi hact)
  | some j =>
    obtain ⟨hj, hactj, hnamej⟩ := slotOf_some hslot
    rw [h.name_inj i hi j hj hact hactj (hname.trans hnamej.symm)]

theorem readFile_eq_none (h : Consistent disk) {name : String} (hslot : slotOf disk name = none) :
    readFile disk name = .ok none := by
  simp only [readFile, slice_magic h.length_le, ok_bind, h.magic_eq, h.findEntry_eq, hslot]
  rfl

/-- Reading a file that an entry owns gathers the clusters of its chain. -/
theorem readFile_eq_some (h : Consistent disk) {name : String} {i : Nat}
    (hslot : slotOf disk name = some i) {l : List Nat} (howns : Owns disk i l) :
    readFile disk name = .ok (some (gather disk l (sizeAt disk i))) := by
  obtain ⟨hi, -, -⟩ := slotOf_some hslot
  have hentry := index_entry h.length_le hi
  simp only [readFile, slice_magic h.length_le, ok_bind, h.magic_eq, h.findEntry_eq, hslot,
    hentry 18 (by omega), hentry 19 (by omega), hentry 20 (by omega), hentry 21 (by omega),
    hentry 22 (by omega), hentry 23 (by omega)]
  have hloop := loop_readRound h.length_le howns.chain howns.lt howns.fits []
    (Nat.lt_succ_self (sizeAt disk i))
  unfold startAt sizeAt at hloop
  simp only [ne_eq, not_true_eq_false, ↓reduceIte, Nat.succ_eq_add_one] at hloop ⊢
  rw [hloop]
  rfl

end Consistent

end MerlionKernel.Fat
