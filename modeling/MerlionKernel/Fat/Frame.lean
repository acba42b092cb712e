import MerlionKernel.Fat.Invariant

/-!
# Changes that keep files

Every call changes the entry of at most one file and otherwise only clusters that no
other file uses. `Keeps` records what such a change leaves alone. The files that are kept
read as before, and the disk stays consistent provided a new file brings a fresh name and
a chain of its own.
-/

namespace MerlionKernel.Fat

open Rust Theory

/-- The change from `disk` to `disk'` leaves alone the entries that satisfy `kept`, with
the table entries and the clusters of their files. -/
structure Keeps (disk disk' : Disk) (kept : Nat → Prop) : Prop where
  length_eq : disk'.length = disk.length
  magic_eq : ∀ p < 4, byteAt disk' p = byteAt disk p
  entry : ∀ j < maxFiles, kept j → SameEntry disk disk' j
  fat : ∀ j < maxFiles, kept j → Active disk j → ∀ l, Owns disk j l →
    ∀ c ∈ l, fatEntry disk' c = fatEntry disk c
  data : ∀ j < maxFiles, kept j → Active disk j → ∀ l, Owns disk j l → SameData disk disk' l

/-- An entry that was not kept holds a file of its own, with a name that no kept file has
and a chain that no kept file uses. -/
structure NewFile (disk disk' : Disk) (kept : Nat → Prop) (i : Nat) : Prop where
  name_le : nameLenAt disk' i ≤ 16
  name_text : ∃ s, asBytes s = nameAt disk' i
  name_ne : ∀ j < maxFiles, kept j → Active disk j → nameAt disk j ≠ nameAt disk' i
  owns : ∃ l, Owns disk' i l ∧
    ∀ j < maxFiles, kept j → Active disk j → ∀ m, Owns disk j m → ∀ c ∈ m, c ∉ l

namespace Keeps

variable {disk disk' disk'' : Disk} {kept : Nat → Prop} {j : Nat}

theorem active_iff (h : Keeps disk disk' kept) (hj : j < maxFiles) (hk : kept j) :
    Active disk' j ↔ Active disk j :=
  (h.entry j hj hk).active_iff

theorem nameAt_eq (h : Keeps disk disk' kept) (hc : Consistent disk) (hj : j < maxFiles)
    (hk : kept j) (hact : Active disk j) : nameAt disk' j = nameAt disk j :=
  (h.entry j hj hk).nameAt_eq hc.length_le hj (hc.name_le j hj hact)

theorem owns (h : Keeps disk disk' kept) (hj : j < maxFiles) (hk : kept j)
    (hact : Active disk j) {l : List Nat} (hl : Owns disk j l) : Owns disk' j l :=
  hl.of_same (h.entry j hj hk) (h.fat j hj hk hact l hl)

/-- The files kept by a change own after it what they owned before. -/
theorem owns_back (h : Keeps disk disk' kept) (hc : Consistent disk) (hj : j < maxFiles)
    (hk : kept j) (hact : Active disk' j) {l : List Nat} (hl : Owns disk' j l) :
    Active disk j ∧ Owns disk j l := by
  have hact' := (h.active_iff hj hk).mp hact
  obtain ⟨m, hm⟩ := hc.owns j hj hact'
  rw [hl.unique (h.owns hj hk hact' hm)]
  exact ⟨hact', hm⟩

theorem gather_eq (h : Keeps disk disk' kept) (hj : j < maxFiles) (hk : kept j)
    (hact : Active disk j) {l : List Nat} (hl : Owns disk j l) :
    gather disk' l (sizeAt disk' j) = gather disk l (sizeAt disk j) := by
  rw [(h.entry j hj hk).sizeAt_eq]
  exact gather_congr h.length_eq hl.fits (h.data j hj hk hact l hl)

theorem magic_window (h : Keeps disk disk' kept) (hlen : minLength ≤ disk.length) :
    window disk' 0 4 = window disk 0 4 := by
  have hlen' := h.length_eq
  unfold minLength at hlen
  exact window_congr (by omega) (by omega) fun p _ hp => h.magic_eq p (by omega)

/-- A change keeps the disk consistent when at most one entry in use afterwards was not
kept, and that entry holds a file of its own. -/
theorem consistent (h : Keeps disk disk' kept) (hc : Consistent disk)
    (hflag : ∀ i < maxFiles, ¬ kept i → flagAt disk' i = 0 ∨ flagAt disk' i = 1)
    (hone : ∀ i < maxFiles, ∀ j < maxFiles, ¬ kept i → ¬ kept j → i = j)
    (hnew : ∀ i < maxFiles, ¬ kept i → Active disk' i → NewFile disk disk' kept i) :
    Consistent disk' where
  length_le := h.length_eq ▸ hc.length_le
  magic_eq := (h.magic_window hc.length_le).trans hc.magic_eq
  flag i hi := by
    by_cases hk : kept i
    · rw [(h.entry i hi hk).flagAt_eq]
      exact hc.flag i hi
    · exact hflag i hi hk
  name_le i hi hact := by
    by_cases hk : kept i
    · rw [(h.entry i hi hk).nameLenAt_eq]
      exact hc.name_le i hi ((h.active_iff hi hk).mp hact)
    · exact (hnew i hi hk hact).name_le
  name_text i hi hact := by
    by_cases hk : kept i
    · have hact' := (h.active_iff hi hk).mp hact
      rw [h.nameAt_eq hc hi hk hact']
      exact hc.name_text i hi hact'
    · exact (hnew i hi hk hact).name_text
  name_inj i hi j hj hacti hactj hname := by
    by_cases hki : kept i
    · have hacti' := (h.active_iff hi hki).mp hacti
      rw [h.nameAt_eq hc hi hki hacti'] at hname
      by_cases hkj : kept j
      · have hactj' := (h.active_iff hj hkj).mp hactj
        rw [h.nameAt_eq hc hj hkj hactj'] at hname
        exact hc.name_inj i hi j hj hacti' hactj' hname
      · exact absurd hname ((hnew j hj hkj hactj).name_ne i hi hki hacti')
    · by_cases hkj : kept j
      · have hactj' := (h.active_iff hj hkj).mp hactj
        rw [h.nameAt_eq hc hj hkj hactj'] at hname
        exact absurd hname.symm ((hnew i hi hki hacti).name_ne j hj hkj hactj')
      · exact hone i hi j hj hki hkj
  owns i hi hact := by
    by_cases hk : kept i
    · have hact' := (h.active_iff hi hk).mp hact
      obtain ⟨l, hl⟩ := hc.owns i hi hact'
      exact ⟨l, h.owns hi hk hact' hl⟩
    · obtain ⟨l, hl, -⟩ := (hnew i hi hk hact).owns
      exact ⟨l, hl⟩
  disjoint i hi j hj hacti hactj hij l l' hl hl' c hcl hcl' := by
    -- The chain of a kept entry is the one it had before.
    by_cases hki : kept i
    · obtain ⟨hacti', hold⟩ := h.owns_back hc hi hki hacti hl
      by_cases hkj : kept j
      · obtain ⟨hactj', hold'⟩ := h.owns_back hc hj hkj hactj hl'
        exact hc.disjoint i hi j hj hacti' hactj' hij l l' hold hold' c hcl hcl'
      · obtain ⟨m, hm, hfresh⟩ := (hnew j hj hkj hactj).owns
        rw [hl'.unique hm] at hcl'
        exact hfresh i hi hki hacti' l hold c hcl hcl'
    · by_cases hkj : kept j
      · obtain ⟨hactj', hold'⟩ := h.owns_back hc hj hkj hactj hl'
        obtain ⟨m, hm, hfresh⟩ := (hnew i hi hki hacti).owns
        rw [hl.unique hm] at hcl
        exact hfresh j hj hkj hactj' l' hold' c hcl' hcl
      · exact hij (hone i hi j hj hki hkj)

/-- A name that only kept entries carry reads as before. -/
theorem readFile_eq (h : Keeps disk disk' kept) (hc : Consistent disk) (hc' : Consistent disk')
    {name : String}
    (hold : ∀ i < maxFiles, ¬ kept i → Active disk i → nameAt disk i ≠ asBytes name)
    (hnew : ∀ i < maxFiles, ¬ kept i → Active disk' i → nameAt disk' i ≠ asBytes name) :
    readFile disk' name = readFile disk name := by
  cases hslot : slotOf disk name with
  | none =>
    have hslot' : slotOf disk' name = none := by
      rw [slotOf_eq_none_iff] at hslot ⊢
      intro j hj hact'
      by_cases hk : kept j
      · have hact := (h.active_iff hj hk).mp hact'
        rw [h.nameAt_eq hc hj hk hact]
        exact hslot j hj hact
      · exact hnew j hj hk hact'
    rw [hc.readFile_eq_none hslot, hc'.readFile_eq_none hslot']
  | some j =>
    obtain ⟨hj, hact, hname⟩ := slotOf_some hslot
    have hk : kept j := by
      by_contra hk
      exact hold j hj hk hact hname
    obtain ⟨l, hl⟩ := hc.owns j hj hact
    have hslot' : slotOf disk' name = some j :=
      hc'.slotOf_eq_some hj ((h.active_iff hj hk).mpr hact)
        (by rw [h.nameAt_eq hc hj hk hact, hname])
    rw [hc.readFile_eq_some hslot hl, hc'.readFile_eq_some hslot' (h.owns hj hk hact hl),
      h.gather_eq hj hk hact hl]

end Keeps

end MerlionKernel.Fat
