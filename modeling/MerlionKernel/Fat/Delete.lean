import Mathlib.Data.List.Perm.Subperm
import MerlionKernel.Fat.Frame

/-!
# Deleting a file

The loop of `delete_file` walks the chain of the entry and frees its clusters, but it
stops at once when the chain starts at cluster 0, since the number 0 also marks a free
table entry. In both cases the entry is cleared and every other file is left as it was,
so a consistent disk stays consistent; in the second case the clusters of the chain stay
taken although no entry owns them any more.
-/

namespace MerlionKernel.Fat

open Rust Theory

/-- The loop frees the clusters of a chain that avoids cluster 0. -/
theorem loop_freeRound {disk : Disk} (hlen : minLength ≤ disk.length) {l : List Nat}
    {start : Nat} (hchain : IsChain (fatEntry disk) fatEof start l)
    (hlt : ∀ c ∈ l, c < maxClusters) (hzero : 0 ∉ l) {fuel : Nat} (hfuel : l.length < fuel) :
    Returns (loop freeRound fuel (disk, start)) fun disk' =>
      SameOutside disk disk' 512 2048 ∧
        ∀ c, fatEntry disk' c = if c ∈ l then fatFree else fatEntry disk c := by
  induction l generalizing disk start fuel with
  | nil =>
    cases hchain
    obtain ⟨fuel, rfl⟩ := Nat.exists_eq_add_of_lt hfuel
    rw [loop_stop (b := disk) (by simp [freeRound])]
    exact .ok ⟨.refl .., by simp⟩
  | cons c l ih =>
    have hnodup := hchain.nodup
    cases hchain with
    | cons hne htail =>
      obtain ⟨fuel, rfl⟩ : ∃ f, fuel = f + 1 := ⟨fuel - 1, by omega⟩
      have hc := hlt c List.mem_cons_self
      have hcl : c ∉ l := (List.nodup_cons.mp hnodup).1
      have hc0 : c ≠ fatFree := fun h => hzero (h ▸ List.mem_cons_self)
      obtain ⟨disk₁, hwrite, hsame, hfat⟩ := writeFat_spec hlen hc (v := fatFree) (by decide)
      have hround : freeRound (disk, c) = .ok (.again (disk₁, fatEntry disk c)) := by
        simp only [freeRound]
        rw [if_pos ⟨hne, hc0⟩, readFat_eq hlen hc, ok_bind, hwrite]
        rfl
      -- Freeing `c` does not touch the rest of the chain, which visits `c` no more.
      have htail₁ : IsChain (fatEntry disk₁) fatEof (fatEntry disk c) l :=
        htail.congr fun d hd => by rw [hfat, if_neg (ne_of_mem_of_not_mem hd hcl)]
      rw [loop_again hround]
      refine (ih (hsame.length_eq ▸ hlen) htail₁ (fun d hd => hlt d (List.mem_cons_of_mem _ hd))
        (fun h => hzero (List.mem_cons_of_mem _ h)) (by simpa using hfuel)).mono ?_
      rintro disk' ⟨hsame', hfat'⟩
      refine ⟨hsame.trans hsame', fun d => ?_⟩
      rw [hfat', hfat]
      by_cases hd : d ∈ l
      · simp [hd]
      · by_cases hdc : d = c
        · simp [hdc]
        · simp [hd, hdc]

/-- The change that deleting the file of entry `i` with chain `l` makes. -/
structure Deleted (disk disk' : Disk) (i : Nat) (l : List Nat) : Prop where
  length_eq : disk'.length = disk.length
  flag : flagAt disk' i = 0
  entry : ∀ j < maxFiles, j ≠ i → SameEntry disk disk' j
  byte_eq : ∀ p, p < 512 ∨ 4096 ≤ p → byteAt disk' p = byteAt disk p
  fat : ∀ c < maxClusters, fatEntry disk' c =
    if c ∈ l ∧ startAt disk i ≠ fatFree then fatFree else fatEntry disk c

/-- Clearing the flag of an entry, after a change of the table that frees its chain or
does nothing. -/
theorem deleted_of_clear {disk disk₁ : Disk} (hlen : minLength ≤ disk.length) {i : Nat}
    (hi : i < maxFiles) {l : List Nat} (hsame : SameOutside disk disk₁ 512 2048)
    (hfat : ∀ c, fatEntry disk₁ c =
      if c ∈ l ∧ startAt disk i ≠ fatFree then fatFree else fatEntry disk c) :
    Deleted disk (disk₁.set (entryOffset i + 17) 0) i l := by
  have hoff := entryOffset_eq i
  have hlen₁ := hsame.length_eq
  unfold minLength at hlen
  unfold maxFiles at hi
  have hin : entryOffset i + 17 < disk₁.length := by omega
  have hset := SameOutside.set hin 0
  refine ⟨hset.length_eq.trans hlen₁, ?_, fun j _ hji => ?_, fun p hp => ?_, fun c hc => ?_⟩
  · rw [flagAt, byteAt_set 0 hin, if_pos rfl]
  · have hoffj := entryOffset_eq j
    exact (hsame.sameEntry (by omega)).trans (hset.sameEntry (by omega))
  · rw [hset.byte_eq p (by omega), hsame.byte_eq p (by omega)]
  · have hoffc := fatOffset_eq c
    rw [maxClusters_eq] at hc
    rw [hset.fatEntry_eq (by omega), hfat]

namespace Consistent

variable {disk : Disk}

theorem deleteFile_eq_error (h : Consistent disk) {name : String}
    (hslot : slotOf disk name = none) :
    deleteFile disk name = .ok (.error "file not found", disk) := by
  simp only [deleteFile, slice_magic h.length_le, ok_bind, h.magic_eq, h.findEntry_eq, hslot]
  rfl

/-- Deleting a file that exists clears its entry and frees its chain, unless the chain
starts at cluster 0. -/
theorem deleteFile_spec (h : Consistent disk) {name : String} {i : Nat}
    (hslot : slotOf disk name = some i) {l : List Nat} (howns : Owns disk i l) :
    Returns (deleteFile disk name) fun out => out.1 = .ok () ∧ Deleted disk out.2 i l := by
  obtain ⟨hi, -, -⟩ := slotOf_some hslot
  have hlen := h.length_le
  have hloop : Returns (loop freeRound (2 ^ 16 + 1) (disk, startAt disk i)) fun disk₁ =>
      SameOutside disk disk₁ 512 2048 ∧ ∀ c, fatEntry disk₁ c =
        if c ∈ l ∧ startAt disk i ≠ fatFree then fatFree else fatEntry disk c := by
    by_cases hstart : startAt disk i = fatFree
    · rw [loop_stop (b := disk) (by simp [freeRound, hstart])]
      exact .ok ⟨.refl .., by simp [hstart]⟩
    · have hzero : 0 ∉ l := fun hmem => by
        rcases howns.chain.eq_or_mem_tail hmem with heq | htail
        · exact hstart heq.symm
        · exact howns.zero_notMem htail
      have hshort : l.length ≤ maxClusters := by
        have hsub : l ⊆ List.range maxClusters := fun c hc => List.mem_range.mpr (howns.lt c hc)
        simpa using (howns.chain.nodup.subperm hsub).length_le
      have hfuel : l.length < 2 ^ 16 + 1 := by rw [maxClusters_eq] at hshort; omega
      refine (loop_freeRound hlen howns.chain howns.lt hzero hfuel).mono fun disk₁ h₁ => ?_
      exact ⟨h₁.1, fun c => by simp [h₁.2 c, hstart]⟩
  obtain ⟨disk₁, hrun, hsame, hfat⟩ := hloop
  refine ⟨(.ok (), disk₁.set (entryOffset i + 17) 0), ?_, rfl,
    deleted_of_clear hlen hi hsame hfat⟩
  have hentry := index_entry hlen hi
  have hstore : entryOffset i + 17 < disk₁.length := by
    have hoff := entryOffset_eq i
    unfold minLength at hlen
    unfold maxFiles at hi
    have := hsame.length_eq
    omega
  simp only [deleteFile, slice_magic hlen, ok_bind, h.magic_eq, h.findEntry_eq, hslot,
    hentry 18 (by omega), hentry 19 (by omega)]
  unfold startAt at hrun
  simp only [ne_eq, not_true_eq_false, ↓reduceIte]
  rw [hrun, ok_bind, store_eq_ok 0 hstore]
  rfl

end Consistent

/-! ### Deleting keeps the disk consistent -/

namespace Deleted

variable {disk disk' : Disk} {i : Nat} {l : List Nat}

theorem not_active (hdel : Deleted disk disk' i l) : ¬ Active disk' i := by
  rw [Active, hdel.flag]
  decide

/-- The entries in use after the deletion are the others that were in use before it. -/
theorem active_iff (hdel : Deleted disk disk' i l) {j : Nat} (hj : j < maxFiles) :
    Active disk' j ↔ j ≠ i ∧ Active disk j := by
  by_cases hji : j = i
  · subst hji
    simp [hdel.not_active]
  · simp [hji, (hdel.entry j hj hji).active_iff]

/-- Deleting keeps every other file. -/
theorem keeps (hdel : Deleted disk disk' i l) (h : Consistent disk) (hi : i < maxFiles)
    (hact : Active disk i) (howns : Owns disk i l) : Keeps disk disk' (· ≠ i) where
  length_eq := hdel.length_eq
  magic_eq p hp := hdel.byte_eq p (by omega)
  entry j hj hji := hdel.entry j hj hji
  fat j hj hji hactj m hm c hc := by
    have hcl : c ∉ l := h.disjoint j hj i hi hactj hact hji m l hm howns c hc
    rw [hdel.fat c (hm.lt c hc), if_neg fun hand => hcl hand.1]
  data j _ _ _ m _ c _ p hp _ := hdel.byte_eq p (by have := dataOffset_eq c; omega)

theorem consistent (hdel : Deleted disk disk' i l) (h : Consistent disk) (hi : i < maxFiles)
    (hact : Active disk i) (howns : Owns disk i l) : Consistent disk' := by
  refine (hdel.keeps h hi hact howns).consistent h ?_ ?_ ?_
  · intro j _ hji
    rw [not_not.mp hji]
    exact Or.inl hdel.flag
  · intro j _ k _ hji hki
    rw [not_not.mp hji, not_not.mp hki]
  · intro j _ hji hactj
    rw [not_not.mp hji] at hactj
    exact absurd hactj hdel.not_active

/-- Every other file reads as before. -/
theorem readFile_eq (hdel : Deleted disk disk' i l) (h : Consistent disk) (hi : i < maxFiles)
    (hact : Active disk i) (howns : Owns disk i l) {name : String}
    (hname : nameAt disk i ≠ asBytes name) : readFile disk' name = readFile disk name := by
  refine (hdel.keeps h hi hact howns).readFile_eq h (hdel.consistent h hi hact howns) ?_ ?_
  · intro j _ hji _
    rw [not_not.mp hji]
    exact hname
  · intro j _ hji hactj
    rw [not_not.mp hji] at hactj
    exact absurd hactj hdel.not_active

/-- The deleted file is gone. -/
theorem slotOf_eq_none (hdel : Deleted disk disk' i l) (h : Consistent disk) (hi : i < maxFiles)
    (hact : Active disk i) (howns : Owns disk i l) {name : String}
    (hname : nameAt disk i = asBytes name) : slotOf disk' name = none := by
  rw [slotOf_eq_none_iff]
  intro j hj hactj' hnamej
  obtain ⟨hji, hactj⟩ := (hdel.active_iff hj).mp hactj'
  rw [(hdel.keeps h hi hact howns).nameAt_eq h hj hji hactj, ← hname] at hnamej
  exact hji (h.name_inj j hj i hi hactj hact hnamej)

end Deleted

end MerlionKernel.Fat
