import Mathlib.Data.Prod.Lex
import Mathlib.Data.List.Perm.Basic
import MerlionKernel.PQueue.Model
import MerlionKernel.Theory.Heap

/-!
# Sifting an entry into place

An entry that leaves first has the smaller key, the pair of its priority and its insertion
order. The two sifts carry a hole up and down the heap of these keys and end with an
ordered heap of the same entries.
-/

namespace MerlionKernel.PQueue

open Rust Theory.Heap

variable {T : Type} {heap : List (HeapEntry T)} {i : Nat}

/-! ### Keys -/

/-- The priority, and then the insertion order. -/
def HeapEntry.key (entry : HeapEntry T) : ℤ ×ₗ ℕ := toLex (entry.priority.1, entry.insertionOrder)

theorem isHigherPriority_iff (a b : HeapEntry T) : a.isHigherPriority b ↔ a.key < b.key := by
  unfold HeapEntry.isHigherPriority HeapEntry.key
  rw [Prod.Lex.toLex_lt_toLex]
  split_ifs with hne
  · have hne' : a.priority.1 ≠ b.priority.1 := fun heq => hne (Subtype.ext heq)
    simp [hne']
  · have heq : a.priority = b.priority := not_not.mp hne
    simp [heq]

/-- The key of the entry at a position. -/
def keyAt (heap : List (HeapEntry T)) (i : Nat) : ℤ ×ₗ ℕ :=
  match heap[i]? with
  | some entry => entry.key
  | none => toLex (0, 0)

theorem keyAt_eq {entry : HeapEntry T} (h : heap[i]? = some entry) : keyAt heap i = entry.key := by
  rw [keyAt, h]

theorem keyAt_of_lt (hi : i < heap.length) : keyAt heap i = heap[i].key :=
  keyAt_eq (List.getElem?_eq_getElem hi)

theorem keyAt_congr {heap' : List (HeapEntry T)} {j : Nat} (h : heap'[j]? = heap[i]?) :
    keyAt heap' j = keyAt heap i := by
  rw [keyAt, h, keyAt]

/-- No entry is of higher priority than its parent. -/
def HeapOrdered (heap : List (HeapEntry T)) : Prop :=
  ∀ i entry above, 0 < i → heap[i]? = some entry → heap[(i - 1) / 2]? = some above →
    entry.isHigherPriority above = false

theorem heapOrdered_iff : HeapOrdered heap ↔ Ordered (keyAt heap) heap.length := by
  constructor
  · intro h i hpos hi
    have hlt := parent_lt hpos
    have hnot := h i heap[i] heap[parent i] hpos (List.getElem?_eq_getElem hi)
      (List.getElem?_eq_getElem (by omega))
    rw [← Bool.not_eq_true, isHigherPriority_iff, not_lt] at hnot
    rwa [keyAt_of_lt hi, keyAt_of_lt (by omega)]
  · intro h i entry above hpos hentry habove
    obtain ⟨hi, -⟩ := List.getElem?_eq_some_iff.mp hentry
    rw [← Bool.not_eq_true, isHigherPriority_iff, not_lt, ← keyAt_eq hentry, ← keyAt_eq habove]
    exact h i hpos hi

/-! ### Exchanging two entries -/

theorem keyAt_swap {j : Nat} (hi : i < heap.length) (hj : j < heap.length) :
    keyAt ((heap.set i heap[j]).set j heap[i]) = keyAt heap ∘ Equiv.swap i j := by
  funext k
  refine keyAt_congr ?_
  rw [List.getElem?_set, List.getElem?_set, List.length_set]
  by_cases hkj : j = k
  · subst hkj
    rw [if_pos rfl, if_pos hj, Equiv.swap_apply_right, List.getElem?_eq_getElem hi]
  rw [if_neg hkj]
  by_cases hki : i = k
  · subst hki
    rw [if_pos rfl, if_pos hi, Equiv.swap_apply_left, List.getElem?_eq_getElem hj]
  · rw [if_neg hki, Equiv.swap_apply_of_ne_of_ne (Ne.symm hki) (Ne.symm hkj)]

/-- An ordered heap of the given entries. -/
def Sifted (heap heap' : List (HeapEntry T)) : Prop :=
  Ordered (keyAt heap') heap'.length ∧ heap'.Perm heap

theorem index_key (hi : i < heap.length) :
    ∃ entry, index heap i = .ok entry ∧ entry.key = keyAt heap i :=
  ⟨heap[i], index_eq_ok hi, (keyAt_of_lt hi).symm⟩

/-! ### Upward -/

theorem siftUpRound_stop (hi : i < heap.length) (habove : Above (keyAt heap) i) :
    siftUpRound (heap, i) = .ok (.stop heap) := by
  unfold siftUpRound
  by_cases hpos : 0 < i
  · have hlt := parent_lt hpos
    obtain ⟨entry, hentry, hkey⟩ := index_key hi
    obtain ⟨top, htop, hkey'⟩ := index_key (show parent i < heap.length by omega)
    have hnot : ¬ entry.isHigherPriority top = true := by
      rw [isHigherPriority_iff, not_lt, hkey, hkey']
      exact habove hpos
    rw [parent] at htop
    simp only [if_pos hpos, hentry, htop, ok_bind, if_neg hnot]
    rfl
  · simp only [if_neg hpos]
    rfl

theorem siftUpRound_again (hi : i < heap.length) (hpos : 0 < i)
    (hlt : keyAt heap i < keyAt heap (parent i)) :
    siftUpRound (heap, i) =
      swap heap i (parent i) >>= fun heap => .ok (.again (heap, parent i)) := by
  have hpar := parent_lt hpos
  obtain ⟨entry, hentry, hkey⟩ := index_key hi
  obtain ⟨top, htop, hkey'⟩ := index_key (show parent i < heap.length by omega)
  have hhigher : entry.isHigherPriority top = true := by
    rw [isHigherPriority_iff, hkey, hkey']
    exact hlt
  rw [parent] at htop
  simp only [siftUpRound, if_pos hpos, hentry, htop, ok_bind, if_pos hhigher]
  rfl

/-- An entry that is only out of order with its parent moves up into its place. -/
theorem siftUp_returns (hi : i < heap.length) (hhole : Hole (keyAt heap) heap.length i)
    (hbelow : Below (keyAt heap) heap.length i) : Returns (siftUp heap i) (Sifted heap) := by
  refine loop_returns (fun s => s.2 < s.1.length ∧ Hole (keyAt s.1) s.1.length s.2 ∧
    Below (keyAt s.1) s.1.length s.2 ∧ s.1.Perm heap) (fun s => s.2) ?_
    ⟨hi, hhole, hbelow, .refl heap⟩ (Nat.lt_succ_self i)
  rintro ⟨cur, j⟩ ⟨hj, hhole, hbelow, hperm⟩
  dsimp only at hj hhole hbelow hperm
  by_cases habove : Above (keyAt cur) j
  · rw [siftUpRound_stop hj habove]
    exact .ok ⟨hhole.ordered habove hbelow, hperm⟩
  · obtain ⟨hpos, hlt⟩ := Classical.not_imp.mp habove
    rw [not_le] at hlt
    have hpar := parent_lt hpos
    have hpj : parent j < cur.length := by omega
    obtain ⟨hhole', hbelow'⟩ := hhole.up hpos hj hlt
    rw [siftUpRound_again hj hpos hlt, swap_eq_ok hj hpj, ok_bind]
    refine .ok ⟨⟨?_, ?_, ?_, ?_⟩, hpar⟩
    · simpa using hpj
    · simpa [keyAt_swap hj hpj] using hhole'
    · simpa [keyAt_swap hj hpj] using hbelow'
    · exact (List.set_set_perm hj hpj).trans hperm

/-- An entry that is in order with its parent stays. -/
theorem siftUp_of_above (hi : i < heap.length) (habove : Above (keyAt heap) i) :
    siftUp heap i = .ok heap :=
  loop_stop (siftUpRound_stop hi habove) i

/-! ### Downward -/

theorem smaller_eq {smallest : Nat} (hs : smallest < heap.length) (child : Nat) :
    Returns (smaller heap smallest child) fun m => m < heap.length ∧
      keyAt heap m ≤ keyAt heap smallest ∧ (child < heap.length → keyAt heap m ≤ keyAt heap child) ∧
        (m = smallest ∨ m = child ∧ keyAt heap m < keyAt heap smallest) := by
  unfold smaller
  by_cases hc : child < heap.length
  · obtain ⟨entry, hentry, hkey⟩ := index_key hc
    obtain ⟨least, hleast, hkey'⟩ := index_key hs
    simp only [if_pos hc, hentry, hleast, ok_bind]
    by_cases hlt : entry.isHigherPriority least = true
    · rw [if_pos hlt]
      rw [isHigherPriority_iff, hkey, hkey'] at hlt
      exact .ok ⟨hc, hlt.le, fun _ => le_rfl, .inr ⟨rfl, hlt⟩⟩
    · rw [if_neg hlt]
      rw [isHigherPriority_iff, not_lt, hkey, hkey'] at hlt
      exact .ok ⟨hs, le_rfl, fun _ => hlt, .inl rfl⟩
  · rw [if_neg hc]
    exact .ok ⟨hs, le_rfl, fun h => absurd h hc, .inl rfl⟩

/-- A round stops where the children are in order, and else goes on with the smaller one. -/
theorem siftDownRound_cases (hi : i < heap.length) :
    (siftDownRound (heap, i) = .ok (.stop heap) ∧ Below (keyAt heap) heap.length i) ∨
      ∃ c, siftDownRound (heap, i) = (swap heap i c >>= fun heap => .ok (.again (heap, c))) ∧
        0 < c ∧ c < heap.length ∧ parent c = i ∧ keyAt heap c < keyAt heap i ∧
          ∀ j, 0 < j → j < heap.length → parent j = i → keyAt heap c ≤ keyAt heap j := by
  obtain ⟨m, hm, hmlt, hmle, hmleft, hmcase⟩ := smaller_eq hi (2 * i + 1)
  obtain ⟨c, hc, hclt, hcle, hcright, hccase⟩ := smaller_eq hmlt (2 * i + 2)
  have hleast : ∀ j, 0 < j → j < heap.length → parent j = i → keyAt heap c ≤ keyAt heap j := by
    intro j hpos hj hpar
    rcases (parent_eq_iff hpos).mp hpar with rfl | rfl
    · exact hcle.trans (hmleft hj)
    · exact hcright hj
  by_cases hci : c = i
  · subst hci
    refine .inl ⟨?_, hleast⟩
    simp only [siftDownRound, hm, hc, ok_bind, if_true]
    rfl
  · refine .inr ⟨c, ?_, ?_⟩
    · simp only [siftDownRound, hm, hc, ok_bind, if_neg hci]
      rfl
    have hchild : (c = 2 * i + 1 ∨ c = 2 * i + 2) ∧ keyAt heap c < keyAt heap i := by
      rcases hccase with rfl | ⟨rfl, hlt⟩
      · rcases hmcase with rfl | ⟨rfl, hlt⟩
        · exact absurd rfl hci
        · exact ⟨.inl rfl, hlt⟩
      · exact ⟨.inr rfl, hlt.trans_le hmle⟩
    have hpos : 0 < c := by omega
    exact ⟨hpos, hclt, (parent_eq_iff hpos).mpr hchild.1, hchild.2, hleast⟩

/-- An entry that is only out of order with its children moves down into its place. -/
theorem siftDown_returns (hi : i < heap.length) (hhole : Hole (keyAt heap) heap.length i)
    (habove : Above (keyAt heap) i) : Returns (siftDown heap i) (Sifted heap) := by
  refine loop_returns (fun s => s.2 < s.1.length ∧ Hole (keyAt s.1) s.1.length s.2 ∧
    Above (keyAt s.1) s.2 ∧ s.1.Perm heap) (fun s => heap.length - s.2) ?_
    ⟨hi, hhole, habove, .refl heap⟩ (Nat.lt_succ_of_le (Nat.sub_le _ _))
  rintro ⟨cur, j⟩ ⟨hj, hhole, habove, hperm⟩
  dsimp only at hj hhole habove hperm
  rcases siftDownRound_cases hj with ⟨hstop, hbelow⟩ | ⟨c, hagain, hpos, hc, hpar, hlt, hleast⟩
  · rw [hstop]
    exact .ok ⟨hhole.ordered habove hbelow, hperm⟩
  · have hjc : j < c := hpar ▸ parent_lt hpos
    have hlen := hperm.length_eq
    obtain ⟨hhole', habove'⟩ := hhole.down hpos hc hpar hlt hleast
    rw [hagain, swap_eq_ok hj hc, ok_bind]
    refine .ok ⟨⟨?_, ?_, ?_, ?_⟩, ?_⟩
    · simpa using hc
    · simpa [keyAt_swap hj hc] using hhole'
    · simpa [keyAt_swap hj hc] using habove'
    · exact (List.set_set_perm hj hc).trans hperm
    · dsimp only
      omega

end MerlionKernel.PQueue
