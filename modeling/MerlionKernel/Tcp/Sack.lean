import Mathlib.Algebra.Order.Ring.Nat
import Mathlib.Data.List.Sort

/-!
# The selective acknowledgement scoreboard

`SackScoreboard` of `tcp_ext.rs` keeps the received segments as blocks of sequence numbers. A new
segment absorbs every block that it overlaps or touches, and the blocks are sorted by their left
edges. Edges are compared as plain numbers. As long as no segment reaches the end of the sequence
space, the blocks are apart from each other and hold exactly what was received; one that does takes
in the last sequence number, and no block can hold that, for its right edge would be `2 ^ 32`.
-/

namespace MerlionKernel.Tcp

/-- A block `(left, right)`. -/
abbrev SackBlock : Type := Nat × Nat

/-- `MAX_SACK_BLOCKS`. -/
def maxSackBlocks : Nat := 32

/-- `SackScoreboard::overlaps_or_adjacent`. -/
def overlapsOrAdjacent (l₁ r₁ l₂ r₂ : Nat) : Bool := !(r₁ < l₂ || r₂ < l₁)

/-- `SackScoreboard::seq_min`. -/
def seqMin (a b : Nat) : Nat := if a ≤ b then a else b

/-- `SackScoreboard::seq_max`. -/
def seqMax (a b : Nat) : Nat := if b ≤ a then a else b

/-- `blocks.retain`, with the block that grows on the way. -/
def absorb (new : SackBlock) : List SackBlock → SackBlock × List SackBlock
  | [] => (new, [])
  | b :: rest =>
    if overlapsOrAdjacent new.1 new.2 b.1 b.2 then
      absorb (seqMin new.1 b.1, seqMax new.2 b.2) rest
    else ((absorb new rest).1, b :: (absorb new rest).2)

/-- The order of `sort_by`. -/
def leftEdgeLe (a b : SackBlock) : Bool := a.1 ≤ b.1

/-- The blocks before they are limited to `MAX_SACK_BLOCKS`. -/
def mergeSegment (blocks : List SackBlock) (seq len : UInt32) : List SackBlock :=
  let right := (seq.toNat + len.toNat) % 2 ^ 32
  let (new, kept) := absorb (seq.toNat, right) blocks
  (kept ++ [new]).mergeSort leftEdgeLe

/-- `SackScoreboard::record_segment`. -/
def recordSegment (blocks : List SackBlock) (seq len : UInt32) : List SackBlock :=
  if len = 0 then blocks
  else
    let merged := mergeSegment blocks seq len
    merged.drop (merged.length - maxSackBlocks)

/-- `SackScoreboard::is_sacked`. -/
def isSacked (blocks : List SackBlock) (seq : UInt32) : Bool :=
  blocks.any fun b => b.1 ≤ seq.toNat && seq.toNat < b.2

/-- The scoreboard after a sequence of segments, the last of them first. -/
def recorded : List (UInt32 × UInt32) → List SackBlock
  | [] => []
  | (seq, len) :: earlier => recordSegment (recorded earlier) seq len

/-- No block was ever given up for the limit. -/
def WithinLimit : List (UInt32 × UInt32) → Prop
  | [] => True
  | (seq, len) :: earlier =>
    (len ≠ 0 → (mergeSegment (recorded earlier) seq len).length ≤ maxSackBlocks) ∧
      WithinLimit earlier

/-! ### Blocks as sets of sequence numbers -/

/-- The sequence number lies in the block. -/
def Holds (b : SackBlock) (x : Nat) : Prop := b.1 ≤ x ∧ x < b.2

/-- Neither overlapping nor adjacent. -/
def Apart (a b : SackBlock) : Prop := a.2 < b.1 ∨ b.2 < a.1

/-- Nonempty blocks, each behind the end of the one before. -/
def Ordered (blocks : List SackBlock) : Prop :=
  (∀ b ∈ blocks, b.1 < b.2) ∧ blocks.Pairwise fun a b => a.2 < b.1

theorem Ordered.tail {b : SackBlock} {blocks : List SackBlock} (h : Ordered (b :: blocks)) :
    Ordered blocks :=
  ⟨fun c hc => h.1 c (List.mem_cons_of_mem _ hc), (List.pairwise_cons.mp h.2).2⟩

section Absorb

variable {new : SackBlock} {blocks : List SackBlock}

theorem overlapsOrAdjacent_iff {a b : SackBlock} :
    overlapsOrAdjacent a.1 a.2 b.1 b.2 = true ↔ ¬ Apart a b := by
  simp [overlapsOrAdjacent, Apart]

theorem seqMin_eq (a b : Nat) : seqMin a b = min a b := rfl

theorem seqMax_eq (a b : Nat) : seqMax a b = max a b := by
  unfold seqMax
  split
  · next h => exact (max_eq_left h).symm
  · next h => exact (max_eq_right (by omega)).symm

theorem absorb_sublist : (absorb new blocks).2.Sublist blocks := by
  fun_induction absorb new blocks with
  | case1 => exact List.Sublist.refl _
  | case2 new b rest hb ih => exact ih.cons b
  | case3 new b rest hb ih => exact ih.cons_cons b

/-- The block that grows stays behind what all blocks are behind. -/
theorem lt_absorb {y : Nat} (hnew : y < new.1) (hblocks : ∀ b ∈ blocks, y < b.1) :
    y < (absorb new blocks).1.1 := by
  fun_induction absorb new blocks with
  | case1 => exact hnew
  | case2 new b rest hb ih =>
    obtain ⟨hy, hrest⟩ := List.forall_mem_cons.mp hblocks
    apply ih _ hrest
    rw [seqMin_eq]
    exact lt_min hnew hy
  | case3 new b rest hb ih => exact ih hnew (List.forall_mem_cons.mp hblocks).2

/-- Blocks further on are not absorbed. -/
theorem absorb_of_lt (hblocks : ∀ b ∈ blocks, new.2 < b.1) : (absorb new blocks).1 = new := by
  fun_induction absorb new blocks with
  | case1 => rfl
  | case2 new b rest hb ih =>
    exact (overlapsOrAdjacent_iff.mp hb (.inl (hblocks b List.mem_cons_self))).elim
  | case3 new b rest hb ih => exact ih (List.forall_mem_cons.mp hblocks).2

/-- What `retain` leaves: the grown block is apart from the kept ones and holds, together with
them, what was held before. -/
theorem absorb_spec (hblocks : Ordered blocks) (hnew : new.1 < new.2) :
    (absorb new blocks).1.1 < (absorb new blocks).1.2 ∧
      (∀ b ∈ (absorb new blocks).2, Apart (absorb new blocks).1 b) ∧
      ∀ x, (Holds (absorb new blocks).1 x ∨ ∃ b ∈ (absorb new blocks).2, Holds b x) ↔
        Holds new x ∨ ∃ b ∈ blocks, Holds b x := by
  fun_induction absorb new blocks with
  | case1 new => exact ⟨hnew, List.forall_mem_nil _, fun x => Iff.rfl⟩
  | case2 new b rest hb ih =>
    rw [overlapsOrAdjacent_iff, Apart] at hb
    have hpos := hblocks.1 b List.mem_cons_self
    rw [seqMin_eq, seqMax_eq] at ih ⊢
    obtain ⟨hlt, hapart, hholds⟩ := ih hblocks.tail (by omega)
    refine ⟨hlt, hapart, fun x => (hholds x).trans ?_⟩
    -- Overlapping or adjacent blocks leave no gap between them.
    have hunion : Holds (min new.1 b.1, max new.2 b.2) x ↔ Holds new x ∨ Holds b x := by
      unfold Holds
      omega
    rw [hunion, List.exists_mem_cons_iff, or_assoc]
  | case3 new b rest hb ih =>
    rw [overlapsOrAdjacent_iff, not_not] at hb
    have hpos := hblocks.1 b List.mem_cons_self
    have hrest := (List.pairwise_cons.mp hblocks.2).1
    obtain ⟨hlt, hapart, hholds⟩ := ih hblocks.tail hnew
    refine ⟨hlt, List.forall_mem_cons.mpr ⟨?_, hapart⟩, fun x => ?_⟩
    · rcases hb with hb | hb
      · rw [absorb_of_lt fun c hc => hb.trans (hpos.trans (hrest c hc))]
        exact .inl hb
      · exact .inr (lt_absorb hb hrest)
    · rw [List.exists_mem_cons_iff, List.exists_mem_cons_iff, or_left_comm, hholds, or_left_comm]

end Absorb

/-! ### Recording a segment -/

section Record

variable {blocks : List SackBlock} {seq len : UInt32}

theorem mergeSegment_perm :
    let new := (seq.toNat, (seq.toNat + len.toNat) % 2 ^ 32)
    (mergeSegment blocks seq len).Perm ((absorb new blocks).2 ++ [(absorb new blocks).1]) :=
  List.mergeSort_perm _ _

theorem apart_symm {a b : SackBlock} (h : Apart a b) : Apart b a := Or.symm h

/-- A segment that ends inside the sequence space is added to what the blocks hold. -/
theorem mergeSegment_spec (hblocks : Ordered blocks) (hlen : len ≠ 0)
    (hend : seq.toNat + len.toNat < 2 ^ 32) :
    Ordered (mergeSegment blocks seq len) ∧
      ∀ x, (∃ b ∈ mergeSegment blocks seq len, Holds b x) ↔
        Holds (seq.toNat, seq.toNat + len.toNat) x ∨ ∃ b ∈ blocks, Holds b x := by
  have hpos : 0 < len.toNat := by
    rw [Nat.pos_iff_ne_zero]
    exact fun h => hlen (UInt32.toNat_inj.mp h)
  have hperm := @mergeSegment_perm blocks seq len
  dsimp only at hperm
  rw [Nat.mod_eq_of_lt hend] at hperm
  obtain ⟨hlt, hapart, hholds⟩ := @absorb_spec (seq.toNat, seq.toNat + len.toNat) blocks hblocks
    (Nat.lt_add_of_pos_right hpos)
  have hnonempty : ∀ b ∈ mergeSegment blocks seq len, b.1 < b.2 := by
    intro b hb
    rcases List.mem_append.mp (hperm.subset hb) with hb | hb
    · exact hblocks.1 b (absorb_sublist.subset hb)
    · rw [List.mem_singleton.mp hb]
      exact hlt
  have hpairwise : (mergeSegment blocks seq len).Pairwise Apart := by
    rw [hperm.pairwise_iff apart_symm]
    refine List.pairwise_append.mpr ⟨?_, List.pairwise_singleton _ _, fun b hb c hc => ?_⟩
    · exact (hblocks.2.sublist absorb_sublist).imp Or.inl
    · rw [List.mem_singleton.mp hc]
      exact apart_symm (hapart b hb)
  have hsorted : (mergeSegment blocks seq len).Pairwise fun a b => leftEdgeLe a b = true := by
    apply List.pairwise_mergeSort
    · intro a b c hab hbc
      simp only [leftEdgeLe, decide_eq_true_eq] at *
      omega
    · intro a b
      simp only [leftEdgeLe, Bool.or_eq_true, decide_eq_true_eq]
      omega
  refine ⟨⟨hnonempty, ?_⟩, fun x => ?_⟩
  · -- Of two blocks that are apart, the one that starts first ends first.
    refine (hpairwise.and hsorted).imp_of_mem fun {a b} ha hb hab => ?_
    have ha' := hnonempty a ha
    have hb' := hnonempty b hb
    simp only [Apart, leftEdgeLe, decide_eq_true_eq] at hab
    omega
  · rw [← hholds x]
    simp only [hperm.mem_iff, List.mem_append, List.mem_singleton, or_and_right, exists_or,
      exists_eq_left]
    exact or_comm

theorem absorb_lt {new : SackBlock} {n : Nat} (hnew : new.2 < n) (hblocks : ∀ b ∈ blocks, b.2 < n) :
    (absorb new blocks).1.2 < n := by
  fun_induction absorb new blocks with
  | case1 => exact hnew
  | case2 new b rest hb ih =>
    obtain ⟨hb, hrest⟩ := List.forall_mem_cons.mp hblocks
    apply ih _ hrest
    rw [seqMax_eq]
    exact max_lt hnew hb
  | case3 new b rest hb ih => exact ih hnew (List.forall_mem_cons.mp hblocks).2

end Record

/-- Right edges are sequence numbers. -/
theorem recorded_lt (segments : List (UInt32 × UInt32)) :
    ∀ b ∈ recorded segments, b.2 < 2 ^ 32 := by
  induction segments with
  | nil => exact List.forall_mem_nil _
  | cons s earlier ih =>
    obtain ⟨seq, len⟩ := s
    rw [recorded, recordSegment]
    split
    · exact ih
    · intro b hb
      rcases List.mem_append.mp (mergeSegment_perm.subset (List.mem_of_mem_drop hb)) with hb | hb
      · exact ih b (absorb_sublist.subset hb)
      · rw [List.mem_singleton.mp hb]
        exact absorb_lt (Nat.mod_lt _ (by decide)) ih

/-- The sequence number lies in the segment, counted from its start modulo `2 ^ 32`. -/
def InSegment (s : UInt32 × UInt32) (x : UInt32) : Prop := (x - s.1).toNat < s.2.toNat

/-- No sequence number of one block is one of the other or next to one, modulo `2 ^ 32`. -/
def ApartModulo (a b : SackBlock) : Prop :=
  ∀ x y : UInt32, Holds a x.toNat → Holds b y.toNat → x ≠ y ∧ x + 1 ≠ y ∧ y + 1 ≠ x

/-- The segment does not reach the end of the sequence space. -/
def EndsInside (s : UInt32 × UInt32) : Prop := s.2 = 0 ∨ s.1.toNat + s.2.toNat < 2 ^ 32

theorem inSegment_iff {s : UInt32 × UInt32} (h : EndsInside s) (x : UInt32) :
    InSegment s x ↔ s.2 ≠ 0 ∧ Holds (s.1.toNat, s.1.toNat + s.2.toNat) x.toNat := by
  have hx := x.toNat_lt
  have hs := s.1.toNat_lt
  rw [InSegment, UInt32.toNat_sub, Holds, Ne, ← UInt32.toNat_inj, UInt32.toNat_zero]
  rcases h with h | h
  · simp [h]
  · omega

/-- Along a run whose segments end inside the sequence space. -/
theorem recorded_spec {segments : List (UInt32 × UInt32)} (hlimit : WithinLimit segments)
    (hend : ∀ s ∈ segments, EndsInside s) :
    Ordered (recorded segments) ∧
      ∀ x : UInt32, (∃ b ∈ recorded segments, Holds b x.toNat) ↔
        ∃ s ∈ segments, InSegment s x := by
  induction segments with
  | nil => exact ⟨⟨List.forall_mem_nil _, List.Pairwise.nil⟩, fun x => by simp [recorded]⟩
  | cons s earlier ih =>
    obtain ⟨seq, len⟩ := s
    obtain ⟨hs, hearlier⟩ := List.forall_mem_cons.mp hend
    obtain ⟨hordered, hholds⟩ := ih hlimit.2 hearlier
    simp only [List.exists_mem_cons_iff, inSegment_iff hs]
    rw [recorded, recordSegment]
    by_cases hlen : len = 0
    · rw [if_pos hlen]
      refine ⟨hordered, fun x => (hholds x).trans (Iff.symm (or_iff_right fun h => h.1 hlen))⟩
    · obtain ⟨hmerged, hmergedHolds⟩ :=
        mergeSegment_spec hordered hlen (hs.resolve_left hlen)
      rw [if_neg hlen]
      dsimp only
      rw [Nat.sub_eq_zero_of_le (hlimit.1 hlen), List.drop_zero]
      refine ⟨hmerged, fun x => (hmergedHolds _).trans ?_⟩
      rw [hholds x]
      exact or_congr_left (and_iff_right hlen).symm

theorem isSacked_iff {blocks : List SackBlock} {x : UInt32} :
    isSacked blocks x = true ↔ ∃ b ∈ blocks, Holds b x.toNat := by
  simp [isSacked, Holds, -Prod.exists]

/-- Within the block limit, the scoreboard answers for exactly the recorded sequence numbers and
keeps its blocks apart if and only if no segment reaches the end of the sequence space. -/
theorem isSacked_exact_iff {segments : List (UInt32 × UInt32)} (hlimit : WithinLimit segments) :
    ((∀ x, isSacked (recorded segments) x = true ↔ ∃ s ∈ segments, InSegment s x) ∧
        (recorded segments).Pairwise ApartModulo) ↔
      ∀ s ∈ segments, EndsInside s := by
  constructor
  · intro ⟨hexact, _⟩ s hs
    by_contra hend
    rw [EndsInside, not_or, not_lt] at hend
    -- The segment has the last sequence number, which no block can hold.
    have hlast : InSegment s 0xFFFFFFFF := by
      have hlt := s.1.toNat_lt
      have hmax : (0xFFFFFFFF : UInt32).toNat = 2 ^ 32 - 1 := rfl
      rw [InSegment, UInt32.toNat_sub, hmax]
      omega
    obtain ⟨b, hb, hholds⟩ := isSacked_iff.mp ((hexact _).mpr ⟨s, hs, hlast⟩)
    have hbound := recorded_lt segments b hb
    have hright : 2 ^ 32 - 1 < b.2 := hholds.2
    omega
  · intro hend
    obtain ⟨hordered, hholds⟩ := recorded_spec hlimit hend
    refine ⟨fun x => isSacked_iff.trans (hholds x), ?_⟩
    refine hordered.2.imp_of_mem fun {a b} ha hb hab x y hx hy => ?_
    have hbound := recorded_lt segments b hb
    have hx' := x.toNat_lt
    simp only [Holds] at hx hy
    simp only [ne_eq, ← UInt32.toNat_inj, UInt32.toNat_add, UInt32.toNat_one]
    omega

theorem isSacked_exact_iff_pair :
    WithinLimit [(10, 5), (30, 5)] ∧
      (((∀ x, isSacked (recorded [(10, 5), (30, 5)]) x = true ↔
          ∃ s ∈ [((10 : UInt32), (5 : UInt32)), (30, 5)], InSegment s x) ∧
        (recorded [(10, 5), (30, 5)]).Pairwise ApartModulo) ↔
      ∀ s ∈ [((10 : UInt32), (5 : UInt32)), (30, 5)], EndsInside s) := by
  have hlimit : WithinLimit [(10, 5), (30, 5)] := by
    simp [WithinLimit, recorded, recordSegment, mergeSegment, absorb, maxSackBlocks,
      overlapsOrAdjacent]
  exact ⟨hlimit, isSacked_exact_iff hlimit⟩

/-- A segment of two bytes from the last sequence number on is not answered for. -/
theorem isSacked_forgets_wrapped :
    WithinLimit [(0xFFFFFFFF, 2)] ∧ isSacked (recorded [(0xFFFFFFFF, 2)]) 0xFFFFFFFF = false ∧
      InSegment (0xFFFFFFFF, 2) 0xFFFFFFFF := by
  have hlimit : WithinLimit [(0xFFFFFFFF, 2)] := by
    simp [WithinLimit, recorded, mergeSegment, absorb, maxSackBlocks]
  have hrecorded : recorded [(0xFFFFFFFF, 2)] = [(0xFFFFFFFF, 1)] := by
    simp [recorded, recordSegment, mergeSegment, absorb, maxSackBlocks]
  rw [hrecorded]
  exact ⟨hlimit, by decide, show (_ : Nat) < _ by decide⟩

end MerlionKernel.Tcp
