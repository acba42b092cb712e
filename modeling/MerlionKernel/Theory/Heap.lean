import Mathlib.Logic.Equiv.Basic
import Mathlib.Order.Lattice

/-!
# Binary heaps

The nodes of a binary heap are the numbers below a size, and each node carries a key. The
heap is ordered when no key is smaller than its parent's. While a key is moved into place,
the order may fail at one node only: `Hole` says that all other pairs are ordered, and so
are the pairs around that node. Exchanging the node's key with its parent's or with the
smaller of its children's moves the hole one level; where neither side is out of order any
more, the heap is ordered.
-/

namespace MerlionKernel.Theory.Heap

variable {κ : Type*} {f : Nat → κ} {n i j : Nat}

/-- The parent of a node. -/
def parent (i : Nat) : Nat := (i - 1) / 2

theorem parent_lt (hi : 0 < i) : parent i < i := by
  unfold parent
  omega

theorem parent_eq_iff (hj : 0 < j) : parent j = i ↔ j = 2 * i + 1 ∨ j = 2 * i + 2 := by
  unfold parent
  omega

/-- The keys after an exchange, away from the two nodes. -/
theorem swap_apply_of_ne {a b : Nat} (ha : j ≠ a) (hb : j ≠ b) : (f ∘ Equiv.swap a b) j = f j :=
  congrArg f (Equiv.swap_apply_of_ne_of_ne ha hb)

theorem swap_apply_left (a b : Nat) : (f ∘ Equiv.swap a b) a = f b :=
  congrArg f (Equiv.swap_apply_left a b)

theorem swap_apply_right (a b : Nat) : (f ∘ Equiv.swap a b) b = f a :=
  congrArg f (Equiv.swap_apply_right a b)

variable [LinearOrder κ]

/-- No key is smaller than its parent's. -/
def Ordered (f : Nat → κ) (n : Nat) : Prop := ∀ j, 0 < j → j < n → f (parent j) ≤ f j

/-- All pairs but those at node `i` are ordered, and so are its parent and its children. -/
structure Hole (f : Nat → κ) (n i : Nat) : Prop where
  rest : ∀ j, 0 < j → j < n → j ≠ i → parent j ≠ i → f (parent j) ≤ f j
  around : 0 < i → ∀ j, 0 < j → j < n → parent j = i → f (parent i) ≤ f j

/-- The node is ordered against its parent. -/
def Above (f : Nat → κ) (i : Nat) : Prop := 0 < i → f (parent i) ≤ f i

/-- The node is ordered against its children. -/
def Below (f : Nat → κ) (n i : Nat) : Prop := ∀ j, 0 < j → j < n → parent j = i → f i ≤ f j

theorem Ordered.hole (h : Ordered f n) (hi : i < n) : Hole f n i where
  rest j hpos hj _ _ := h j hpos hj
  around hi' j hpos hj hji := by
    have hchild := h j hpos hj
    rw [hji] at hchild
    exact (h i hi' hi).trans hchild

/-- The first nodes of an ordered heap are an ordered heap. -/
theorem Ordered.of_eq {g : Nat → κ} {m : Nat} (h : Ordered f n) (hm : m ≤ n)
    (heq : ∀ j, j < m → g j = f j) : Ordered g m := by
  intro j hpos hj
  have hlt := parent_lt hpos
  rw [heq j hj, heq (parent j) (by omega)]
  exact h j hpos (by omega)

/-- Replacing one key of an ordered heap, which may be cut at the end, leaves a hole. -/
theorem Ordered.hole_of_eq {g : Nat → κ} {m : Nat} (h : Ordered f n) (hm : m ≤ n) (hi : i < m)
    (heq : ∀ j, j < m → j ≠ i → g j = f j) : Hole g m i where
  rest j hpos hj hji hpar := by
    have hlt := parent_lt hpos
    rw [heq j hj hji, heq (parent j) (by omega) hpar]
    exact h j hpos (by omega)
  around hi' j hpos hj hpar := by
    have hpi := parent_lt hi'
    have hpj := parent_lt hpos
    rw [heq (parent i) (by omega) (by omega), heq j hj (by omega)]
    exact (h.hole (i := i) (by omega)).around hi' j hpos (by omega) hpar

/-- A key added at the end is a hole without children. -/
theorem Ordered.hole_last {g : Nat → κ} (h : Ordered f n) (heq : ∀ j, j < n → g j = f j) :
    Hole g (n + 1) n ∧ Below g (n + 1) n := by
  have hnone : ∀ j, 0 < j → j < n + 1 → parent j ≠ n := by
    intro j hpos hj
    have hlt := parent_lt hpos
    omega
  refine ⟨⟨?_, ?_⟩, ?_⟩
  · intro j hpos hj hjn _
    have hlt := parent_lt hpos
    rw [heq j (by omega), heq (parent j) (by omega)]
    exact h j hpos (by omega)
  · exact fun _ j hpos hj hpar => absurd hpar (hnone j hpos hj)
  · exact fun j hpos hj hpar => absurd hpar (hnone j hpos hj)

theorem Ordered.above (h : Ordered f n) (hi : i < n) : Above f i := fun hpos => h i hpos hi

theorem Ordered.below (h : Ordered f n) : Below f n i := by
  rintro j hpos hj rfl
  exact h j hpos hj

theorem Hole.ordered (h : Hole f n i) (habove : Above f i) (hbelow : Below f n i) :
    Ordered f n := by
  intro j hpos hj
  by_cases hji : j = i
  · subst hji
    exact habove hpos
  by_cases hpar : parent j = i
  · rw [hpar]
    exact hbelow j hpos hj hpar
  · exact h.rest j hpos hj hji hpar

/-- A key smaller than its parent's is smaller than its children's. -/
theorem Hole.below_of_lt (h : Hole f n i) (hi : 0 < i) (hlt : f i < f (parent i)) :
    Below f n i :=
  fun j hpos hj hji => hlt.le.trans (h.around hi j hpos hj hji)

/-- Exchanging a key with its larger parent moves the hole up. -/
theorem Hole.up (h : Hole f n i) (hi : 0 < i) (hin : i < n) (hlt : f i < f (parent i)) :
    Hole (f ∘ Equiv.swap i (parent i)) n (parent i) ∧
      Below (f ∘ Equiv.swap i (parent i)) n (parent i) := by
  have hpi := parent_lt hi
  -- The siblings are not smaller than the parent.
  have hsibling : ∀ j, 0 < j → j < n → j ≠ i → parent j = parent i → f (parent i) ≤ f j := by
    intro j hpos hj hji hpar
    rw [← hpar]
    exact h.rest j hpos hj hji (by omega)
  refine ⟨⟨?_, ?_⟩, ?_⟩
  · intro j hpos hj hjp hpar
    have hji : j ≠ i := fun heq => hpar (congrArg parent heq)
    rw [swap_apply_of_ne hji hjp]
    by_cases hpari : parent j = i
    · rw [hpari, swap_apply_left]
      exact h.around hi j hpos hj hpari
    · rw [swap_apply_of_ne hpari hpar]
      exact h.rest j hpos hj hji hpari
  · intro hp j hpos hj hpar
    have hpp := parent_lt hp
    have hgrand : f (parent (parent i)) ≤ f (parent i) :=
      h.rest (parent i) hp (by omega) (by omega) (by omega)
    rw [swap_apply_of_ne (by omega) (by omega)]
    by_cases hji : j = i
    · rw [hji, swap_apply_left]
      exact hgrand
    · have hjp := parent_lt hpos
      rw [swap_apply_of_ne hji (by omega)]
      exact hgrand.trans (hsibling j hpos hj hji hpar)
  · intro j hpos hj hpar
    rw [swap_apply_right]
    by_cases hji : j = i
    · rw [hji, swap_apply_left]
      exact hlt.le
    · have hjp := parent_lt hpos
      rw [swap_apply_of_ne hji (by omega)]
      exact hlt.le.trans (hsibling j hpos hj hji hpar)

/-- Exchanging a key with the smaller child's moves the hole down. -/
theorem Hole.down {c : Nat} (h : Hole f n i) (hc : 0 < c) (hcn : c < n) (hci : parent c = i)
    (hlt : f c < f i) (hleast : ∀ j, 0 < j → j < n → parent j = i → f c ≤ f j) :
    Hole (f ∘ Equiv.swap i c) n c ∧ Above (f ∘ Equiv.swap i c) c := by
  have hic : i < c := hci ▸ parent_lt hc
  refine ⟨⟨?_, ?_⟩, ?_⟩
  · intro j hpos hj hjc hpar
    by_cases hji : j = i
    · subst hji
      have hpj := parent_lt hpos
      rw [swap_apply_left, swap_apply_of_ne (by omega) (by omega)]
      exact h.around hpos c hc hcn hci
    rw [swap_apply_of_ne hji hjc]
    by_cases hpari : parent j = i
    · rw [hpari, swap_apply_left]
      exact hleast j hpos hj hpari
    · rw [swap_apply_of_ne hpari hpar]
      exact h.rest j hpos hj hji hpari
  · intro _ j hpos hj hpar
    have hjc := parent_lt hpos
    rw [hci, swap_apply_left, swap_apply_of_ne (by omega) (by omega), ← hpar]
    exact h.rest j hpos hj (by omega) (by omega)
  · intro _
    rw [hci, swap_apply_left, swap_apply_right]
    exact hlt.le

/-- The root has the smallest key. -/
theorem Ordered.root_le (h : Ordered f n) (hj : j < n) : f 0 ≤ f j := by
  induction j using Nat.strongRecOn with
  | ind j ih =>
    rcases Nat.eq_zero_or_pos j with rfl | hpos
    · exact le_rfl
    · have hlt := parent_lt hpos
      exact (ih (parent j) hlt (by omega)).trans (h j hpos hj)

end MerlionKernel.Theory.Heap
