import MerlionKernel.Rust.Exec

/-!
# Binary search

`slice::binary_search_by` of the standard library. It halves the range without an early
exit on an equal element and looks at one last element in the end. On a slice partitioned
by the comparator it finds an equal element or the place where one belongs.
-/

namespace MerlionKernel.Rust

variable {α : Type} {f : α → Ordering} {xs : List α}

/-- One round of the search, on the base and the size of the range. -/
def binarySearchRound (f : α → Ordering) (xs : List α) (s : Nat × Nat) :
    Exec (ControlFlow (Nat × Nat) Nat) := do
  if 1 < s.2 then
    let half := s.2 / 2
    let mid := s.1 + half
    let a ← index xs mid
    return .again (if f a = .gt then s.1 else mid, s.2 - half)
  else return .stop s.1

/-- `binary_search_by`: the place of an equal element, or the error that carries the place
where it would be inserted. -/
def binarySearchBy (f : α → Ordering) (xs : List α) : Exec (Except Nat Nat) := do
  if xs.length = 0 then return .error 0
  else
    let base ← loop (binarySearchRound f xs) (xs.length + 1) (0, xs.length)
    let a ← index xs base
    match f a with
    | .eq => return .ok base
    | .lt => return .error (base + 1)
    | .gt => return .error base

/-- Behind an element that compares greater all do, and before one that compares less all
do. -/
def Partitioned (f : α → Ordering) (xs : List α) : Prop :=
  xs.Pairwise fun a b => (f a = .gt → f b = .gt) ∧ (f b = .lt → f a = .lt)

/-- The answer splits the slice at an equal element, or between the lesser and the greater
elements. -/
def Located (f : α → Ordering) (xs : List α) : Except Nat Nat → Prop
  | .ok i => ∃ l a r, xs = l ++ a :: r ∧ l.length = i ∧ f a = .eq
  | .error i => ∃ l r, xs = l ++ r ∧ l.length = i ∧ (∀ a ∈ l, f a = .lt) ∧ ∀ a ∈ r, f a = .gt

theorem located_error {i : Nat} (hi : i ≤ xs.length) (hlt : ∀ k (hk : k < xs.length), k < i →
    f xs[k] = .lt) (hgt : ∀ k (hk : k < xs.length), i ≤ k → f xs[k] = .gt) :
    Located f xs (.error i) := by
  refine ⟨xs.take i, xs.drop i, (List.take_append_drop i xs).symm, List.length_take_of_le hi,
    fun a ha => ?_, fun a ha => ?_⟩
  · obtain ⟨k, hk, rfl⟩ := List.mem_take_iff_getElem.mp ha
    exact hlt k (by omega) (by omega)
  · obtain ⟨k, hk, rfl⟩ := List.mem_drop_iff_getElem.mp ha
    exact hgt (i + k) (by omega) (by omega)

/-- The range always holds the last element that does not compare greater, if there is
one. -/
theorem loop_binarySearchRound (h : Partitioned f xs) (hne : xs.length ≠ 0) :
    Returns (loop (binarySearchRound f xs) (xs.length + 1) (0, xs.length)) fun base =>
      ∃ hbase : base < xs.length, (∀ k (hk : k < xs.length), base < k → f xs[k] = .gt) ∧
        (base = 0 ∨ f xs[base] ≠ .gt) := by
  have hpart := List.pairwise_iff_getElem.mp h
  refine loop_returns (fun s : Nat × Nat => 0 < s.2 ∧ ∃ hfits : s.1 + s.2 ≤ xs.length,
      (∀ k (hk : k < xs.length), s.1 + s.2 ≤ k → f xs[k] = .gt) ∧
      (s.1 = 0 ∨ ∃ hbase : s.1 < xs.length, f xs[s.1] ≠ .gt))
    (fun s => s.2) ?_ ⟨Nat.pos_of_ne_zero hne, Nat.le_of_eq (Nat.zero_add _),
      fun k hk hle => by omega, .inl rfl⟩ (Nat.lt_succ_self _)
  rintro ⟨base, size⟩ ⟨hpos, hfits, hgt, hbase⟩
  dsimp only at hpos hfits hgt hbase
  unfold binarySearchRound
  by_cases hmore : 1 < size
  · have hmid : base + size / 2 < xs.length := by omega
    simp only [if_pos hmore, index_eq_ok hmid, ok_bind, pure_eq_ok]
    by_cases hcmp : f xs[base + size / 2] = .gt
    · rw [if_pos hcmp]
      refine .ok ⟨⟨by omega, by omega, fun k hk hle => ?_, hbase⟩, by omega⟩
      -- From the middle on everything compares greater.
      rcases Nat.eq_or_lt_of_le (show base + size / 2 ≤ k by dsimp only at hle; omega) with
        rfl | hlt
      · exact hcmp
      · exact (hpart _ _ hmid hk hlt).1 hcmp
    · rw [if_neg hcmp]
      refine .ok ⟨⟨by omega, by dsimp only; omega, fun k hk hle => ?_, .inr ⟨hmid, hcmp⟩⟩,
        by omega⟩
      exact hgt k hk (by dsimp only at hle; omega)
  · rw [if_neg hmore]
    have hlast : base < xs.length := by omega
    refine .ok ⟨hlast, fun k hk hlt => hgt k hk (by omega), ?_⟩
    exact hbase.imp_right fun ⟨_, hcmp⟩ => hcmp

theorem binarySearchBy_spec (h : Partitioned f xs) :
    Returns (binarySearchBy f xs) (Located f xs) := by
  unfold binarySearchBy
  by_cases hempty : xs.length = 0
  · rw [if_pos hempty]
    exact .ok (located_error (by omega) (fun k hk => by omega) fun k hk => by omega)
  · rw [if_neg hempty]
    refine (loop_binarySearchRound h hempty).bind fun base ⟨hbase, hgt, hlow⟩ => ?_
    have hpart := List.pairwise_iff_getElem.mp h
    rw [index_eq_ok hbase, ok_bind]
    cases hcmp : f xs[base] with
    | eq =>
      refine .ok ⟨xs.take base, xs[base], xs.drop (base + 1), ?_,
        List.length_take_of_le (Nat.le_of_lt hbase), hcmp⟩
      rw [← List.drop_eq_getElem_cons hbase, List.take_append_drop]
    | lt =>
      refine .ok (located_error hbase (fun k hk hle => ?_) fun k hk hle => hgt k hk hle)
      rcases Nat.lt_succ_iff_lt_or_eq.mp hle with hlt | rfl
      · exact (hpart k base hk hbase hlt).2 hcmp
      · exact hcmp
    | gt =>
      -- Only the first element can still compare greater.
      obtain rfl : base = 0 := hlow.resolve_right fun hne => hne hcmp
      refine .ok (located_error (by omega) (fun k hk hle => by omega) fun k hk _ => ?_)
      rcases Nat.eq_zero_or_pos k with rfl | hpos
      · exact hcmp
      · exact hgt k hk hpos

end MerlionKernel.Rust
