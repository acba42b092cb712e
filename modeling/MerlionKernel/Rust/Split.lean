import MerlionKernel.Rust.Text

/-!
# Splitting text at a character

The parts of `str` that take a string apart at a character. A caller that skips the empty
pieces of a split sees only `pieces`, which do not change under repeated, leading or
trailing separators.
-/

namespace MerlionKernel.Rust

variable {c : Char} {s t : String}

/-- `s.split(c)`. -/
def split (s : String) (c : Char) : List String := (s.toList.splitOn c).map String.ofList

/-- `s.trim_start_matches(c)`. -/
def trimStartMatches (s : String) (c : Char) : String := String.ofList (s.toList.dropWhile (· == c))

/-- The last piece of a list of characters and what is in front of it. -/
def lastPiece (c : Char) : List Char → Option (List Char × List Char)
  | [] => none
  | d :: ds =>
    match lastPiece c ds with
    | some (front, last) => some (d :: front, last)
    | none => if d = c then some ([], ds) else none

/-- `s.rsplit_once(c)`: what is in front of the last `c`, and what is behind it. -/
def rsplitOnce (s : String) (c : Char) : Option (String × String) :=
  (lastPiece c s.toList).map fun (front, last) => (String.ofList front, String.ofList last)

/-- The pieces of a split that are not empty. -/
def pieces (s : String) (c : Char) : List String := (split s c).filter (· ≠ "")

/-! ### Pieces -/

theorem split_append (s t : String) (c : Char) :
    split (s ++ String.singleton c ++ t) c = split s c ++ split t c := by
  simp [split, List.splitOn_append_cons_self]

/-- A separator belongs to no piece. -/
theorem pieces_append (s t : String) (c : Char) :
    pieces (s ++ String.singleton c ++ t) c = pieces s c ++ pieces t c := by
  rw [pieces, split_append, List.filter_append]
  rfl

@[simp] theorem pieces_empty (c : Char) : pieces "" c = [] := by
  simp [pieces, split]

theorem pieces_singleton_append (c : Char) (t : String) :
    pieces (String.singleton c ++ t) c = pieces t c := by
  have h := pieces_append "" t c
  rwa [String.empty_append, pieces_empty, List.nil_append] at h

/-- Separators in front do not matter. -/
theorem pieces_replicate_append (n : Nat) (c : Char) (t : String) :
    pieces (String.ofList (List.replicate n c) ++ t) c = pieces t c := by
  induction n with
  | zero => simp
  | succ n ih =>
    have hstep : String.ofList (List.replicate (n + 1) c) ++ t =
        String.singleton c ++ (String.ofList (List.replicate n c) ++ t) := by
      simp [← String.toList_inj, List.replicate_succ]
    rw [hstep, pieces_singleton_append, ih]

theorem pieces_of_notMem (h : c ∉ s.toList) (hne : s ≠ "") : pieces s c = [s] := by
  simp [pieces, split, List.splitOn_eq_singleton h, hne]

theorem notMem_of_mem_splitOn {cs piece : List Char} (h : piece ∈ cs.splitOn c) : c ∉ piece := by
  induction cs generalizing piece with
  | nil =>
    rw [List.splitOn_nil, List.mem_singleton] at h
    simp [h]
  | cons d ds ih =>
    rw [List.splitOn_cons_eq_if_modifyHead] at h
    split at h
    · rcases List.mem_cons.mp h with rfl | h
      · simp
      · exact ih h
    · rename_i hd
      obtain ⟨first, rest, hsplit⟩ := List.exists_cons_of_ne_nil (List.splitOn_ne_nil c ds)
      rw [hsplit, List.modifyHead_cons] at h
      rw [hsplit] at ih
      rcases List.mem_cons.mp h with rfl | h
      · have hfirst := ih List.mem_cons_self
        simp only [beq_iff_eq] at hd
        simp [Ne.symm hd, hfirst]
      · exact ih (List.mem_cons_of_mem _ h)

theorem of_mem_pieces (h : t ∈ pieces s c) : t ≠ "" ∧ c ∉ t.toList := by
  obtain ⟨hsplit, hne⟩ := List.mem_filter.mp h
  obtain ⟨piece, hpiece, rfl⟩ := List.mem_map.mp hsplit
  refine ⟨of_decide_eq_true hne, ?_⟩
  rw [String.toList_ofList]
  exact notMem_of_mem_splitOn hpiece

/-- Trimming separators away changes no piece. -/
theorem pieces_trimStartMatches (s : String) (c : Char) :
    pieces (trimStartMatches s c) c = pieces s c := by
  have hchars : ∀ cs : List Char,
      pieces (String.ofList (cs.dropWhile (· == c))) c = pieces (String.ofList cs) c := by
    intro cs
    induction cs with
    | nil => rfl
    | cons d ds ih =>
      by_cases hd : d = c
      · subst hd
        have hcons : String.ofList (d :: ds) = String.singleton d ++ String.ofList ds := by
          simp
        rw [List.dropWhile_cons_of_pos (by simp), ih, hcons, pieces_singleton_append]
      · rw [List.dropWhile_cons_of_neg (by simpa using hd)]
  have h := hchars s.toList
  rwa [String.ofList_toList] at h

/-- A fold that skips the empty pieces of a split is a fold over the other ones. -/
theorem foldlM_split {α : Type} (f : α → String → Option α) (s : String) (c : Char) (a : α) :
    (split s c).foldlM (fun a piece => if piece = "" then some a else f a piece) a =
      (pieces s c).foldlM f a := by
  unfold pieces
  induction split s c generalizing a with
  | nil => rfl
  | cons piece rest ih =>
    rw [List.foldlM_cons]
    by_cases hne : piece = ""
    · rw [List.filter_cons_of_neg (by simpa using hne), if_pos hne]
      exact ih a
    · rw [List.filter_cons_of_pos (by simpa using hne), if_neg hne, List.foldlM_cons]
      congr 1
      funext a'
      exact ih a'

/-! ### The last separator -/

theorem lastPiece_eq_none_iff {cs : List Char} : lastPiece c cs = none ↔ c ∉ cs := by
  induction cs with
  | nil => simp [lastPiece]
  | cons d ds ih =>
    unfold lastPiece
    split
    · rename_i hsome
      have hmem : c ∈ ds := by
        by_contra hnot
        rw [ih.mpr hnot] at hsome
        cases hsome
      simp [hmem]
    · rename_i hnone
      have hds := ih.mp hnone
      by_cases hd : d = c
      · simp [hd]
      · simp [hd, hds, Ne.symm hd]

theorem lastPiece_append {front last : List Char} (h : c ∉ last) :
    lastPiece c (front ++ c :: last) = some (front, last) := by
  induction front with
  | nil =>
    rw [List.nil_append, lastPiece, lastPiece_eq_none_iff.mpr h]
    simp
  | cons d front ih =>
    rw [List.cons_append, lastPiece, ih]

theorem of_lastPiece {cs front last : List Char} (h : lastPiece c cs = some (front, last)) :
    cs = front ++ c :: last ∧ c ∉ last := by
  induction cs generalizing front with
  | nil => cases h
  | cons d ds ih =>
    unfold lastPiece at h
    split at h
    · rename_i front' last' hsome
      cases h
      obtain ⟨hds, hlast⟩ := ih hsome
      exact ⟨by rw [hds]; rfl, hlast⟩
    · rename_i hnone
      split at h
      · rename_i hd
        cases h
        exact ⟨by rw [hd]; rfl, lastPiece_eq_none_iff.mp hnone⟩
      · cases h

/-- The split at the last separator. -/
theorem rsplitOnce_eq_some_iff {front last : String} :
    rsplitOnce s c = some (front, last) ↔
      s = front ++ String.singleton c ++ last ∧ c ∉ last.toList := by
  constructor
  · intro h
    obtain ⟨⟨front', last'⟩, hpiece, heq⟩ := Option.map_eq_some_iff.mp h
    obtain ⟨hs, hlast⟩ := of_lastPiece hpiece
    cases heq
    refine ⟨?_, by rwa [String.toList_ofList]⟩
    rw [← String.toList_inj, hs]
    simp
  · rintro ⟨rfl, hlast⟩
    have hpiece : lastPiece c (front.toList ++ c :: last.toList) =
        some (front.toList, last.toList) := lastPiece_append hlast
    rw [rsplitOnce]
    simp [hpiece]

end MerlionKernel.Rust
