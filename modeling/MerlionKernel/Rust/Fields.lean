import MerlionKernel.Rust.Bytes

/-!
# Blocks written field by field

A header is written into a block of zeros one field after the other. `Built` records the
fields in the order they were written; the block then shows each field that no later one
overlaps, and zeros where nothing was written.
-/

namespace MerlionKernel.Rust

/-- Write the fields, each given by its position and its bytes. -/
def splices (buf : Bytes) (fields : List (Nat × Bytes)) : Bytes :=
  fields.foldl (fun buf field => splice buf field.1 field.2) buf

/-- The fields lie inside a buffer of `n` bytes. -/
def Fits (n : Nat) (fields : List (Nat × Bytes)) : Prop :=
  ∀ field ∈ fields, field.1 + field.2.length ≤ n

/-- The fields do not overlap the `len` bytes from `lo` on. -/
def Apart (lo len : Nat) (fields : List (Nat × Bytes)) : Prop :=
  ∀ field ∈ fields, lo + len ≤ field.1 ∨ field.1 + field.2.length ≤ lo

section Splices

variable {buf : Bytes} {fields : List (Nat × Bytes)} {lo len : Nat}

theorem length_splices (hfits : Fits buf.length fields) :
    (splices buf fields).length = buf.length := by
  induction fields generalizing buf with
  | nil => rfl
  | cons field fields ih =>
    obtain ⟨hfield, hfields⟩ := List.forall_mem_cons.mp hfits
    have hlen := length_splice hfield
    rw [splices, List.foldl_cons, ← hlen]
    exact ih (by rwa [Fits, hlen])

theorem byteAt_splices {j : Nat} (hfits : Fits buf.length fields) (hapart : Apart j 1 fields) :
    byteAt (splices buf fields) j = byteAt buf j := by
  induction fields generalizing buf with
  | nil => rfl
  | cons field fields ih =>
    obtain ⟨hfield, hfields⟩ := List.forall_mem_cons.mp hfits
    obtain ⟨hj, hrest⟩ := List.forall_mem_cons.mp hapart
    rw [splices, List.foldl_cons]
    refine (ih (by rwa [Fits, length_splice hfield]) hrest).trans ?_
    rw [byteAt_splice hfield, if_neg (by omega)]

theorem window_splices (hfits : Fits buf.length fields) (hapart : Apart lo len fields)
    (hlen : lo + len ≤ buf.length) : window (splices buf fields) lo len = window buf lo len := by
  refine window_congr hlen (by rwa [length_splices hfits]) fun j hlo hhi => ?_
  refine byteAt_splices hfits fun field hfield => ?_
  have hside := hapart field hfield
  omega

end Splices

/-- A block of `n` zeros with the fields written into it. -/
structure Built (n : Nat) (fields : List (Nat × Bytes)) (buf : Bytes) : Prop where
  fits : Fits n fields
  eq_splices : buf = splices (List.replicate n 0) fields

namespace Built

variable {n lo hi len : Nat} {fields after : List (Nat × Bytes)} {buf src : Bytes}

theorem zeros (n : Nat) : Built n [] (List.replicate n 0) :=
  ⟨fun _ hfield => (List.not_mem_nil hfield).elim, rfl⟩

theorem length_eq (h : Built n fields buf) : buf.length = n := by
  rw [h.eq_splices, length_splices (by rw [List.length_replicate]; exact h.fits),
    List.length_replicate]

theorem splice (h : Built n fields buf) (hsrc : lo + src.length ≤ n) :
    Built n (fields ++ [(lo, src)]) (splice buf lo src) := by
  refine ⟨?_, ?_⟩
  · intro field hfield
    rcases List.mem_append.mp hfield with hfield | hfield
    · exact h.fits field hfield
    · rw [List.mem_singleton.mp hfield]
      exact hsrc
  · rw [splices, List.foldl_append, h.eq_splices]
    rfl

/-! ### The writes -/

theorem copy (h : Built n fields buf) (hsrc : hi = lo + src.length) (hhi : hi ≤ n) :
    Returns (copyFromSlice buf lo hi src) (Built n (fields ++ [(lo, src)])) := by
  rw [copyFromSlice_eq_ok hsrc (by rwa [h.length_eq])]
  exact .ok (h.splice (by omega))

theorem modify {f : Bytes → Exec Bytes} (h : Built n fields buf) (hle : lo ≤ hi) (hhi : hi ≤ n)
    (hf : ∀ part : Bytes, part.length = hi - lo → f part = .ok src) (hsrc : src.length = hi - lo) :
    Returns (modifySlice buf lo hi f) (Built n (fields ++ [(lo, src)])) := by
  have hhi' : hi ≤ buf.length := by rwa [h.length_eq]
  rw [modifySlice_eq_ok hle hhi' (hf _ (length_window (by omega)))]
  exact .ok (h.splice (by omega))

theorem store (h : Built n fields buf) (a : UInt8) (hlo : lo < n) :
    Returns (store buf lo a) (Built n (fields ++ [(lo, [a])])) := by
  have hlo' : lo < buf.length := by rwa [h.length_eq]
  rw [store_eq_ok a hlo', List.set_eq_take_append_cons_drop, if_pos hlo',
    List.append_cons]
  exact .ok (h.splice hlo)

/-! ### The block -/

/-- Bytes that no field covers are zero. -/
theorem window_untouched (h : Built n fields buf) (hapart : Apart lo len fields)
    (hlen : lo + len ≤ n) : window buf lo len = List.replicate len 0 := by
  rw [h.eq_splices, window_splices _ hapart _]
  · rw [window, List.drop_replicate, List.take_replicate, Nat.min_eq_left (by omega)]
  · rw [List.length_replicate]
    exact h.fits
  · rwa [List.length_replicate]

/-- Fields written later do not change the bytes they do not cover. -/
theorem byteAt_of_append {buf' : Bytes} (h : Built n fields buf)
    (h' : Built n (fields ++ after) buf') {j : Nat} (hapart : Apart j 1 after) :
    byteAt buf' j = byteAt buf j := by
  have hfits : Fits buf.length after := by
    rw [h.length_eq]
    exact fun field hfield => h'.fits field (List.mem_append_right _ hfield)
  rw [h'.eq_splices, splices, List.foldl_append]
  rw [h.eq_splices] at hfits ⊢
  exact byteAt_splices hfits hapart

/-- A field that no later one overlaps is read as it was written. -/
theorem window_eq {k : Nat} (h : Built n fields buf) (hk : fields[k]? = some (lo, src))
    (hapart : Apart lo src.length (fields.drop (k + 1))) : window buf lo src.length = src := by
  obtain ⟨hlt, hfield⟩ := List.getElem?_eq_some_iff.mp hk
  have hsplit : fields = fields.take k ++ (lo, src) :: fields.drop (k + 1) := by
    rw [← hfield, List.getElem_cons_drop, List.take_append_drop]
  generalize fields.take k = before at hsplit
  generalize fields.drop (k + 1) = after at hsplit hapart
  subst hsplit
  have hbefore : Built n before (splices (List.replicate n 0) before) :=
    ⟨fun field hfield => h.fits field (List.mem_append_left _ hfield), rfl⟩
  have hfield : lo + src.length ≤ n :=
    h.fits (lo, src) (List.mem_append_right _ List.mem_cons_self)
  have hlast := hbefore.splice hfield
  have hafter : Fits (Rust.splice (splices (List.replicate n 0) before) lo src).length after := by
    rw [hlast.length_eq]
    exact fun field hmem =>
      h.fits field (List.mem_append_right _ (List.mem_cons_of_mem _ hmem))
  rw [h.eq_splices, splices, List.foldl_append, List.foldl_cons]
  refine (window_splices hafter hapart (by rwa [hlast.length_eq])).trans ?_
  exact window_splice_self (by rwa [hbefore.length_eq])

end Built

end MerlionKernel.Rust
