import Mathlib.Data.List.Basic
import Mathlib.Data.List.Induction

/-!
# The dynamic table of HPACK

The `HpackDynamicTable` of `http2.rs`. An entry counts with the lengths of its name and value and
an overhead of 32. Before an entry is inserted, old ones are evicted until it has room; one that is
larger than the whole table empties it and is not inserted.

So the table is a window on the history of insertions: it holds the longest final part of the
history that fits, and nothing else is known of the history from it.
-/

namespace MerlionKernel.Http2

/-- A name and a value. -/
abbrev Header := String × String

/-- The size of an entry in the table. -/
def entrySize (e : Header) : Nat := e.1.utf8ByteSize + e.2.utf8ByteSize + 32

/-- The size of some entries together. -/
def totalSize : List Header → Nat
  | [] => 0
  | e :: es => entrySize e + totalSize es

@[simp] theorem totalSize_nil : totalSize [] = 0 := rfl

@[simp] theorem totalSize_cons (e : Header) (es : List Header) :
    totalSize (e :: es) = entrySize e + totalSize es := rfl

@[simp] theorem totalSize_append (es es' : List Header) :
    totalSize (es ++ es') = totalSize es + totalSize es' := by
  induction es with
  | nil => rw [List.nil_append, totalSize_nil, Nat.zero_add]
  | cons e es ih => rw [List.cons_append, totalSize_cons, totalSize_cons, ih, Nat.add_assoc]

@[simp] theorem totalSize_reverse (es : List Header) : totalSize es.reverse = totalSize es := by
  induction es with
  | nil => rfl
  | cons e es ih =>
    rw [List.reverse_cons, totalSize_append, ih, totalSize_cons, totalSize_cons, totalSize_nil]
    omega

/-- The table, with the newest entry first. -/
structure HpackDynamicTable where
  entries : List Header
  size : Nat
  maxSize : Nat

namespace HpackDynamicTable

/-- An empty table of the size `DEFAULT_HEADER_TABLE_SIZE`. -/
def new : HpackDynamicTable := ⟨[], 0, 4096⟩

/-- Evict entries from the end until there is room. -/
def evict (t : HpackDynamicTable) (room : Nat) : HpackDynamicTable :=
  if h : t.size + room > t.maxSize ∧ t.entries ≠ [] then
    evict { t with
      entries := t.entries.dropLast
      size := t.size - entrySize (t.entries.getLast h.2) } room
  else t
termination_by t.entries.length
decreasing_by
  have := List.length_pos_of_ne_nil h.2
  simp only [List.length_dropLast]
  omega

/-- Insert an entry, unless the whole table is too small for it. -/
def add (t : HpackDynamicTable) (e : Header) : HpackDynamicTable :=
  let t := t.evict (entrySize e)
  if entrySize e ≤ t.maxSize then
    { t with entries := e :: t.entries, size := t.size + entrySize e }
  else t

/-- Insert the entries in order. -/
def addAll (t : HpackDynamicTable) (history : List Header) : HpackDynamicTable :=
  history.foldl add t

/-! ### What is evicted -/

/-- `kept` is the longest first part of `es` that leaves room for `room`. -/
structure LongestFitting (limit room : Nat) (es kept : List Header) : Prop where
  isPrefix : kept <+: es
  fits : totalSize kept + room ≤ limit ∨ kept = []
  longest : ∀ p, p <+: es → totalSize p + room ≤ limit → p <+: kept

/-- If the last entry has to go, what is left is searched in the same way. -/
theorem LongestFitting.of_dropLast {limit room : Nat} {es kept : List Header} (hne : es ≠ [])
    (hfull : limit < totalSize es + room) (h : LongestFitting limit room es.dropLast kept) :
    LongestFitting limit room es kept where
  isPrefix := h.isPrefix.trans (List.dropLast_prefix es)
  fits := h.fits
  longest := by
    intro p hp hfits
    have hsplit := List.dropLast_append_getLast hne
    rw [← hsplit, List.prefix_concat_iff, hsplit] at hp
    rcases hp with rfl | hp
    · omega
    · exact h.longest p hp hfits

/-- The size that the table records is the size of its entries. -/
def Counted (t : HpackDynamicTable) : Prop := t.size = totalSize t.entries

theorem evict_spec {t : HpackDynamicTable} (room : Nat) (h : t.Counted) :
    (t.evict room).Counted ∧ (t.evict room).maxSize = t.maxSize ∧
      LongestFitting t.maxSize room t.entries (t.evict room).entries := by
  fun_induction evict t room with
  | case1 t hgo ih =>
    obtain ⟨hfull, hne⟩ := hgo
    have htotal := congrArg totalSize (List.dropLast_append_getLast hne)
    rw [totalSize_append, totalSize_cons, totalSize_nil] at htotal
    have hcount : t.size = totalSize t.entries := h
    obtain ⟨hcounted, hmax, hlongest⟩ := ih (by simp only [Counted]; omega)
    exact ⟨hcounted, hmax, hlongest.of_dropLast hne (by omega)⟩
  | case2 t hstop =>
    refine ⟨h, rfl, List.prefix_rfl, ?_, fun p hp _ => hp⟩
    by_cases hne : t.entries = []
    · exact .inr hne
    · left
      have hcount : t.size = totalSize t.entries := h
      by_contra hfull
      exact hstop ⟨by omega, hne⟩

/-! ### The window on the history -/

/-- The table holds the longest part of the history, newest first, that fits. -/
structure Window (t : HpackDynamicTable) (newest : List Header) : Prop where
  counted : t.Counted
  longest : LongestFitting t.maxSize 0 newest t.entries

theorem Window.size_le {t : HpackDynamicTable} {newest : List Header} (h : t.Window newest) :
    t.size ≤ t.maxSize := by
  have hcount : t.size = totalSize t.entries := h.counted
  rcases h.longest.fits with hfits | hnil
  · omega
  · rw [hcount, hnil, totalSize_nil]
    exact Nat.zero_le _

theorem add_maxSize {t : HpackDynamicTable} (h : t.Counted) (e : Header) :
    (t.add e).maxSize = t.maxSize := by
  rw [add]
  split
  · exact (evict_spec _ h).2.1
  · exact (evict_spec _ h).2.1

theorem Window.add {t : HpackDynamicTable} {newest : List Header} (h : t.Window newest)
    (e : Header) : (t.add e).Window (e :: newest) := by
  obtain ⟨hcounted, hmax, hlongest⟩ := evict_spec (entrySize e) h.counted
  -- A part of the history that fits together with the entry is among those that were kept.
  have hkept : ∀ p, p <+: newest → totalSize p + entrySize e ≤ t.maxSize →
      p <+: (t.evict (entrySize e)).entries := by
    intro p hp hfits
    exact hlongest.longest p (h.longest.longest p hp (by omega)) hfits
  by_cases hle : entrySize e ≤ t.maxSize
  · rw [HpackDynamicTable.add, if_pos (hmax ▸ hle)]
    refine ⟨?_, ?_, ?_, ?_⟩
    · simp only [Counted, totalSize_cons]
      rw [hcounted, Nat.add_comm]
    · exact List.cons_prefix_cons.mpr ⟨rfl, hlongest.isPrefix.trans h.longest.isPrefix⟩
    · left
      simp only [totalSize_cons, hmax]
      rcases hlongest.fits with hfits | hnil
      · omega
      · rw [hnil, totalSize_nil]
        exact hle
    · intro p hp hfits
      rcases List.prefix_cons_iff.mp hp with rfl | ⟨rest, rfl, hrest⟩
      · exact List.nil_prefix
      · simp only [totalSize_cons, hmax] at hfits
        exact List.cons_prefix_cons.mpr ⟨rfl, hkept rest hrest (by omega)⟩
  · rw [HpackDynamicTable.add, if_neg (hmax ▸ hle)]
    -- Nothing fits together with the entry, so the table is empty.
    have hnil : (t.evict (entrySize e)).entries = [] := hlongest.fits.resolve_left (by omega)
    refine ⟨hcounted, ?_, .inr hnil, ?_⟩
    · rw [hnil]
      exact List.nil_prefix
    · intro p hp hfits
      rcases List.prefix_cons_iff.mp hp with rfl | ⟨rest, rfl, -⟩
      · exact List.nil_prefix
      · simp only [totalSize_cons, hmax] at hfits
        omega

theorem window_addAll (history : List Header) :
    (new.addAll history).Window history.reverse ∧ (new.addAll history).maxSize = new.maxSize := by
  induction history using List.reverseRecOn with
  | nil =>
    exact ⟨⟨rfl, List.prefix_rfl, .inr rfl, fun p hp _ => hp⟩, rfl⟩
  | append_singleton history e ih =>
    obtain ⟨hwindow, hmax⟩ := ih
    rw [addAll, List.foldl_append, List.reverse_append]
    exact ⟨hwindow.add e, (add_maxSize hwindow.counted e).trans hmax⟩

/-- Whatever is inserted, the recorded size is that of the entries and within the limit, and the
entries are the longest final part of the history that fits, the newest first. -/
theorem entries_longest_suffix (history : List Header) :
    let t := new.addAll history
    t.size = totalSize t.entries ∧ t.size ≤ new.maxSize ∧
      ∃ kept, kept <:+ history ∧ t.entries = kept.reverse ∧ totalSize kept ≤ new.maxSize ∧
        ∀ s, s <:+ history → totalSize s ≤ new.maxSize → s.length ≤ kept.length := by
  obtain ⟨hwindow, hmax⟩ := window_addAll history
  have hsize := hmax ▸ hwindow.size_le
  refine ⟨hwindow.counted, hsize, (new.addAll history).entries.reverse, ?_, ?_, ?_, ?_⟩
  · rw [← List.reverse_prefix, List.reverse_reverse]
    exact hwindow.longest.isPrefix
  · rw [List.reverse_reverse]
  · rw [totalSize_reverse]
    exact hwindow.counted ▸ hsize
  · intro s hs hfits
    have hprefix : s.reverse <+: (new.addAll history).entries := by
      refine hwindow.longest.longest _ ?_ ?_
      · rwa [List.reverse_prefix]
      · rw [totalSize_reverse, hmax]
        exact hfits
    simpa using hprefix.length_le

/-- After the same last insertions, together larger than the limit, two tables hold the same
entries, whatever was inserted before. -/
theorem entries_eq_of_recent (old old' recent : List Header)
    (hfull : new.maxSize < totalSize recent) :
    (new.addAll (old ++ recent)).entries = (new.addAll (old' ++ recent)).entries := by
  have hle : ∀ old old',
      (new.addAll (old ++ recent)).entries <+: (new.addAll (old' ++ recent)).entries := by
    intro old old'
    obtain ⟨hwindow, hmax⟩ := window_addAll (old ++ recent)
    obtain ⟨hwindow', hmax'⟩ := window_addAll (old' ++ recent)
    have hfits : totalSize (new.addAll (old ++ recent)).entries ≤ new.maxSize :=
      hwindow.counted ▸ hmax ▸ hwindow.size_le
    refine hwindow'.longest.longest _ ?_ (hmax'.symm ▸ hfits)
    -- What fits does not reach behind the recent insertions.
    have hpart := hwindow.longest.isPrefix
    have hrecent : ∀ old, recent.reverse <+: (old ++ recent).reverse := by simp
    refine ((List.prefix_or_prefix_of_prefix hpart (hrecent old)).resolve_right ?_).trans
      (hrecent old')
    rintro ⟨rest, hrest⟩
    rw [← hrest, totalSize_append, totalSize_reverse] at hfits
    omega
  exact (hle old old').eq_of_length_le (hle old' old).length_le

/-- The smallest entries count 32, so 129 of them are enough. -/
theorem entries_eq_of_129 :
    (new.addAll ([("a", "b")] ++ List.replicate 129 ("", ""))).entries =
      (new.addAll ([] ++ List.replicate 129 ("", ""))).entries :=
  entries_eq_of_recent _ _ _ (by decide +kernel)

end HpackDynamicTable

end MerlionKernel.Http2
