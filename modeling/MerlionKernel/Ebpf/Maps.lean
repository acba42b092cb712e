import MerlionKernel.Rust.Bytes
import MerlionKernel.Rust.Find
import MerlionKernel.Theory.Run

/-!
# Maps of the eBPF subsystem

The `EbpfMap` of `ebpf.rs`: a vector of keys and values in the order in which the keys were stored.
Beside it runs what the map is for, a list of the same entries in the order of their last use. The
two agree as long as an entry that a full LRU map gives up is the first one of both lists: the
vector is never put in the order of use.
-/

namespace MerlionKernel.Ebpf

open Rust Theory

/-- The types of maps. -/
inductive MapType
  | hashMap
  | array
  | perCpuArray
  | lruHash
  | ringBuffer
  deriving DecidableEq

/-- A key with its value. -/
abbrev Entry := Bytes × Bytes

/-- A map. -/
structure EbpfMap where
  id : Nat
  mapType : MapType
  keySize : Nat
  valueSize : Nat
  maxEntries : Nat
  entries : List Entry

/-- The entry has the key. -/
def hasKey (key : Bytes) (e : Entry) : Bool := e.1 == key

namespace EbpfMap

def new (id : Nat) (mapType : MapType) (keySize valueSize maxEntries : Nat) : EbpfMap where
  id := id
  mapType := mapType
  keySize := keySize
  valueSize := valueSize
  maxEntries := maxEntries
  entries := []

def lookup (m : EbpfMap) (key : Bytes) : Option Bytes :=
  (m.entries.find? (hasKey key)).map Prod.snd

/-- Store a value: in the entry of the key, or in a new one. -/
def update (m : EbpfMap) (key value : Bytes) : Except String Unit × EbpfMap :=
  if key.length ≠ m.keySize then (.error "key size mismatch", m)
  else if value.length ≠ m.valueSize then (.error "value size mismatch", m)
  else if (m.entries.find? (hasKey key)).isSome then
    (.ok (), { m with entries := modifyFirst (hasKey key) (fun e => (e.1, value)) m.entries })
  else if m.entries.length ≥ m.maxEntries then
    if m.mapType = .lruHash ∧ ¬ m.entries.isEmpty then
      (.ok (), { m with entries := m.entries.tail ++ [(key, value)] })
    else (.error "map full", m)
  else (.ok (), { m with entries := m.entries ++ [(key, value)] })

def delete (m : EbpfMap) (key : Bytes) : Bool × EbpfMap :=
  match m.entries.findIdx? (hasKey key) with
  | some pos => (true, { m with entries := m.entries.eraseIdx pos })
  | none => (false, m)

end EbpfMap

/-! ### The purpose of a map -/

/-- An operation on a map. -/
inductive Op
  | lookup (key : Bytes)
  | update (key value : Bytes)
  | delete (key : Bytes)

/-- A map, and the entries that it is to have, the one used longest ago first. -/
structure Tracked where
  map : EbpfMap
  recent : List Entry

/-- The entries of other keys. -/
def others (key : Bytes) (es : List Entry) : List Entry := es.filter fun e => !hasKey key e

/-- An entry that is looked up is the last one used. -/
def used (key : Bytes) (es : List Entry) : List Entry :=
  match es.find? (hasKey key) with
  | some e => others key es ++ [e]
  | none => es

/-- What a map of this type and size is to have after an update: the value under its key. Only when
the key is new and the map is full an entry is given up, and only by an LRU map: the one used
longest ago. Any other full map stays as it is. -/
def stored (m : EbpfMap) (key value : Bytes) (es : List Entry) : List Entry :=
  if key.length ≠ m.keySize ∨ value.length ≠ m.valueSize then es
  else if (es.find? (hasKey key)).isSome then others key es ++ [(key, value)]
  else if es.length ≥ m.maxEntries then
    if m.mapType = .lruHash ∧ ¬ es.isEmpty then es.tail ++ [(key, value)] else es
  else es ++ [(key, value)]

namespace Tracked

/-- A new map. -/
def new (id : Nat) (mapType : MapType) (keySize valueSize maxEntries : Nat) : Tracked :=
  ⟨.new id mapType keySize valueSize maxEntries, []⟩

/-- An operation on both. -/
def step (t : Tracked) : Op → Exec Tracked
  | .lookup key => return { t with recent := used key t.recent }
  | .update key value => return ⟨(t.map.update key value).2, stored t.map key value t.recent⟩
  | .delete key => return ⟨(t.map.delete key).2, others key t.recent⟩

/-- The keys of the map are unique, it has at most as many entries as it may have, and a lookup
returns what is to be there. -/
def Agrees (t : Tracked) : Prop :=
  (t.map.entries.map Prod.fst).Nodup ∧ t.map.entries.length ≤ t.map.maxEntries ∧
    ∀ key, t.map.lookup key = (t.recent.find? (hasKey key)).map Prod.snd

/-- Where an LRU map is full and a new key is stored, the key that was stored first is the one that
was used longest ago. -/
def OldestUnused (t : Tracked) : Op → Prop
  | .update key value =>
    key.length = t.map.keySize → value.length = t.map.valueSize → t.map.lookup key = none →
      t.map.maxEntries ≤ t.map.entries.length → t.map.mapType = .lruHash →
        t.map.entries.head?.map Prod.fst = t.recent.head?.map Prod.fst
  | _ => True

end Tracked

/-! ### Entries with unique keys -/

section Entries

variable {es es' : List Entry} {key : Bytes} {e : Entry}

theorem hasKey_iff : hasKey key e = true ↔ e.1 = key := beq_iff_eq

/-- An entry that is found is the only one of its key. -/
theorem exists_split (hnodup : (es.map Prod.fst).Nodup) (h : es.find? (hasKey key) = some e) :
    ∃ l r, es = l ++ e :: r ∧ others key es = l ++ r ∧ e.1 = key ∧
      (∀ x ∈ l, hasKey key x = false) := by
  obtain ⟨hkey, l, r, rfl, hl⟩ := List.find?_eq_some_iff_append.mp h
  have hl' : ∀ x ∈ l, hasKey key x = false := fun x hx => by simpa using hl x hx
  have hr : ∀ x ∈ r, hasKey key x = false := by
    intro x hx
    rw [List.map_append, List.map_cons, List.nodup_append] at hnodup
    have hne := (List.nodup_cons.mp hnodup.2.1).1
    rw [← Bool.not_eq_true, hasKey_iff]
    intro hx'
    exact hne (hasKey_iff.mp hkey ▸ hx' ▸ List.mem_map_of_mem hx)
  -- neither side has the key, so filtering takes out `e` alone
  refine ⟨l, r, rfl, ?_, hasKey_iff.mp hkey, hl'⟩
  rw [others, List.filter_append, List.filter_cons_of_neg (by simp [hkey]),
    List.filter_eq_self.mpr fun x hx => by simp [hl' x hx],
    List.filter_eq_self.mpr fun x hx => by simp [hr x hx]]

theorem find?_eq_some_iff (hnodup : (es.map Prod.fst).Nodup) :
    es.find? (hasKey key) = some e ↔ e ∈ es ∧ e.1 = key := by
  constructor
  · exact fun h => ⟨List.mem_of_find?_eq_some h, hasKey_iff.mp (List.find?_some h)⟩
  · rintro ⟨hmem, hkey⟩
    obtain ⟨x, hx⟩ : ∃ x, es.find? (hasKey key) = some x :=
      Option.isSome_iff_exists.mp (List.find?_isSome.mpr ⟨e, hmem, hasKey_iff.mpr hkey⟩)
    have hsame := List.inj_on_of_nodup_map hnodup hmem (List.mem_of_find?_eq_some hx)
      (hkey.trans (hasKey_iff.mp (List.find?_some hx)).symm)
    rw [hx, hsame]

/-- The order of the entries does not matter for a lookup. -/
theorem find?_eq_of_perm (hnodup : (es.map Prod.fst).Nodup) (h : es.Perm es') (key : Bytes) :
    es.find? (hasKey key) = es'.find? (hasKey key) := by
  have hnodup' : (es'.map Prod.fst).Nodup := (h.map Prod.fst).nodup_iff.mp hnodup
  apply Option.ext
  intro e
  rw [find?_eq_some_iff hnodup, find?_eq_some_iff hnodup', h.mem_iff]

theorem nodup_others (hnodup : (es.map Prod.fst).Nodup) :
    ((others key es).map Prod.fst).Nodup :=
  hnodup.sublist (List.filter_sublist.map Prod.fst)

/-- Using an entry changes only the order. -/
theorem used_perm (hnodup : (es.map Prod.fst).Nodup) (key : Bytes) : (used key es).Perm es := by
  unfold used
  cases hfind : es.find? (hasKey key) with
  | none => exact .refl _
  | some e =>
    obtain ⟨l, r, heq, hothers, -, -⟩ := exists_split hnodup hfind
    dsimp only
    rw [hothers, heq]
    exact (List.perm_append_singleton e (l ++ r)).trans List.perm_middle.symm

/-- A value that is stored under a key that is there. -/
theorem modifyFirst_perm (hnodup : (es.map Prod.fst).Nodup)
    (h : es.find? (hasKey key) = some e) (value : Bytes) :
    (modifyFirst (hasKey key) (fun e => (e.1, value)) es).Perm
      (others key es ++ [(key, value)]) := by
  obtain ⟨l, r, heq, hothers, hkey, hl⟩ := exists_split hnodup h
  have hmodify : modifyFirst (hasKey key) (fun e => (e.1, value)) es = l ++ (key, value) :: r := by
    rw [heq]
    clear heq hothers h hnodup
    induction l with
    | nil => rw [List.nil_append, modifyFirst, if_pos (hasKey_iff.mpr hkey), hkey, List.nil_append]
    | cons x l ih =>
      rw [List.forall_mem_cons] at hl
      rw [List.cons_append, modifyFirst, if_neg (by simp [hl.1]), ih hl.2, List.cons_append]
  rw [hmodify, hothers]
  exact List.perm_middle.trans (List.perm_append_singleton (key, value) (l ++ r)).symm

end Entries

/-! ### Agreement -/

namespace Tracked

/-- The map has the entries that are to be there, in some order. -/
structure Inv (t : Tracked) : Prop where
  nodup : (t.map.entries.map Prod.fst).Nodup
  bounded : t.map.entries.length ≤ t.map.maxEntries
  perm : t.map.entries.Perm t.recent

theorem Inv.find?_eq {t : Tracked} (h : t.Inv) (key : Bytes) :
    t.map.entries.find? (hasKey key) = t.recent.find? (hasKey key) :=
  find?_eq_of_perm h.nodup h.perm key

theorem Inv.agrees {t : Tracked} (h : t.Inv) : t.Agrees :=
  ⟨h.nodup, h.bounded, fun key => by rw [EbpfMap.lookup, h.find?_eq key]⟩

theorem inv_new (id : Nat) (mapType : MapType) (keySize valueSize maxEntries : Nat) :
    (new id mapType keySize valueSize maxEntries).Inv :=
  ⟨List.nodup_nil, Nat.zero_le _, .refl _⟩

theorem Inv.recent_nodup {t : Tracked} (h : t.Inv) : (t.recent.map Prod.fst).Nodup :=
  (h.perm.map Prod.fst).nodup_iff.mp h.nodup

/-- A new entry behind those that stay. -/
theorem Inv.concat {m : EbpfMap} {es es' : List Entry} {key value : Bytes}
    (hnodup : (es.map Prod.fst).Nodup) (hnew : ∀ e ∈ es, e.1 ≠ key) (hperm : es.Perm es')
    (hroom : es.length < m.maxEntries) :
    Inv ⟨{ m with entries := es ++ [(key, value)] }, es' ++ [(key, value)]⟩ where
  nodup := nodup_map_concat hnodup hnew
  bounded := by simpa using Nat.succ_le_of_lt hroom
  perm := hperm.append_right _

theorem Inv.lookup {t : Tracked} (h : t.Inv) (key : Bytes) :
    Inv { t with recent := used key t.recent } :=
  ⟨h.nodup, h.bounded, h.perm.trans (used_perm h.recent_nodup key).symm⟩

theorem Inv.delete {t : Tracked} (h : t.Inv) (key : Bytes) :
    Inv ⟨(t.map.delete key).2, others key t.recent⟩ := by
  have hothers : (others key t.map.entries).Perm (others key t.recent) := h.perm.filter _
  have herase := @List.eraseP_eq_eraseIdx _ t.map.entries (hasKey key)
  unfold EbpfMap.delete
  cases hidx : t.map.entries.findIdx? (hasKey key) with
  | none =>
    have hnone : others key t.map.entries = t.map.entries :=
      List.filter_eq_self.mpr fun e he => by simp [List.findIdx?_eq_none_iff.mp hidx e he]
    exact ⟨h.nodup, h.bounded, hnone ▸ hothers⟩
  | some pos =>
    obtain ⟨e, -, hfind, -⟩ := find?_of_findIdx? hidx
    obtain ⟨l, r, heq, hsplit, hkey, hl⟩ := exists_split h.nodup hfind
    -- the source removes by position; with unique keys that is the same
    have hgone : t.map.entries.eraseIdx pos = others key t.map.entries := by
      rw [hidx] at herase
      dsimp only at herase
      rw [← herase, hsplit, heq, List.eraseP_append_right _ fun x hx => by simp [hl x hx],
        List.eraseP_cons_of_pos (hasKey_iff.mpr hkey)]
    dsimp only
    refine ⟨?_, ?_, ?_⟩
    · dsimp only
      rw [hgone]
      exact nodup_others h.nodup
    · exact (List.length_eraseIdx_le _ _).trans h.bounded
    · dsimp only
      rw [hgone]
      exact hothers

/-- A full LRU map takes a new key. -/
structure Evicts (t : Tracked) (key value : Bytes) : Prop where
  keySize : key.length = t.map.keySize
  valueSize : value.length = t.map.valueSize
  absent : t.map.entries.find? (hasKey key) = none
  full : t.map.maxEntries ≤ t.map.entries.length
  lru : t.map.mapType = .lruHash
  nonempty : t.map.entries ≠ []

/-- What is given up is the first entry of either list. -/
theorem Inv.evicted {t : Tracked} (h : t.Inv) {key value : Bytes} (hevicts : t.Evicts key value) :
    ∃ a es b es', t.map.entries = a :: es ∧ t.recent = b :: es' ∧
      (t.map.update key value).2 = { t.map with entries := es ++ [(key, value)] } ∧
      stored t.map key value t.recent = es' ++ [(key, value)] := by
  obtain ⟨hkey, hvalue, habsent, hfull, hlru, hne⟩ := hevicts
  have hrecent : t.recent ≠ [] := fun hnil => hne (List.perm_nil.mp (hnil ▸ h.perm))
  obtain ⟨a, es, hentries⟩ := List.exists_cons_of_ne_nil hne
  obtain ⟨b, es', hrecent'⟩ := List.exists_cons_of_ne_nil hrecent
  have habsent' : t.recent.find? (hasKey key) = none := h.find?_eq key ▸ habsent
  have hfull' : t.recent.length ≥ t.map.maxEntries := h.perm.length_eq ▸ hfull
  refine ⟨a, es, b, es', hentries, hrecent', ?_, ?_⟩
  · rw [EbpfMap.update, if_neg (by simp [hkey]), if_neg (by simp [hvalue]), habsent,
      if_neg (by simp), if_pos hfull, if_pos (by simp [hlru, hne]), hentries, List.tail_cons]
  · rw [stored, if_neg (by simp [hkey, hvalue]), habsent', if_neg (by simp), if_pos hfull',
      if_pos (by simp [hlru, hrecent]), hrecent', List.tail_cons]

/-- Any other update changes nothing, or the value of an entry, or adds an entry. -/
theorem Inv.update {t : Tracked} (h : t.Inv) {key value : Bytes}
    (hevicts : ¬ t.Evicts key value) :
    Inv ⟨(t.map.update key value).2, stored t.map key value t.recent⟩ := by
  unfold EbpfMap.update stored
  by_cases hkey : key.length ≠ t.map.keySize
  · rw [if_pos hkey, if_pos (.inl hkey)]
    exact h
  by_cases hvalue : value.length ≠ t.map.valueSize
  · rw [if_neg hkey, if_pos hvalue, if_pos (.inr hvalue)]
    exact h
  rw [if_neg hkey, if_neg hvalue, if_neg (not_or_intro hkey hvalue), ← h.find?_eq key,
    ← h.perm.length_eq]
  cases hfind : t.map.entries.find? (hasKey key) with
  | some e =>
    -- an update in place, while the record of uses moves the key to its end
    rw [Option.isSome_some, if_pos rfl, if_pos rfl]
    have hmodify := modifyFirst_perm h.nodup hfind value
    have hothers : (others key t.map.entries).Perm (others key t.recent) := h.perm.filter _
    refine ⟨?_, ?_, hmodify.trans (hothers.append_right _)⟩
    · have hkeys := @map_modifyFirst _ _ (hasKey key) (fun e => (e.1, value)) Prod.fst
        (fun _ => rfl) t.map.entries
      dsimp only
      rw [hkeys]
      exact h.nodup
    · simpa using h.bounded
  | none =>
    have habsent : ∀ e ∈ t.map.entries, e.1 ≠ key := fun e he => by
      simpa [hasKey] using List.find?_eq_none.mp hfind e he
    simp only [Option.isSome_none, Bool.false_eq_true, if_false]
    by_cases hfull : t.map.entries.length ≥ t.map.maxEntries
    -- a full map that gives nothing up refuses the key: it is no LRU map, or it has no room at all
    · have hnil : t.map.mapType = .lruHash → t.map.entries = [] := fun hlru =>
        not_not.mp fun hne =>
          hevicts ⟨not_not.mp hkey, not_not.mp hvalue, hfind, hfull, hlru, hne⟩
      have hnil' : t.map.mapType = .lruHash → t.recent = [] := fun hlru =>
        List.perm_nil.mp (hnil hlru ▸ h.perm).symm
      rw [if_pos hfull, if_pos hfull, if_neg fun hlru => hlru.2 (by rw [hnil hlru.1]; rfl),
        if_neg fun hlru => hlru.2 (by rw [hnil' hlru.1]; rfl)]
      exact h
    · rw [if_neg hfull, if_neg hfull]
      exact Inv.concat h.nodup habsent h.perm (by omega)

theorem Inv.step_keeps {t t' : Tracked} {op : Op} (h : t.Inv) (hguard : t.OldestUnused op)
    (hstep : t.step op = .ok t') : t'.Inv := by
  cases op with
  | lookup key =>
    cases hstep
    exact h.lookup key
  | delete key =>
    cases hstep
    exact h.delete key
  | update key value =>
    cases hstep
    by_cases hevicts : t.Evicts key value
    · obtain ⟨a, es, b, es', hentries, hrecent, hupdate, hstored⟩ := h.evicted hevicts
      have hfirst := hguard hevicts.keySize hevicts.valueSize
        (by rw [EbpfMap.lookup, hevicts.absent]; rfl) hevicts.full hevicts.lru
      have hnodup := h.nodup
      have hperm := h.perm
      have hbounded := h.bounded
      have habsent := List.find?_eq_none.mp hevicts.absent
      rw [hentries] at hnodup hperm hbounded habsent hfirst
      rw [hrecent] at hperm hfirst
      -- the two entries that are given up have one key, so they are one entry
      have hsame : a = b := List.inj_on_of_nodup_map hnodup List.mem_cons_self
        (hperm.mem_iff.mpr List.mem_cons_self) (Option.some.inj hfirst)
      subst hsame
      rw [hupdate, hstored]
      refine Inv.concat (List.nodup_cons.mp hnodup).2 (fun e he => ?_) hperm.cons_inv ?_
      · simpa [hasKey] using habsent e (List.mem_cons_of_mem a he)
      · simpa [Nat.succ_le_iff] using hbounded
    · exact h.update hevicts

/-- Where the entry that is given up is not the one used longest ago, that one stays. -/
theorem Inv.step_breaks {t : Tracked} {op : Op} (h : t.Inv) (hmiss : ¬ t.OldestUnused op) :
    ∃ t', t.step op = .ok t' ∧ ¬ t'.Agrees := by
  cases op with
  | lookup key => exact absurd trivial hmiss
  | delete key => exact absurd trivial hmiss
  | update key value =>
    refine ⟨_, rfl, fun hagrees => hmiss fun hkey hvalue habsent hfull hlru => ?_⟩
    by_cases hnil : t.map.entries = []
    · have hrecent : t.recent = [] := List.perm_nil.mp (hnil ▸ h.perm).symm
      rw [hnil, hrecent]
    have hevicts : t.Evicts key value :=
      ⟨hkey, hvalue, Option.map_eq_none_iff.mp habsent, hfull, hlru, hnil⟩
    obtain ⟨a, es, b, es', hentries, hrecent, hupdate, hstored⟩ := h.evicted hevicts
    rw [hentries, hrecent]
    by_contra hne
    have hperm := h.perm
    have hnodup := h.recent_nodup
    rw [hrecent] at hperm hnodup
    have hb : b ∈ t.map.entries := hperm.mem_iff.mpr List.mem_cons_self
    have hnew : b.1 ≠ key := fun hkey =>
      List.find?_eq_none.mp hevicts.absent b hb (hasKey_iff.mpr hkey)
    -- `b` is gone from the entries that are to be there, and still in the map
    have hgone : (es' ++ [(key, value)]).find? (hasKey b.1) = none := by
      rw [List.find?_eq_none]
      intro e he
      rw [hasKey_iff]
      rcases List.mem_append.mp he with he | he
      · exact fun heq => (List.nodup_cons.mp hnodup).1 (heq ▸ List.mem_map_of_mem he)
      · rw [List.mem_singleton.mp he]
        exact Ne.symm hnew
    have hlookup := hagrees.2.2 b.1
    rw [hupdate, hstored, hgone, EbpfMap.lookup, Option.map_none, Option.map_eq_none_iff,
      List.find?_eq_none] at hlookup
    rw [hentries] at hb
    rcases List.mem_cons.mp hb with rfl | hb
    · exact hne rfl
    · exact hlookup b (List.mem_append_left _ hb) (hasKey_iff.mpr rfl)

/-- A map is what it is for, through any sequence of operations, exactly as long as no full LRU map
has to give up an entry while the one stored first has been used since. -/
theorem always_agrees_iff (id : Nat) (mapType : MapType) (keySize valueSize maxEntries : Nat)
    (ops : List Op) :
    Always step Agrees (new id mapType keySize valueSize maxEntries) ops ↔
      Guarded step OldestUnused (new id mapType keySize valueSize maxEntries) ops :=
  always_iff_guarded Inv (fun _ h => h.agrees)
    (fun _ _ _ h hguard hstep => h.step_keeps hguard hstep)
    (fun _ _ h hmiss => h.step_breaks hmiss) (inv_new id mapType keySize valueSize maxEntries) ops

/-- An LRU map of two entries gives up the one that was just looked up. -/
theorem lru_evicts_used :
    ∃ t, run step (new 1 .lruHash 1 1 2)
        [.update [1] [0], .update [2] [0], .lookup [1], .update [3] [0]] = .ok t ∧
      t.recent = [([1], [0]), ([3], [0])] ∧ t.map.lookup [1] = none ∧
        t.map.lookup [2] = some [0] :=
  ⟨_, rfl, by decide, by decide, by decide⟩

end Tracked

end MerlionKernel.Ebpf
