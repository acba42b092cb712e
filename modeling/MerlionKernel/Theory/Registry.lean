import MerlionKernel.Rust.Find

/-!
# Registries: records under numbers that are given out once

A registry is a vector of records, each with a number as its key. A new record gets the next
number, which is then moved on, so that the number of a removed record is not used again.
Records are found by their key, and changed or removed where they are found.
-/

namespace MerlionKernel.Theory

open Rust

universe u

variable {α : Type u} {key : α → Nat} {xs : List α} {next id : Nat} {x new old : α}

/-- The first record with a key: `iter().find(|x| x.id == id)`. -/
def lookup (key : α → Nat) (xs : List α) (id : Nat) : Option α := xs.find? fun x => key x = id

/-- Put `new` in the place of the first record with its key. -/
def replace (key : α → Nat) (xs : List α) (new : α) : List α :=
  modifyFirst (fun x => key x = key new) (fun _ => new) xs

/-- Remove the first record with a key. -/
def discard (key : α → Nat) (xs : List α) (id : Nat) : List α := xs.eraseP fun x => key x = id

/-- The keys tell the records apart and are below the number that the next record gets. -/
structure Issued (key : α → Nat) (next : Nat) (xs : List α) : Prop where
  nodup : (xs.map key).Nodup
  key_lt : ∀ x ∈ xs, key x < next

theorem Issued.nil (next : Nat) : Issued key next [] :=
  ⟨List.nodup_nil, fun _ hx => absurd hx List.not_mem_nil⟩

theorem mem_of_lookup (h : lookup key xs id = some x) : x ∈ xs ∧ key x = id :=
  ⟨List.mem_of_find?_eq_some h, by simpa using List.find?_some h⟩

theorem lookup_eq_none_iff : lookup key xs id = none ↔ ∀ x ∈ xs, key x ≠ id := by
  simp [lookup]

namespace Issued

/-- Two records with one key are the same record. -/
theorem eq_of_key (h : Issued key next xs) {y : α} (hx : x ∈ xs) (hy : y ∈ xs)
    (hkey : key x = key y) : x = y :=
  List.inj_on_of_nodup_map h.nodup hx hy hkey

theorem lookup_eq_some_iff (h : Issued key next xs) :
    lookup key xs id = some x ↔ x ∈ xs ∧ key x = id := by
  constructor
  · exact mem_of_lookup
  · rintro ⟨hx, rfl⟩
    cases hfind : lookup key xs (key x) with
    | none => exact absurd rfl (lookup_eq_none_iff.mp hfind x hx)
    | some y =>
      obtain ⟨hy, hkey⟩ := mem_of_lookup hfind
      rw [h.eq_of_key hy hx hkey]

/-- A new record gets the next number. -/
theorem concat (h : Issued key next xs) (hkey : key x = next) :
    Issued key (next + 1) (xs ++ [x]) := by
  refine ⟨nodup_map_concat h.nodup fun y hy => ?_, fun y hy => ?_⟩
  · have := h.key_lt y hy
    omega
  · rcases List.mem_append.mp hy with hy | hy
    · exact Nat.lt_succ_of_lt (h.key_lt y hy)
    · rw [List.mem_singleton.mp hy, hkey]
      exact Nat.lt_succ_self next

/-- The records after one was replaced. -/
theorem mem_replace (h : Issued key next xs) (hold : old ∈ xs) (hkey : key new = key old) :
    x ∈ Theory.replace key xs new ↔ x = new ∨ x ∈ xs ∧ x ≠ old := by
  rw [Theory.replace, modifyFirst_eq_map h.nodup, List.mem_map, hkey]
  constructor
  · rintro ⟨y, hy, rfl⟩
    split_ifs with hyold
    · exact .inl rfl
    · exact .inr ⟨hy, fun heq => hyold (by rw [heq])⟩
  · rintro (rfl | ⟨hx, hne⟩)
    · exact ⟨old, hold, if_pos rfl⟩
    · exact ⟨x, hx, if_neg fun heq => hne (h.eq_of_key hx hold heq)⟩

theorem replace (h : Issued key next xs) : Issued key next (Theory.replace key xs new) := by
  have hkeys : (Theory.replace key xs new).map key = xs.map key := by
    rw [Theory.replace, modifyFirst_eq_map h.nodup, List.map_map]
    apply List.map_congr_left
    intro y _
    by_cases hy : key y = key new
    · simp [hy]
    · simp [hy]
  refine ⟨hkeys ▸ h.nodup, fun y hy => ?_⟩
  have hmem : key y ∈ xs.map key := hkeys ▸ List.mem_map_of_mem hy
  obtain ⟨z, hz, hzy⟩ := List.mem_map.mp hmem
  exact hzy ▸ h.key_lt z hz

/-- The records after one was removed. -/
theorem mem_discard (h : Issued key next xs) :
    x ∈ Theory.discard key xs id ↔ x ∈ xs ∧ key x ≠ id := by
  have hnodup := List.Nodup.of_map key h.nodup
  rw [Theory.discard]
  constructor
  · intro hx
    have hmem := List.mem_of_mem_eraseP hx
    refine ⟨hmem, fun hkey => ?_⟩
    -- The first record with the key is the only one, and it is gone.
    obtain ⟨y, front, back, hfront, hy, hxs, herase⟩ :=
      List.exists_of_eraseP (p := fun x => key x = id) hmem (by simpa using hkey)
    have hyx : y = x := h.eq_of_key (by simp [hxs]) hmem (by simpa [hkey] using hy)
    rw [herase] at hx
    rw [hxs, hyx] at hnodup
    have hsplit := List.nodup_middle.mp hnodup
    exact (List.nodup_cons.mp hsplit).1 hx
  · rintro ⟨hx, hne⟩
    exact (List.mem_eraseP_of_neg (by simpa using hne)).mpr hx

theorem discard (h : Issued key next xs) : Issued key next (Theory.discard key xs id) := by
  refine ⟨h.nodup.sublist ((List.eraseP_sublist ..).map key), fun y hy => ?_⟩
  exact h.key_lt y (List.mem_of_mem_eraseP hy)

end Issued

end MerlionKernel.Theory
