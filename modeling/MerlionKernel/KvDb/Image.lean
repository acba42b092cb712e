import MerlionKernel.KvDb.Persist
import Mathlib.Data.List.Nodup

/-!
# Reading a foreign image

`deserialize` appends the entries of an image in the order in which they stand there, and
asks for nothing but lengths that fit and keys that are text. The entries of a database
are to be sorted by key at all times, and every operation searches them on that
assumption; a database that was read keeps it exactly when the image holds its keys in
ascending order.
-/

namespace MerlionKernel.KvDb

open Rust

/-- The keys of the next `count` entries in an image. -/
def keysFrom : Nat → Bytes → List Bytes
  | 0, _ => []
  | count + 1, bytes =>
    let klen := fromLe (bytes.take 2)
    let vlen := fromLe ((bytes.drop 2).take 4)
    (bytes.drop 6).take klen :: keysFrom count (bytes.drop (6 + (klen + vlen)))

/-- The keys in an image, in the order in which they stand there. -/
def imageKeys (data : Bytes) : List Bytes := keysFrom (fromLe ((data.drop 5).take 4)) (data.drop 9)

/-! ### The keys of an image -/

theorem keysFrom_entry {e : Entry} (he : FitsEntry e) (count : Nat) (rest : Bytes) :
    keysFrom (count + 1) (serializeEntry e ++ rest) = asBytes e.1 :: keysFrom count rest := by
  obtain ⟨key, value⟩ := e
  generalize hbytes : serializeEntry (key, value) ++ rest = bytes
  have hbehind : bytes.drop (serializeEntry (key, value)).length = rest := by
    rw [← hbytes, List.drop_left]
  have h₀ : bytes.drop 0 = toLe 2 ((asBytes key).length % 2 ^ 16) ++
      (toLe 4 (value.length % 2 ^ 32) ++ (asBytes key ++ (value ++ rest))) := by
    rw [List.drop_zero, ← hbytes]
    simp only [serializeEntry, List.append_assoc]
  have h₂ := drop_add_of_drop h₀
  have h₆ := drop_add_of_drop h₂
  simp only [length_toLe, Nat.zero_add] at h₂ h₆
  have hklen : fromLe (bytes.take 2) = (asBytes key).length := by
    rw [List.drop_zero] at h₀
    rw [h₀, List.take_left' (length_toLe _ _), Nat.mod_eq_of_lt he.key_lt,
      fromLe_toLe_of_lt he.key_lt]
  have hvlen : fromLe ((bytes.drop 2).take 4) = value.length := by
    rw [h₂, List.take_left' (length_toLe _ _), Nat.mod_eq_of_lt he.value_lt,
      fromLe_toLe_of_lt he.value_lt]
  rw [length_serializeEntry] at hbehind
  dsimp only [keysFrom] at hbehind ⊢
  rw [hklen, hvlen, hbehind, h₆, List.take_left]

theorem keysFrom_entries {entries : List Entry} (h : ∀ e ∈ entries, FitsEntry e) (rest : Bytes) :
    keysFrom entries.length (entries.flatMap serializeEntry ++ rest) =
      entries.map fun e => asBytes e.1 := by
  induction entries with
  | nil => rfl
  | cons e entries ih =>
    obtain ⟨he, hentries⟩ := List.forall_mem_cons.mp h
    rw [List.length_cons, List.flatMap_cons, List.append_assoc, keysFrom_entry he, ih hentries,
      List.map_cons]

/-- The keys of a database that was read are those of the image, in its order. -/
theorem imageKeys_of_deserialize {data : Bytes} {db : KvDb}
    (h : deserialize data = .ok (some db)) : imageKeys data = db.keys.map asBytes := by
  obtain ⟨hfits, rest, rfl⟩ := image_of_deserialize h
  have hcount : fromLe (toLe 4 (db.entries.length % 2 ^ 32)) = db.entries.length := by
    rw [Nat.mod_eq_of_lt hfits.count_lt, fromLe_toLe_of_lt hfits.count_lt]
  generalize hdata : serialize db ++ rest = data
  have h₀ : data.drop 0 = (magic ++ [version]) ++ (toLe 4 (db.entries.length % 2 ^ 32) ++
      (db.entries.flatMap serializeEntry ++ rest)) := by
    rw [List.drop_zero, ← hdata, serialize_eq]
    simp only [List.append_assoc]
  have h₅ : data.drop 5 = _ := drop_add_of_drop h₀
  have h₉ := drop_add_of_drop h₅
  rw [length_toLe] at h₉
  rw [imageKeys, h₅, List.take_left' (length_toLe _ _), hcount, h₉, keysFrom_entries hfits.entry,
    keys, List.map_map]
  rfl

/-! ### Searching sorted entries -/

/-- Sorted entries are those of a map. -/
theorem Ascending.represents {db : KvDb} (h : Ascending db.entries) :
    ∃ m, Represents db m := by
  classical
  refine ⟨fun k => if hk : ∃ v, (k, v) ∈ db.entries then some hk.choose else none, h, ?_⟩
  intro k v
  constructor
  · intro hmem
    have hk : ∃ v, (k, v) ∈ db.entries := ⟨v, hmem⟩
    have hsame := List.inj_on_of_nodup_map h.nodup_keys hk.choose_spec hmem rfl
    rw [dif_pos hk, (Prod.mk.inj hsame).2]
  · intro hsome
    split_ifs at hsome with hk
    rw [← Option.some.inj hsome]
    exact hk.choose_spec

/-- In sorted entries every key is found, with its value. -/
theorem Ascending.get_eq {db : KvDb} (h : Ascending db.entries) {key : String} {value : Bytes}
    (hmem : (key, value) ∈ db.entries) : db.get key = .ok (some value) := by
  obtain ⟨m, hm⟩ := h.represents
  rw [hm.get_eq, (hm.mem_iff key value).mp hmem]

/-! ### Accepted images -/

/-- A database read from an image is sorted by key without duplicates, and `get` finds
every key stored in it, exactly when the keys stand in the image in ascending order. -/
theorem deserialize_ascending_iff (data : Bytes) (db : KvDb)
    (h : deserialize data = .ok (some db)) :
    (db.entries.Pairwise (fun e e' => strCmp e.1 e'.1 = .lt) ∧
      ∀ key value, (key, value) ∈ db.entries → db.get key = .ok (some value)) ↔
    (imageKeys data).Pairwise fun k k' => k.map UInt8.toNat < k'.map UInt8.toNat := by
  have hsorted : db.entries.Pairwise (fun e e' => strCmp e.1 e'.1 = .lt) ↔
      Ascending db.entries := by
    simp only [strCmp_eq_lt_iff, Ascending]
  have himage : (imageKeys data).Pairwise (fun k k' => k.map UInt8.toNat < k'.map UInt8.toNat) ↔
      Ascending db.entries := by
    rw [imageKeys_of_deserialize h, keys, List.map_map, List.pairwise_map]
    rfl
  rw [hsorted, himage]
  exact and_iff_left_of_imp fun hasc key value hmem => hasc.get_eq hmem

/-- An image with the keys `a` and `b` in this order. -/
def sortedImage : Bytes :=
  [75, 86, 68, 66, 1, 2, 0, 0, 0, 1, 0, 0, 0, 0, 0, 97, 1, 0, 0, 0, 0, 0, 98]

theorem deserialize_ascending_sortedImage :
    deserialize sortedImage = .ok (some ⟨"", [("a", []), ("b", [])]⟩) ∧
      ([("a", []), ("b", [])] : List Entry).Pairwise (fun e e' => strCmp e.1 e'.1 = .lt) ∧
      ∀ key value, (key, value) ∈ ([("a", []), ("b", [])] : List Entry) →
        get ⟨"", [("a", []), ("b", [])]⟩ key = .ok (some value) := by
  have hread : deserialize sortedImage = .ok (some ⟨"", [("a", []), ("b", [])]⟩) := by decide
  exact ⟨hread, (deserialize_ascending_iff sortedImage _ hread).mpr (by decide)⟩

/-- An image with the keys in the other order is accepted too, and `b` is not found in
what is read. -/
theorem deserialize_unsorted :
    deserialize [75, 86, 68, 66, 1, 2, 0, 0, 0, 1, 0, 0, 0, 0, 0, 98, 1, 0, 0, 0, 0, 0, 97] =
        .ok (some ⟨"", [("b", []), ("a", [])]⟩) ∧
      strCmp "b" "a" ≠ .lt ∧ get ⟨"", [("b", []), ("a", [])]⟩ "b" = .ok none := by
  decide

end MerlionKernel.KvDb
