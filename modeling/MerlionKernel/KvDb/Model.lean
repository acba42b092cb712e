import MerlionKernel.Rust.Cursor
import MerlionKernel.Rust.Order
import MerlionKernel.Rust.Search

/-!
# The key-value database

The database of `kvdb.rs`: a vector of entries that every operation searches by key with
`binary_search_by`, and its binary image.
-/

namespace MerlionKernel

open Rust

/-- `KvDb`: the entries are pairs of a key and its value. -/
structure KvDb where
  name : String
  entries : List (String × Bytes)
  deriving DecidableEq

namespace KvDb

/-- An entry: a key and its value. -/
abbrev Entry := String × Bytes

/-- `KvDb::new`. -/
def new (name : String) : KvDb := ⟨name, []⟩

/-- `KvDb::pos`: the place of a key, or the place where it would be inserted. -/
def pos (db : KvDb) (key : String) : Exec (Except Nat Nat) :=
  binarySearchBy (fun e => strCmp e.1 key) db.entries

/-- `KvDb::get`. -/
def get (db : KvDb) (key : String) : Exec (Option Bytes) := do
  match ← db.pos key with
  | .ok i =>
    let e ← index db.entries i
    return some e.2
  | .error _ => return none

/-- `KvDb::set`. -/
def set (db : KvDb) (key : String) (value : Bytes) : Exec KvDb := do
  match ← db.pos key with
  | .ok i =>
    let e ← index db.entries i
    let entries ← store db.entries i (e.1, value)
    return { db with entries }
  | .error i =>
    let entries ← insertAt db.entries i (key, value)
    return { db with entries }

/-- `KvDb::delete`: whether the key existed, and the database without it. -/
def delete (db : KvDb) (key : String) : Exec (Bool × KvDb) := do
  match ← db.pos key with
  | .ok i =>
    let (_, entries) ← removeAt db.entries i
    return (true, { db with entries })
  | .error _ => return (false, db)

/-- `KvDb::keys`. -/
def keys (db : KvDb) : List String := db.entries.map Prod.fst

/-- `KvDb::scan`. -/
def scan (db : KvDb) (pfx : String) : Exec (List Entry) := do
  let start := match ← db.pos pfx with
    | .ok i => i
    | .error i => i
  -- Keys with the prefix are neighbours, and none of them is below the prefix itself.
  let tail ← slice db.entries start db.entries.length
  return tail.takeWhile fun e => startsWith e.1 pfx

/-! ### The image on disk -/

/-- `MAGIC`. -/
def magic : Bytes := [75, 86, 68, 66]

/-- `VERSION`. -/
def version : UInt8 := 1

/-- The image of one entry, its lengths narrowed to `u16` and `u32`. -/
def serializeEntry (e : Entry) : Bytes :=
  let klen := (asBytes e.1).length % 2 ^ 16
  let vlen := e.2.length % 2 ^ 32
  toLe 2 klen ++ toLe 4 vlen ++ asBytes e.1 ++ e.2

/-- `KvDb::serialize`. -/
def serialize (db : KvDb) : Bytes :=
  let count := db.entries.length % 2 ^ 32
  db.entries.foldl (fun buf e => buf ++ serializeEntry e) (magic ++ [version] ++ toLe 4 count)

/-- One entry at offset `off` and the offset behind it, or `none` if the data is
malformed. -/
def deserializeEntry (data : Bytes) (off : Nat) : Exec (Option (Entry × Nat)) := do
  if data.length < off + 6 then return none
  else
    let klen := fromLe (← readArray data off 2)
    let vlen := fromLe (← readArray data (off + 2) 4)
    let off := off + 6
    if data.length < off + klen + vlen then return none
    else
      match fromUtf8 (← slice data off (off + klen)) with
      | none => return none
      | some key =>
        let val ← slice data (off + klen) (off + klen + vlen)
        return some ((key, val), off + (klen + vlen))

/-- The loop of `deserialize` over the remaining `count` entries. -/
def deserializeEntries (data : Bytes) : Nat → Nat → List Entry → Exec (Option (List Entry))
  | 0, _, entries => return some entries
  | count + 1, off, entries => do
    match ← deserializeEntry data off with
    | none => return none
    | some (e, off') => deserializeEntries data count off' (entries ++ [e])

/-- `KvDb::deserialize`. -/
def deserialize (data : Bytes) : Exec (Option KvDb) := do
  if data.length < 9 then return none
  else
    if (← slice data 0 4) ≠ magic then return none
    else if (← index data 4) ≠ version then return none
    else
      let count := fromLe (← readArray data 5 4)
      match ← deserializeEntries data count 9 [] with
      | none => return none
      -- The image does not hold the name, and its order is taken on trust.
      | some entries => return some ⟨"", entries⟩

end KvDb

end MerlionKernel
