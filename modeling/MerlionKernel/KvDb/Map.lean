import MerlionKernel.KvDb.Model
import MerlionKernel.Theory.Lexicographic
import MerlionKernel.Theory.Run
import Mathlib.Data.List.Induction

/-!
# The database refines a finite map

The entries stay strictly sorted by key, so binary search finds a key or splits the
entries around the place where it belongs. Every operation is described from that split,
and after any sequence of calls the database holds, for each key, what the last call on
that key left. The keys that start with a given string form one block of the order, so a
scan that stops at the first other key misses none.
-/

namespace MerlionKernel.KvDb

open Rust Theory

/-- Entries in strictly ascending order of their keys. -/
def Ascending (entries : List Entry) : Prop :=
  entries.Pairwise fun e e' => ordKey e.1 < ordKey e'.1

/-- The database holds the pairs of the map `m`, in the order of their keys. -/
structure Represents (db : KvDb) (m : String → Option Bytes) : Prop where
  ascending : Ascending db.entries
  mem_iff : ∀ k v, (k, v) ∈ db.entries ↔ m k = some v

/-- The entries `l` and `r` are those of `m` before and behind `key`. -/
structure Split (m : String → Option Bytes) (key : String) (l r : List Entry) : Prop where
  ascending : Ascending (l ++ r)
  lt : ∀ e ∈ l, ordKey e.1 < ordKey key
  gt : ∀ e ∈ r, ordKey key < ordKey e.1
  mem_iff : ∀ k ≠ key, ∀ v, (k, v) ∈ l ++ r ↔ m k = some v

section Split

variable {m : String → Option Bytes} {key : String} {l r : List Entry}

theorem Split.notMem (h : Split m key l r) (v : Bytes) : (key, v) ∉ l ++ r := by
  intro hmem
  rcases List.mem_append.mp hmem with hl | hr
  · exact lt_irrefl _ (h.lt _ hl)
  · exact lt_irrefl _ (h.gt _ hr)

/-- Putting an entry at the split sets its key. -/
theorem Split.represents_insert (h : Split m key l r) (name : String) (value : Bytes) :
    Represents ⟨name, l ++ (key, value) :: r⟩ (Function.update m key (some value)) where
  ascending := by
    obtain ⟨hl, hr, hlr⟩ := List.pairwise_append.mp h.ascending
    refine List.pairwise_append.mpr ⟨hl, List.pairwise_cons.mpr ⟨h.gt, hr⟩, fun e he e' he' => ?_⟩
    rcases List.mem_cons.mp he' with rfl | he'
    · exact h.lt e he
    · exact hlr e he e' he'
  mem_iff := by
    intro k v
    rw [List.mem_append, List.mem_cons, or_left_comm, ← List.mem_append, Prod.mk.injEq]
    by_cases hk : k = key
    · subst hk
      simp [h.notMem v, eq_comm]
    · rw [h.mem_iff k hk, Function.update_of_ne hk]
      simp [hk]

/-- Leaving the split empty removes the key. -/
theorem Split.represents_erase (h : Split m key l r) (name : String) :
    Represents ⟨name, l ++ r⟩ (Function.update m key none) where
  ascending := h.ascending
  mem_iff := by
    intro k v
    by_cases hk : k = key
    · subst hk
      simpa using h.notMem v
    · rw [h.mem_iff k hk, Function.update_of_ne hk]

end Split

/-! ### Binary search -/

variable {db : KvDb} {m : String → Option Bytes}

theorem Ascending.nodup_keys {entries : List Entry} (h : Ascending entries) :
    (entries.map Prod.fst).Nodup := by
  refine List.pairwise_map.mpr (h.imp fun hlt heq => ?_)
  rw [heq] at hlt
  exact lt_irrefl _ hlt

theorem Ascending.partitioned {entries : List Entry} (h : Ascending entries) (key : String) :
    Partitioned (fun e => strCmp e.1 key) entries := by
  refine List.Pairwise.imp (fun hlt => ?_) h
  simp only [strCmp_eq_gt_iff, strCmp_eq_lt_iff]
  exact ⟨fun hgt => hgt.trans hlt, fun hlt' => hlt.trans hlt'⟩

/-- What the answer of `pos` says: where the entry of the key is, or where it belongs. -/
inductive Place (db : KvDb) (m : String → Option Bytes) (key : String) : Except Nat Nat → Prop
  | found {l r : List Entry} {v : Bytes} (hentries : db.entries = l ++ (key, v) :: r)
      (hsplit : Split m key l r) (hvalue : m key = some v) : Place db m key (.ok l.length)
  | absent {l r : List Entry} (hentries : db.entries = l ++ r) (hsplit : Split m key l r)
      (hvalue : m key = none) : Place db m key (.error l.length)

theorem Represents.pos_spec (h : Represents db m) (key : String) :
    Returns (db.pos key) (Place db m key) := by
  refine (binarySearchBy_spec (h.ascending.partitioned key)).mono fun answer hanswer => ?_
  have hasc := h.ascending
  have hmem := h.mem_iff
  cases answer with
  | ok i =>
    obtain ⟨l, ⟨k, v⟩, r, hentries, rfl, heq⟩ := hanswer
    obtain rfl : k = key := strCmp_eq_eq_iff.mp heq
    rw [hentries] at hasc hmem
    obtain ⟨hl, hr, hlr⟩ := List.pairwise_append.mp hasc
    obtain ⟨hgt, hr⟩ := List.pairwise_cons.mp hr
    refine .found hentries ⟨List.pairwise_append.mpr ⟨hl, hr, fun e he e' he' => ?_⟩,
      fun e he => hlr e he _ List.mem_cons_self, hgt, fun k' hk' v' => ?_⟩ ((hmem k v).mp (by simp))
    · exact hlr e he e' (List.mem_cons_of_mem _ he')
    · rw [← hmem k' v']
      simp [hk']
  | error i =>
    obtain ⟨l, r, hentries, rfl, hlt, hgt⟩ := hanswer
    simp only [strCmp_eq_lt_iff, strCmp_eq_gt_iff] at hlt hgt
    rw [hentries] at hasc hmem
    have hsplit : Split m key l r := ⟨hasc, hlt, hgt, fun k _ v => hmem k v⟩
    refine .absent hentries hsplit (Option.eq_none_iff_forall_ne_some.mpr fun v hv => ?_)
    exact hsplit.notMem v ((hmem key v).mpr hv)

/-! ### The operations -/

theorem Represents.get_eq (h : Represents db m) (key : String) : db.get key = .ok (m key) := by
  obtain ⟨answer, hpos, hplace⟩ := h.pos_spec key
  rw [get, hpos, ok_bind]
  cases hplace with
  | found hentries _ hvalue => simp only [hentries, index_append_cons, ok_bind, hvalue]; rfl
  | absent _ _ hvalue => rw [hvalue]; rfl

theorem Represents.set_spec (h : Represents db m) (key : String) (value : Bytes) :
    Returns (db.set key value) fun db' =>
      db'.name = db.name ∧ Represents db' (Function.update m key (some value)) := by
  obtain ⟨answer, hpos, hplace⟩ := h.pos_spec key
  rw [set, hpos, ok_bind]
  cases hplace with
  | found hentries hsplit _ =>
    simp only [hentries, index_append_cons, store_append_cons, ok_bind]
    exact .ok ⟨rfl, hsplit.represents_insert _ value⟩
  | absent hentries hsplit _ =>
    simp only [hentries, insertAt_append, ok_bind]
    exact .ok ⟨rfl, hsplit.represents_insert _ value⟩

theorem Represents.delete_spec (h : Represents db m) (key : String) :
    Returns (db.delete key) fun out =>
      out.1 = (m key).isSome ∧ out.2.name = db.name ∧
        Represents out.2 (Function.update m key none) := by
  obtain ⟨answer, hpos, hplace⟩ := h.pos_spec key
  rw [delete, hpos, ok_bind]
  cases hplace with
  | found hentries hsplit hvalue =>
    simp only [hentries, removeAt_append_cons, ok_bind, hvalue]
    exact .ok ⟨rfl, rfl, hsplit.represents_erase _⟩
  | absent hentries hsplit hvalue =>
    refine .ok ⟨by simp [hvalue], rfl, ?_⟩
    rwa [← hvalue, Function.update_eq_self]

theorem Represents.mem_keys_iff (h : Represents db m) (key : String) :
    key ∈ db.keys ↔ (m key).isSome := by
  rw [keys, List.mem_map, Option.isSome_iff_exists]
  constructor
  · rintro ⟨⟨k, v⟩, hmem, rfl⟩
    exact ⟨v, (h.mem_iff k v).mp hmem⟩
  · rintro ⟨v, hv⟩
    exact ⟨(key, v), (h.mem_iff key v).mpr hv, rfl⟩

/-! ### Scans -/

/-- Stopping at the first element without the property loses none when the elements with it
come first. -/
theorem takeWhile_eq_filter {α : Type} {p : α → Bool} {xs : List α}
    (h : xs.Pairwise fun a b => p b = true → p a = true) : xs.takeWhile p = xs.filter p := by
  induction xs with
  | nil => rfl
  | cons a xs ih =>
    obtain ⟨hhead, htail⟩ := List.pairwise_cons.mp h
    by_cases ha : p a = true
    · rw [List.takeWhile_cons_of_pos ha, List.filter_cons_of_pos ha, ih htail]
    · have hnone : xs.filter p = [] :=
        List.filter_eq_nil_iff.mpr fun b hb hp => ha (hhead b hb hp)
      rw [List.takeWhile_cons_of_neg ha, List.filter_cons_of_neg ha, hnone]

/-- From the place of the pattern on, the keys that start with it come first; before it
there are none. -/
theorem takeWhile_startsWith {pfx : String} {l tail : List Entry} (hasc : Ascending tail)
    (hlt : ∀ e ∈ l, ordKey e.1 < ordKey pfx) (hge : ∀ e ∈ tail, ordKey pfx ≤ ordKey e.1) :
    tail.takeWhile (fun e => startsWith e.1 pfx) =
      (l ++ tail).filter fun e => startsWith e.1 pfx := by
  have hnone : (l.filter fun e => startsWith e.1 pfx) = [] :=
    List.filter_eq_nil_iff.mpr fun e he hp =>
      (hlt e he).not_ge (le_of_isPrefix (startsWith_iff.mp hp))
  rw [List.filter_append, hnone, List.nil_append]
  refine takeWhile_eq_filter (hasc.imp_of_mem fun {a b} ha _ hab hp => ?_)
  rw [startsWith_iff] at hp ⊢
  exact isPrefix_of_le_of_le (hge a ha) hab.le hp

theorem Represents.scan_eq (h : Represents db m) (pfx : String) :
    db.scan pfx = .ok (db.entries.filter fun e => startsWith e.1 pfx) := by
  obtain ⟨answer, hpos, hplace⟩ := h.pos_spec pfx
  have hasc := h.ascending
  rw [scan, hpos, ok_bind]
  cases hplace with
  | @found l r v hentries hsplit _ =>
    rw [hentries] at hasc ⊢
    simp only [slice_append_right, ok_bind]
    refine congrArg Except.ok (takeWhile_startsWith (List.pairwise_append.mp hasc).2.1 hsplit.lt ?_)
    intro e he
    rcases List.mem_cons.mp he with rfl | he
    · exact le_rfl
    · exact (hsplit.gt e he).le
  | @absent l r hentries hsplit _ =>
    rw [hentries] at hasc ⊢
    simp only [slice_append_right, ok_bind]
    exact congrArg Except.ok (takeWhile_startsWith (List.pairwise_append.mp hasc).2.1 hsplit.lt
      fun e he => (hsplit.gt e he).le)

/-! ### Sequences of calls -/

/-- A call that changes the database. -/
inductive Op
  | set (key : String) (value : Bytes)
  | delete (key : String)

/-- The database after a call. -/
def step (db : KvDb) : Op → Exec KvDb
  | .set key value => db.set key value
  | .delete key => do
    let (_, db') ← db.delete key
    return db'

/-- The call is about the key. -/
def Op.touches (key : String) : Op → Bool
  | .set k _ => k = key
  | .delete k => k = key

/-- The value of the last `set` of the key, unless a `delete` of the key follows it. -/
def lastValue (ops : List Op) (key : String) : Option Bytes :=
  match ops.reverse.find? (Op.touches key) with
  | some (.set _ value) => some value
  | some (.delete _) => none
  | none => none

theorem lastValue_concat_set (ops : List Op) (key : String) (value : Bytes) :
    lastValue (ops ++ [.set key value]) = Function.update (lastValue ops) key (some value) := by
  funext k
  unfold lastValue
  rw [List.reverse_concat, List.find?_cons]
  by_cases hk : k = key
  · simp [Op.touches, hk]
  · simp [Op.touches, hk, Ne.symm hk]

theorem lastValue_concat_delete (ops : List Op) (key : String) :
    lastValue (ops ++ [.delete key]) = Function.update (lastValue ops) key none := by
  funext k
  unfold lastValue
  rw [List.reverse_concat, List.find?_cons]
  by_cases hk : k = key
  · simp [Op.touches, hk]
  · simp [Op.touches, hk, Ne.symm hk]

/-- After any sequence of calls the database holds what the last call on each key left. -/
theorem Represents.returns_step {ops} (h : Represents db (lastValue ops)) (op : Op) :
    Returns (step db op) fun db' => Represents db' (lastValue (ops ++ [op])) := by
  cases op with
  | set key value =>
    obtain ⟨db', hset, -, hdb'⟩ := h.set_spec key value
    rw [lastValue_concat_set]
    exact ⟨db', hset, hdb'⟩
  | delete key =>
    obtain ⟨⟨found, db'⟩, hdelete, -, -, hdb'⟩ := h.delete_spec key
    rw [lastValue_concat_delete]
    exact ⟨db', by simp [step, hdelete], hdb'⟩

theorem Represents.returns_run {ops} (h : Represents db (lastValue ops)) (ops' : List Op) :
    Returns (run step db ops') fun db' => Represents db' (lastValue (ops ++ ops')) := by
  refine foldlM_returns (fun done db => Represents db (lastValue (ops ++ done))) ops' ?_
    (by rwa [List.append_nil])
  intro done op _ db _ hdb
  rw [← List.append_assoc]
  exact hdb.returns_step op

theorem run_represents (name : String) (ops : List Op) :
    Returns (run step (new name) ops) fun db => Represents db (lastValue ops) :=
  have hnew : Represents (new name) (lastValue []) :=
    ⟨List.Pairwise.nil, fun k v => by simp [new, lastValue]⟩
  hnew.returns_run ops

/-- Every sequence of `set` and `delete` calls from a new database returns, with entries
strictly sorted by key; `get` answers what the last call on the key left, `delete` whether
the key is present, `keys` the present keys in order and `scan` the entries whose key starts
with the given string, in order. -/
theorem run_refines_map (name : String) (ops : List Op) :
    ∃ db, run step (new name) ops = .ok db ∧
      db.entries.Pairwise (fun e e' => strCmp e.1 e'.1 = .lt) ∧ db.keys.Nodup ∧
      (∀ key value, (key, value) ∈ db.entries ↔ lastValue ops key = some value) ∧
      (∀ key, db.get key = .ok (lastValue ops key)) ∧
      (∀ key, ∃ db', db.delete key = .ok ((lastValue ops key).isSome, db')) ∧
      db.keys.Pairwise (fun k k' => strCmp k k' = .lt) ∧
      (∀ key, key ∈ db.keys ↔ (lastValue ops key).isSome) ∧
      ∀ pfx, db.scan pfx = .ok (db.entries.filter fun e => startsWith e.1 pfx) := by
  obtain ⟨db, hrun, hdb⟩ := run_represents name ops
  have hsorted : db.entries.Pairwise (fun e e' => strCmp e.1 e'.1 = .lt) :=
    hdb.ascending.imp strCmp_eq_lt_iff.mpr
  have hkeys : db.keys.Pairwise (fun k k' => strCmp k k' = .lt) := List.pairwise_map.mpr hsorted
  refine ⟨db, hrun, hsorted, hdb.ascending.nodup_keys, hdb.mem_iff, hdb.get_eq, fun key => ?_,
    hkeys, hdb.mem_keys_iff, hdb.scan_eq⟩
  obtain ⟨⟨found, db'⟩, hdelete, hfound, -⟩ := hdb.delete_spec key
  exact ⟨db', by rw [hdelete, ← hfound]⟩

end MerlionKernel.KvDb
