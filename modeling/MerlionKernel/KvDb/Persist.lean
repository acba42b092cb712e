import MerlionKernel.KvDb.Map

/-!
# The image of a database

The image of an entry holds the lengths of its key and its value in two and four bytes,
and the header holds the number of entries in four, so a database whose lengths fit is read
back as it was. What `deserialize` answers always fits, so no other database is: the longer
lengths are cut off in the image.
-/

namespace MerlionKernel.KvDb

open Rust Theory

/-- The lengths of an entry fit their fields. -/
structure FitsEntry (e : Entry) : Prop where
  key_lt : (asBytes e.1).length < 2 ^ 16
  value_lt : e.2.length < 2 ^ 32

/-- The lengths of the entries and their number fit their fields. -/
structure Fits (db : KvDb) : Prop where
  count_lt : db.entries.length < 2 ^ 32
  entry : ∀ e ∈ db.entries, FitsEntry e

/-! ### Reading an image -/

section Read

variable {data rest : Bytes} {off : Nat}

theorem length_serializeEntry (e : Entry) :
    (serializeEntry e).length = 6 + ((asBytes e.1).length + e.2.length) := by
  simp only [serializeEntry, List.length_append, length_toLe]
  omega

theorem deserializeEntry_of_drop {e : Entry} (he : FitsEntry e) (hoff : off ≤ data.length)
    (h : data.drop off = serializeEntry e ++ rest) :
    deserializeEntry data off = .ok (some (e, off + (serializeEntry e).length)) := by
  obtain ⟨key, value⟩ := e
  have hlen := le_of_drop hoff h
  rw [length_serializeEntry] at hlen ⊢
  have hklen : fromLe (toLe 2 ((asBytes key).length % 2 ^ 16)) = (asBytes key).length := by
    rw [Nat.mod_eq_of_lt he.key_lt, fromLe_toLe_of_lt he.key_lt]
  have hvlen : fromLe (toLe 4 (value.length % 2 ^ 32)) = value.length := by
    rw [Nat.mod_eq_of_lt he.value_lt, fromLe_toLe_of_lt he.value_lt]
  -- The fields in order, each at the offset the one before it leaves.
  simp only [serializeEntry, List.append_assoc] at h
  dsimp only at hlen
  have hread₀ := readArray_of_drop h
  have h₂ := drop_add_of_drop h
  have hread₂ := readArray_of_drop h₂
  have h₆ := drop_add_of_drop h₂
  simp only [length_toLe] at hread₀ hread₂ h₆
  rw [show off + 2 + 4 = off + 6 from rfl] at h₆
  have hkey := slice_of_drop (by omega) h₆
  have hvalue := slice_of_drop (by omega) (drop_add_of_drop h₆)
  simp only [deserializeEntry, if_neg (show ¬ data.length < off + 6 by omega), hread₀, hread₂,
    hklen, hvlen, ok_bind, if_neg (show ¬ data.length < off + 6 + (asBytes key).length +
      value.length by omega), hkey, fromUtf8_asBytes, hvalue, pure_eq_ok]
  rw [Nat.add_assoc off 6]

theorem deserializeEntries_of_drop {entries : List Entry} (hfits : ∀ e ∈ entries, FitsEntry e)
    (hoff : off ≤ data.length) (h : data.drop off = entries.flatMap serializeEntry)
    (acc : List Entry) :
    deserializeEntries data entries.length off acc = .ok (some (acc ++ entries)) := by
  induction entries generalizing off acc with
  | nil => rw [List.append_nil]; rfl
  | cons e entries ih =>
    rw [List.flatMap_cons] at h
    simp only [List.length_cons, deserializeEntries,
      deserializeEntry_of_drop (hfits e List.mem_cons_self) hoff h, ok_bind]
    rw [ih (fun e' he' => hfits e' (List.mem_cons_of_mem _ he')) (le_of_drop hoff h)
      (drop_add_of_drop h), List.append_assoc, List.singleton_append]

theorem serialize_eq (db : KvDb) :
    serialize db = (magic ++ [version] ++ toLe 4 (db.entries.length % 2 ^ 32)) ++
      db.entries.flatMap serializeEntry := by
  have hfold : ∀ (entries : List Entry) (buf : Bytes),
      entries.foldl (fun buf e => buf ++ serializeEntry e) buf =
        buf ++ entries.flatMap serializeEntry := by
    intro entries
    induction entries with
    | nil => simp
    | cons e entries ih => simp [ih]
  exact hfold _ _

/-- The image of a database that fits is read back, without its name. -/
theorem deserialize_of_fits {db : KvDb} (h : Fits db) :
    deserialize (serialize db) = .ok (some ⟨"", db.entries⟩) := by
  have hcount : fromLe (toLe 4 (db.entries.length % 2 ^ 32)) = db.entries.length := by
    rw [Nat.mod_eq_of_lt h.count_lt, fromLe_toLe_of_lt h.count_lt]
  generalize hdata : serialize db = data
  rw [serialize_eq, List.append_assoc, List.append_assoc] at hdata
  have h₀ : data.drop 0 = magic ++ ([version] ++ (toLe 4 (db.entries.length % 2 ^ 32) ++
      db.entries.flatMap serializeEntry)) := hdata.symm
  have h₄ := drop_add_of_drop h₀
  have h₅ := drop_add_of_drop h₄
  have h₉ := drop_add_of_drop h₅
  have hmagic := slice_of_drop (Nat.zero_le _) h₀
  have hversion := index_of_drop h₄
  have hread := readArray_of_drop h₅
  have hlen : 9 ≤ data.length := by
    have hheader := le_of_drop (Nat.zero_le _) h₀
    have hheader' := le_of_drop (le_of_drop (le_of_drop (Nat.zero_le _) h₀) h₄) h₅
    rw [length_toLe] at hheader'
    exact hheader'
  rw [length_toLe] at hread h₉
  simp only [show (0 : Nat) + magic.length = 4 from rfl, show 4 + [version].length = 5 from rfl]
    at hmagic hversion hread h₉
  have hentries := deserializeEntries_of_drop h.entry hlen h₉ []
  simp only [deserialize, if_neg (Nat.not_lt.mpr hlen), hmagic, ok_bind, ne_eq, not_true_eq_false,
    if_false, hversion, hread, hcount, hentries, List.nil_append, pure_eq_ok]

/-! ### What is read -/

/-- An entry that was read stands in the image in the form in which it would be written. -/
theorem image_of_deserializeEntry {e : Entry} {off' : Nat}
    (h : deserializeEntry data off = .ok (some (e, off'))) :
    FitsEntry e ∧ data.drop off = serializeEntry e ++ data.drop off' := by
  unfold deserializeEntry at h
  split at h
  · cases h
  obtain ⟨kbytes, hk, h⟩ := bind_eq_ok_iff.mp h
  obtain ⟨vbytes, hv, h⟩ := bind_eq_ok_iff.mp h
  have hklen := length_of_readArray hk
  have hvlen := length_of_readArray hv
  have hklt := fromLe_lt kbytes
  have hvlt := fromLe_lt vbytes
  rw [hklen] at hklt
  rw [hvlen] at hvlt
  dsimp only at h
  split at h
  · cases h
  obtain ⟨keyBytes, hkey, h⟩ := bind_eq_ok_iff.mp h
  have hkeylen := length_of_slice hkey
  cases hutf : fromUtf8 keyBytes with
  | none => rw [hutf] at h; cases h
  | some key =>
    rw [hutf] at h
    obtain ⟨value, hvalue, h⟩ := bind_eq_ok_iff.mp h
    have hvaluelen := length_of_slice hvalue
    cases h
    rw [← fromUtf8_eq_some_iff.mp hutf] at hkeylen hkey
    have hkeylen' : (asBytes key).length = fromLe kbytes := by omega
    have hvaluelen' : value.length = fromLe vbytes := by omega
    refine ⟨⟨by dsimp only; omega, by dsimp only; omega⟩, ?_⟩
    -- The four fields in order, each behind the one before it.
    have hfields : serializeEntry (key, value) = kbytes ++ vbytes ++ asBytes key ++ value := by
      dsimp only [serializeEntry]
      rw [Nat.mod_eq_of_lt (by omega), Nat.mod_eq_of_lt (by omega), hkeylen', hvaluelen', ← hklen,
        toLe_fromLe, ← hvlen, toLe_fromLe]
    rw [hfields, drop_of_readArray hk, drop_of_readArray hv,
      show off + 2 + 4 = off + 6 from rfl, drop_of_slice hkey, drop_of_slice hvalue]
    simp only [List.append_assoc, Nat.add_assoc]

theorem image_of_deserializeEntries {count : Nat} {acc entries : List Entry}
    (h : deserializeEntries data count off acc = .ok (some entries)) :
    ∃ read rest, entries = acc ++ read ∧ read.length = count ∧ (∀ e ∈ read, FitsEntry e) ∧
      data.drop off = read.flatMap serializeEntry ++ rest := by
  induction count generalizing off acc with
  | zero =>
    cases h
    exact ⟨[], data.drop off, (List.append_nil _).symm, rfl, nofun, rfl⟩
  | succ count ih =>
    obtain ⟨answer, hentry, h⟩ := bind_eq_ok_iff.mp h
    cases answer with
    | none => cases h
    | some next =>
      obtain ⟨e, off'⟩ := next
      obtain ⟨hfits, hdrop⟩ := image_of_deserializeEntry hentry
      obtain ⟨read, rest, rfl, rfl, hread, hrest⟩ := ih h
      refine ⟨e :: read, rest, ?_, rfl, List.forall_mem_cons.mpr ⟨hfits, hread⟩, ?_⟩
      · rw [List.append_assoc, List.singleton_append]
      · rw [hdrop, hrest, List.flatMap_cons, List.append_assoc]

/-- Whatever image a database is read from, its lengths fit, and the image is the one of
the database, possibly with more bytes behind it. -/
theorem image_of_deserialize {db : KvDb} (h : deserialize data = .ok (some db)) :
    Fits db ∧ ∃ rest, data = serialize db ++ rest := by
  unfold deserialize at h
  split at h
  · cases h
  obtain ⟨head, hhead, h⟩ := bind_eq_ok_iff.mp h
  split at h
  · cases h
  rename_i hmagic
  obtain ⟨v, hv, h⟩ := bind_eq_ok_iff.mp h
  split at h
  · cases h
  rename_i hversion
  obtain ⟨cbytes, hcount, h⟩ := bind_eq_ok_iff.mp h
  have hclen := length_of_readArray hcount
  have hlt := fromLe_lt cbytes
  rw [hclen] at hlt
  obtain ⟨answer, hentries, h⟩ := bind_eq_ok_iff.mp h
  cases answer with
  | none => cases h
  | some entries =>
    cases h
    obtain ⟨read, rest, rfl, hlen, hfits, hrest⟩ := image_of_deserializeEntries hentries
    refine ⟨⟨by dsimp only; omega, hfits⟩, rest, ?_⟩
    have hcbytes : toLe 4 (entries.length % 2 ^ 32) = cbytes := by
      rw [Nat.mod_eq_of_lt (by omega), hlen, ← hclen, toLe_fromLe]
    obtain rfl : head = magic := not_not.mp hmagic
    obtain rfl : v = version := not_not.mp hversion
    have hdata := drop_of_slice hhead
    rw [List.drop_zero, drop_of_index hv, drop_of_readArray hcount, hrest] at hdata
    rw [hdata, serialize_eq]
    dsimp only
    rw [hcbytes]
    simp only [List.append_assoc, List.cons_append, List.nil_append]

theorem fits_of_deserialize {db : KvDb} (h : deserialize data = .ok (some db)) : Fits db :=
  (image_of_deserialize h).1

end Read

/-! ### The round trip -/

/-- The round trip keeps the entries of a database exactly when its keys are shorter than
2^16 bytes, its values shorter than 2^32 bytes and its entries fewer than 2^32. -/
theorem deserialize_serialize_iff (db : KvDb) :
    (∃ db', deserialize (serialize db) = .ok (some db') ∧ db'.entries = db.entries) ↔
      db.entries.length < 2 ^ 32 ∧
        ∀ e ∈ db.entries, (asBytes e.1).length < 2 ^ 16 ∧ e.2.length < 2 ^ 32 := by
  constructor
  · rintro ⟨db', hread, hentries⟩
    have hfits := fits_of_deserialize hread
    rw [← hentries]
    exact ⟨hfits.count_lt, fun e he => ⟨(hfits.entry e he).key_lt, (hfits.entry e he).value_lt⟩⟩
  · rintro ⟨hcount, hentry⟩
    exact ⟨_, deserialize_of_fits ⟨hcount, fun e he => ⟨(hentry e he).1, (hentry e he).2⟩⟩, rfl⟩

/-- A database that holds a key of 2^16 bytes or more is not restored. -/
theorem not_restored_of_long_key {key : String} (hkey : 2 ^ 16 ≤ (asBytes key).length) :
    ∃ db, run step (new "system") [.set key []] = .ok db ∧
      ¬ ∃ db', deserialize (serialize db) = .ok (some db') ∧ db'.entries = db.entries := by
  obtain ⟨db, hrun, hdb⟩ := run_represents "system" [.set key []]
  refine ⟨db, hrun, ?_⟩
  rintro ⟨db', hread, hentries⟩
  have hmem : (key, []) ∈ db'.entries := by
    rw [hentries, hdb.mem_iff]
    simp [lastValue, Op.touches]
  have hlt := ((fits_of_deserialize hread).entry _ hmem).key_lt
  dsimp only at hlt
  omega

/-- The key of `n` letters. -/
def letters (n : Nat) : String := String.ofList (List.replicate n 'a')

theorem length_letters (n : Nat) : (asBytes (letters n)).length = n := by
  simp [letters, asBytes_ofList, utf8, String.utf8EncodeChar]

/-- The database left by setting one key of 65536 bytes is not restored. -/
theorem long_key_not_restored :
    ¬ ∀ name ops db, run step (new name) ops = .ok db →
      ∃ db', deserialize (serialize db) = .ok (some db') ∧ db'.entries = db.entries := by
  intro hclaim
  obtain ⟨db, hrun, hlost⟩ := not_restored_of_long_key (length_letters (2 ^ 16)).ge
  exact hlost (hclaim "system" [.set (letters (2 ^ 16)) []] db hrun)

/-- A database that fits can be saved and read back between any two calls: later calls find what
the calls before left. -/
theorem restored_get (name : String) (ops ops' : List Op) :
    ∃ db, run step (new name) ops = .ok db ∧ (Fits db →
      ∃ db₁ db₂, deserialize (serialize db) = .ok (some db₁) ∧ run step db₁ ops' = .ok db₂ ∧
        ∀ key, db₂.get key = .ok (lastValue (ops ++ ops') key)) := by
  obtain ⟨db, hrun, hdb⟩ := run_represents name ops
  refine ⟨db, hrun, fun hfits => ?_⟩
  -- The image holds all but the name.
  have hread : Represents ⟨"", db.entries⟩ (lastValue ops) := ⟨hdb.1, hdb.2⟩
  obtain ⟨db₂, hrun₂, hdb₂⟩ := hread.returns_run ops'
  exact ⟨_, db₂, deserialize_of_fits hfits, hrun₂, hdb₂.get_eq⟩

end MerlionKernel.KvDb
