import MerlionKernel.Theory.Run
import Mathlib.Data.List.Perm.Lattice

/-!
# The slab cache

`slab.rs` cuts one page into slots of a fixed size. The offsets of the free slots are kept
in a vector; `alloc` pops one, `free` pushes the offset of the address it is given. Whether
an address was ever handed out is not recorded, so `free` can only test that it is the
start of a slot.
-/

namespace MerlionKernel.Slab

open Rust Theory

/-- `SLAB_SIZE`: one page per slab. -/
def slabSize : Nat := 4096

/-- A cache of objects of one size. The slab's bytes are never read by the cache, only
their address `base` is. -/
structure SlabCache where
  objSize : Nat
  allocated : Nat
  freed : Nat
  base : Nat
  freeList : List Nat

namespace SlabCache

/-- A cache whose slab the allocator placed at `base`: every slot is free, the last slot
first. -/
def new (base objSize : Nat) : Exec SlabCache := do
  let capacity ← div slabSize objSize
  return {
    objSize, allocated := 0, freed := 0, base,
    freeList := (List.range capacity).reverse.map (· * objSize) }

/-- Take a slot from the end of the free list. -/
def alloc (self : SlabCache) : Exec (Option Nat × SlabCache) :=
  match self.freeList.getLast? with
  | none => return (none, self)
  | some offset => do
    let allocated ← u64 (self.allocated + 1)
    return (some (self.base + offset),
      { self with allocated, freeList := self.freeList.dropLast })

/-- Give the slot that starts at `addr` back; `false` when no slot does. -/
def free (self : SlabCache) (addr : Nat) : Exec (Bool × SlabCache) :=
  if addr < self.base then return (false, self)
  else do
    let top ← u64 (self.base + slabSize)
    if addr ≥ top then return (false, self)
    else do
      let offset := addr - self.base
      -- The rest of the page behind the last whole slot passes this test too.
      let past ← rem offset self.objSize
      if past ≠ 0 then return (false, self)
      else do
        let freed ← u64 (self.freed + 1)
        return (true, { self with freed, freeList := self.freeList ++ [offset] })

/-- The number of objects in use, by the cache's own count. -/
def inUse (self : SlabCache) : Exec Nat := sub self.allocated self.freed

/-- What an accepted `free` did. -/
theorem of_free_true {self cache : SlabCache} {addr : Nat}
    (h : self.free addr = .ok (true, cache)) :
    self.base ≤ addr ∧
      cache = { self with freed := self.freed + 1,
                          freeList := self.freeList ++ [addr - self.base] } := by
  unfold free at h
  split at h
  · simp at h
  · rename_i hbase
    simp only [bind_eq_ok_iff] at h
    obtain ⟨top, -, h⟩ := h
    split at h
    · simp at h
    · simp only [bind_eq_ok_iff] at h
      obtain ⟨past, -, h⟩ := h
      split at h
      · simp at h
      · obtain ⟨freed, hfreed, h⟩ := bind_eq_ok_iff.mp h
        obtain ⟨-, rfl⟩ := u64_eq_ok_iff.mp hfreed
        simp only [pure_eq_ok, Except.ok.injEq, Prod.mk.injEq, true_and] at h
        exact ⟨Nat.not_lt.mp hbase, h.symm⟩

/-- A `free` that is not accepted changes nothing. -/
theorem of_free_false {self cache : SlabCache} {addr : Nat}
    (h : self.free addr = .ok (false, cache)) : cache = self := by
  unfold free at h
  split at h
  · simpa using h.symm
  · simp only [bind_eq_ok_iff] at h
    obtain ⟨top, -, h⟩ := h
    split at h
    · simpa using h.symm
    · simp only [bind_eq_ok_iff] at h
      obtain ⟨past, -, h⟩ := h
      split at h
      · simpa using h.symm
      · obtain ⟨freed, -, h⟩ := bind_eq_ok_iff.mp h
        simp at h

end SlabCache

/-! ### Histories -/

/-- The calls on a cache. -/
inductive Call
  | alloc
  | free (addr : Nat)

/-- A cache, and the addresses of the objects allocated from it and not yet freed. -/
structure History where
  cache : SlabCache
  live : List Nat

/-- One call. An accepted `free` ends the life of one object at that address, if there is
one. -/
def History.step (s : History) : Call → Exec History
  | .alloc => do
    let (slot, cache) ← s.cache.alloc
    return { cache, live := slot.toList ++ s.live }
  | .free addr => do
    let (accepted, cache) ← s.cache.free addr
    return { cache, live := if accepted then s.live.erase addr else s.live }

/-- Live objects share no byte, lie in the slab, and are as many as the cache counts. -/
structure Sound (s : History) : Prop where
  apart : s.live.Pairwise fun a b => a + s.cache.objSize ≤ b ∨ b + s.cache.objSize ≤ a
  inside : ∀ a ∈ s.live, s.cache.base ≤ a ∧ a + s.cache.objSize ≤ s.cache.base + slabSize
  counted : s.cache.inUse = .ok s.live.length

/-- A `free` the cache accepts names a live object. -/
def FreesLive (s : History) : Call → Prop
  | .alloc => True
  | .free addr => (∃ cache, s.cache.free addr = .ok (true, cache)) → addr ∈ s.live

/-! ### The slots are shared out between the free list and the live objects -/

/-- The offsets at which slots of the given size start. -/
def slots (objSize : Nat) : List Nat := (List.range (slabSize / objSize)).map (· * objSize)

theorem slots_apart (objSize : Nat) :
    (slots objSize).Pairwise fun a b => a + objSize ≤ b ∨ b + objSize ≤ a := by
  refine List.pairwise_map.mpr (List.pairwise_lt_range.imp fun {i j} hij => Or.inl ?_)
  calc i * objSize + objSize = (i + 1) * objSize := (Nat.succ_mul i objSize).symm
    _ ≤ j * objSize := Nat.mul_le_mul_right _ hij

theorem slot_inside {objSize offset : Nat} (h : offset ∈ slots objSize) :
    offset + objSize ≤ slabSize := by
  obtain ⟨i, hi, rfl⟩ := List.mem_map.mp h
  calc i * objSize + objSize = (i + 1) * objSize := (Nat.succ_mul i objSize).symm
    _ ≤ slabSize / objSize * objSize := Nat.mul_le_mul_right _ (List.mem_range.mp hi)
    _ ≤ slabSize := Nat.div_mul_le_self ..

/-- Every slot is either free or holds exactly one live object. -/
structure Shared (s : History) : Prop where
  parted : ∃ offsets, s.live = offsets.map (s.cache.base + ·) ∧
    (s.cache.freeList ++ offsets).Perm (slots s.cache.objSize)
  counted : s.cache.allocated = s.cache.freed + s.live.length

theorem Shared.sound {s : History} (h : Shared s) : Sound s := by
  obtain ⟨offsets, hlive, hperm⟩ := h.parted
  have hsub : ∀ offset ∈ offsets, offset ∈ slots s.cache.objSize := fun offset hmem =>
    hperm.subset (List.mem_append_right _ hmem)
  refine ⟨?_, ?_, ?_⟩
  · have hall := (hperm.pairwise_iff fun hab => hab.symm).mpr (slots_apart s.cache.objSize)
    rw [hlive, List.pairwise_map]
    refine (List.pairwise_append.mp hall).2.1.imp fun {a b} hab => ?_
    omega
  · intro a ha
    rw [hlive] at ha
    obtain ⟨offset, hmem, rfl⟩ := List.mem_map.mp ha
    have hin := slot_inside (hsub offset hmem)
    omega
  · rw [SlabCache.inUse, h.counted, sub_eq_ok (Nat.le_add_right ..), Nat.add_sub_cancel_left]

theorem shared_new {base objSize : Nat} {cache : SlabCache}
    (h : SlabCache.new base objSize = .ok cache) : Shared ⟨cache, []⟩ := by
  obtain ⟨capacity, hcapacity, h⟩ := bind_eq_ok_iff.mp h
  unfold div at hcapacity
  split at hcapacity
  · cases hcapacity
  · cases hcapacity
    cases h
    refine ⟨⟨[], rfl, ?_⟩, rfl⟩
    rw [List.append_nil]
    exact (List.reverse_perm _).map _

theorem Shared.alloc {s s' : History} (h : Shared s) (hstep : s.step .alloc = .ok s') :
    Shared s' := by
  obtain ⟨⟨slot, cache⟩, halloc, hs'⟩ := bind_eq_ok_iff.mp hstep
  cases hs'
  unfold SlabCache.alloc at halloc
  split at halloc
  · cases halloc
    exact h
  · rename_i offset hlast
    obtain ⟨allocated, hallocated, hcache⟩ := bind_eq_ok_iff.mp halloc
    cases hcache
    obtain ⟨-, rfl⟩ := u64_eq_ok_iff.mp hallocated
    obtain ⟨offsets, hlive, hperm⟩ := h.parted
    refine ⟨⟨offset :: offsets, by simp [hlive], ?_⟩, ?_⟩
    · -- The popped offset moves from the end of the free list to the front of the live ones.
      have hfree := List.dropLast_append_getLast? offset hlast
      rw [← hfree, List.append_assoc] at hperm
      exact hperm
    · have hcount := h.counted
      simp only [Option.toList_some, List.length_append, List.length_singleton]
      omega

theorem Shared.free {s s' : History} {addr : Nat} (h : Shared s)
    (hlive : FreesLive s (.free addr)) (hstep : s.step (.free addr) = .ok s') : Shared s' := by
  obtain ⟨⟨accepted, cache⟩, hfree, hs'⟩ := bind_eq_ok_iff.mp hstep
  cases hs'
  cases accepted with
  | false =>
    obtain rfl := SlabCache.of_free_false hfree
    exact h
  | true =>
    have hmem : addr ∈ s.live := hlive ⟨cache, hfree⟩
    obtain ⟨-, rfl⟩ := SlabCache.of_free_true hfree
    obtain ⟨offsets, hoffsets, hperm⟩ := h.parted
    obtain ⟨offset, hoffset, rfl⟩ := List.mem_map.mp (hoffsets ▸ hmem)
    refine ⟨⟨offsets.erase offset, ?_, ?_⟩, ?_⟩
    · simp only [if_true, hoffsets]
      exact (List.map_erase (fun _ _ heq => Nat.add_left_cancel heq) offsets).symm
    · have hback := (List.perm_cons_erase hoffset).append_left s.cache.freeList
      rw [Nat.add_sub_cancel_left, List.append_assoc]
      exact hback.symm.trans hperm
    · have hcount := h.counted
      have hpos := List.length_pos_of_mem hmem
      simp only [if_true, List.length_erase_of_mem hmem]
      omega

theorem Shared.step {s s' : History} {call : Call} (h : Shared s) (hlive : FreesLive s call)
    (hstep : s.step call = .ok s') : Shared s' := by
  cases call with
  | alloc => exact h.alloc hstep
  | free addr => exact h.free hlive hstep

/-- Accepting a `free` of no live object puts the cache's count off. -/
theorem Shared.miscounted {s : History} {call : Call} (h : Shared s)
    (hdead : ¬ FreesLive s call) : ∃ s', s.step call = .ok s' ∧ ¬ Sound s' := by
  cases call with
  | alloc => exact absurd trivial hdead
  | free addr =>
    obtain ⟨⟨cache, hfree⟩, hmem⟩ := Classical.not_imp.mp hdead
    refine ⟨⟨cache, s.live.erase addr⟩, ?_, fun hsound => ?_⟩
    · rw [History.step, hfree]
      rfl
    · have hcount := hsound.counted
      have hshared := h.counted
      obtain ⟨-, rfl⟩ := SlabCache.of_free_true hfree
      rw [SlabCache.inUse, List.erase_of_not_mem hmem, sub_eq_ok_iff] at hcount
      simp only at hcount
      omega

/-- For objects of at least 8 bytes, the live objects of a cache never overlap, stay in
the slab and are counted by `inUse` after every initial part of the calls exactly when
every `free` that is accepted names an object that is live at that moment. -/
theorem always_sound_iff (base objSize : Nat) (hsize : 8 ≤ objSize) :
    ∃ cache, SlabCache.new base objSize = .ok cache ∧ ∀ calls : List Call,
      Always History.step Sound ⟨cache, []⟩ calls ↔
        Guarded History.step FreesLive ⟨cache, []⟩ calls := by
  have hnew : ∃ cache, SlabCache.new base objSize = .ok cache := by
    rw [SlabCache.new, div_eq_ok (by omega)]
    exact ⟨_, rfl⟩
  obtain ⟨cache, hcache⟩ := hnew
  refine ⟨cache, hcache, always_iff_guarded Shared ?_ ?_ ?_ (shared_new hcache)⟩
  · exact fun s hs => hs.sound
  · exact fun s call s' hs hlive hstep => hs.step hlive hstep
  · exact fun s call hs hdead => hs.miscounted hdead

theorem always_sound_iff_task : 8 ≤ 256 ∧
    ∃ cache, SlabCache.new 0x10000 256 = .ok cache ∧ ∀ calls : List Call,
      Always History.step Sound ⟨cache, []⟩ calls ↔
        Guarded History.step FreesLive ⟨cache, []⟩ calls :=
  ⟨by decide, always_sound_iff 0x10000 256 (by decide)⟩

/-- Freeing one object twice hands its slot out twice: two live objects at one address. -/
theorem double_free_shares_slot :
    (do let cache ← SlabCache.new 0x10000 2048
        let s ← run History.step ⟨cache, []⟩
          [.alloc, .alloc, .free 0x10000, .free 0x10000, .alloc, .alloc]
        return s.live) = .ok [0x10000, 0x10000, 0x10800] := by
  decide

end MerlionKernel.Slab
