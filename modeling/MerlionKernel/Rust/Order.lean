import MerlionKernel.Rust.Text
import Mathlib.Data.List.Lex
import Mathlib.Order.Nat

/-!
# The order of strings

Rust orders strings lexicographically by their UTF-8 bytes. The order is carried by
`ordKey`, the bytes as numbers, so that it is linear by the order of lists.
-/

namespace MerlionKernel.Rust

variable {s t : String}

/-- The bytes of a string as numbers. -/
def ordKey (s : String) : List Nat := (asBytes s).map UInt8.toNat

theorem ordKey_inj : ordKey s = ordKey t ↔ s = t := by
  rw [ordKey, ordKey, List.map_inj_right fun a b => UInt8.toNat_inj.mp, asBytes_inj]

/-- `str::cmp`. -/
def strCmp (s t : String) : Ordering :=
  if ordKey s < ordKey t then .lt else if ordKey s = ordKey t then .eq else .gt

theorem strCmp_eq_lt_iff : strCmp s t = .lt ↔ ordKey s < ordKey t := by
  unfold strCmp
  split_ifs with hlt heq <;> simp [hlt]

theorem strCmp_eq_eq_iff : strCmp s t = .eq ↔ s = t := by
  rw [← ordKey_inj]
  unfold strCmp
  split_ifs with hlt heq
  · simp [hlt.ne]
  · simp [heq]
  · simp [heq]

theorem strCmp_eq_gt_iff : strCmp s t = .gt ↔ ordKey t < ordKey s := by
  unfold strCmp
  split_ifs with hlt heq
  · simp [hlt.not_gt]
  · simp [heq]
  · simpa using lt_of_le_of_ne (not_lt.mp hlt) (Ne.symm heq)

/-- `str::starts_with` for a string pattern. -/
def startsWith (s pfx : String) : Bool := (asBytes pfx).isPrefixOf (asBytes s)

theorem startsWith_iff {pfx : String} : startsWith s pfx = true ↔ ordKey pfx <+: ordKey s := by
  rw [startsWith, List.isPrefixOf_iff_prefix, ordKey, ordKey, List.prefix_iff_eq_take,
    List.prefix_iff_eq_take, List.length_map, ← List.map_take,
    List.map_inj_right fun a b => UInt8.toNat_inj.mp]

end MerlionKernel.Rust
