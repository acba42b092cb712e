import MerlionKernel.Vfs.Model

/-!
# Paths and inodes

A path is resolved by its components alone, so spellings that differ in slashes lead to the
same inode. The names on the way from the root down to an inode make up its path, and
walking down along them leads back to the inode as long as every name on the way is that of
the first child.
-/

namespace MerlionKernel.Vfs

open Rust

variable {inodes : List Inode} {dir i : Nat} {name : String}

/-! ### Children -/

theorem isChild_iff : isChild inodes dir name i = true ↔
    i ≠ 0 ∧ ∃ inode, inodes[i]? = some inode ∧ inode.parent = dir ∧ inode.name = name := by
  unfold isChild
  cases inodes[i]? with
  | none => simp
  | some inode => simp

theorem findChild_eq_some_iff : findChild inodes dir name = some i ↔
    isChild inodes dir name i = true ∧ ∀ j < i, isChild inodes dir name j = false := by
  rw [findChild, List.find?_range_eq_some, List.mem_range]
  constructor
  · rintro ⟨hi, -, hfirst⟩
    exact ⟨hi, fun j hj => by simpa using hfirst j hj⟩
  · rintro ⟨hi, hfirst⟩
    obtain ⟨-, inode, hinode, -⟩ := isChild_iff.mp hi
    exact ⟨hi, (List.getElem?_eq_some_iff.mp hinode).1, fun j hj => by simpa using hfirst j hj⟩

theorem findChild_eq_none_iff : findChild inodes dir name = none ↔
    ∀ j, isChild inodes dir name j = false := by
  rw [findChild, List.find?_range_eq_none]
  constructor
  · intro hnone j
    by_cases hj : j < inodes.length
    · simpa using hnone j hj
    · simp [isChild, List.getElem?_eq_none (Nat.not_lt.mp hj)]
  · intro hnone j _
    simp [hnone j]

/-- What is found is a child. -/
theorem child_of_findChild (h : findChild inodes dir name = some i) :
    i ≠ 0 ∧ ∃ inode, inodes[i]? = some inode ∧ inode.parent = dir ∧ inode.name = name :=
  isChild_iff.mp (findChild_eq_some_iff.mp h).1

/-! ### Walking down -/

/-- Follow the components from the root down. -/
def walk (inodes : List Inode) (components : List String) : Option Nat :=
  components.foldlM (fun current component => findChild inodes current component) 0

@[simp] theorem walk_nil : walk inodes [] = some 0 := rfl

theorem walk_append_singleton (components : List String) (name : String) :
    walk inodes (components ++ [name]) =
      (walk inodes components).bind fun dir => findChild inodes dir name := by
  rw [walk, List.foldlM_append]
  simp only [List.foldlM_cons, List.foldlM_nil]
  cases h : components.foldlM (fun current component => findChild inodes current component) 0 with
  | none => simp [walk, h]
  | some dir => simp [walk, h]

theorem pieces_root : pieces "/" '/' = [] := by decide

theorem resolveUncached_eq_walk (fs : Filesystem) (path : String) :
    fs.resolveUncached path = walk fs.inodes (pieces path '/') := by
  unfold Filesystem.resolveUncached
  split
  · rename_i hroot
    subst hroot
    rw [pieces_root]
    rfl
  · rw [foldlM_split, pieces_trimStartMatches]
    rfl

/-- The cache answers only with what the walk answers. -/
theorem resolve_eq_walk (fs : Filesystem) (path : String) :
    fs.resolve path = walk fs.inodes (pieces path '/') := by
  rw [← resolveUncached_eq_walk]
  unfold Filesystem.resolve
  simp only
  split
  · rename_i idx hcached
    obtain ⟨⟨h, idx'⟩, -, hentry⟩ := List.exists_of_findSome?_eq_some hcached
    simp only at hentry
    split at hentry
    · split at hentry
      · rename_i verified hverified
        split at hentry
        · rename_i heq
          rw [hverified, heq]
          exact hentry.symm
        · cases hentry
      · cases hentry
    · cases hentry
  · rfl

/-! ### The path of an inode -/

/-- The names from the root down to the inode `i`. -/
inductive Below (inodes : List Inode) : Nat → List String → Prop
  | root : Below inodes 0 []
  | child {i : Nat} {inode : Inode} {names : List String} (hne : i ≠ 0)
      (hinode : inodes[i]? = some inode) (hup : inode.parent < i)
      (habove : Below inodes inode.parent names) : Below inodes i (names ++ [inode.name])

theorem pieces_joinParts {parts : List String} (hne : ∀ p ∈ parts, p ≠ "")
    (hslash : ∀ p ∈ parts, '/' ∉ p.toList) : pieces (joinParts parts) '/' = parts := by
  -- By induction for every text in front, since the fold extends it at the end.
  have hgen : ∀ (parts : List String) (path : String), (∀ p ∈ parts, p ≠ "") →
      (∀ p ∈ parts, '/' ∉ p.toList) →
      pieces (parts.foldl (fun path p => path.push '/' ++ p) path) '/' =
        pieces path '/' ++ parts := by
    intro parts
    induction parts with
    | nil => simp
    | cons p parts ih =>
      intro path hne hslash
      have hstep : path.push '/' ++ p = path ++ String.singleton '/' ++ p := by
        simp [← String.toList_inj]
      rw [List.foldl_cons, ih _ (fun q hq => hne q (List.mem_cons_of_mem _ hq))
        (fun q hq => hslash q (List.mem_cons_of_mem _ hq)), hstep, pieces_append,
        pieces_of_notMem (hslash p List.mem_cons_self) (hne p List.mem_cons_self)]
      simp
  have h := hgen parts "" hne hslash
  rwa [pieces_empty, List.nil_append] at h

namespace Below

variable {names : List String} {fs : Filesystem}

/-- The upward loop of `build_path` collects the names from the inode to the root. -/
theorem loop_eq (h : Below fs.inodes i names) (parts : List String) {fuel : Nat}
    (hfuel : i < fuel) :
    loop (fun (cur, parts) => do
        if cur ≠ 0 then
          let inode ← index fs.inodes cur
          return ControlFlow.again (inode.parent, parts ++ [inode.name])
        else return .stop parts)
      fuel (i, parts) = .ok (parts ++ names.reverse) := by
  induction h generalizing parts fuel with
  | root =>
    obtain ⟨fuel, rfl⟩ := Nat.exists_eq_add_of_lt hfuel
    rw [Nat.zero_add, loop_stop rfl, List.reverse_nil, List.append_nil]
  | @child i inode names hne hinode hup habove ih =>
    obtain ⟨fuel, rfl⟩ : ∃ n, fuel = n + 1 := ⟨fuel - 1, by omega⟩
    have hround : (fun (cur, parts) => do
        if cur ≠ 0 then
          let inode ← index fs.inodes cur
          return ControlFlow.again (inode.parent, parts ++ [inode.name])
        else return .stop parts : Nat × List String → Exec _) (i, parts) =
          .ok (.again (inode.parent, parts ++ [inode.name])) := by
      simp only [ne_eq, hne, not_false_eq_true, if_true, index_eq_ok_iff.mpr hinode]
      rfl
    rw [loop_again hround, ih _ (by omega)]
    simp

theorem buildPath (h : Below fs.inodes i names) (hi : i < fs.inodes.length) (hne : i ≠ 0) :
    fs.buildPath i = .ok (joinParts names) := by
  rw [Filesystem.buildPath, if_neg hne, h.loop_eq [] (by omega)]
  simp

end Below

end MerlionKernel.Vfs
