import Mathlib.Data.List.Induction
import MerlionKernel.Vfs.Lookup

/-!
# What a call can do to the tree

Whatever the path and whatever the outcome, a call of `write`, `rm` or `mkdir` changes at
most one inode: it adds a child that its directory did not have, replaces the contents of a
regular file, or deletes one. Everything that holds of all reachable trees follows from
these changes.
-/

namespace MerlionKernel.Vfs

open Rust

/-- One call's effect on the inodes. -/
inductive Change (inodes : List Inode) : List Inode → Prop
  | same : Change inodes inodes
  | added {inode dir : Inode} (hdir : inodes[inode.parent]? = some dir)
      (htype : dir.nodeType = .directory)
      (habsent : findChild inodes inode.parent inode.name = none)
      (hslash : '/' ∉ inode.name.toList) : Change inodes (inodes ++ [inode])
  | wrote {idx : Nat} {inode : Inode} (hinode : inodes[idx]? = some inode)
      (htype : inode.nodeType = .regularFile) (data : String) :
      Change inodes (inodes.set idx { inode with data })
  | deleted {idx : Nat} {inode : Inode} (hne : idx ≠ 0) (hinode : inodes[idx]? = some inode)
      (htype : inode.nodeType = .regularFile) : Change inodes (inodes.set idx inode.deleted)

/-- The inode was not deleted. -/
def Live (inode : Inode) : Prop := ¬ (inode.nodeType = .devNull ∧ inode.name = "(deleted)")

theorem live_of_directory {inode : Inode} (h : inode.nodeType = .directory) : Live inode := by
  rintro ⟨hnull, -⟩
  rw [h] at hnull
  cases hnull

theorem live_of_regularFile {inode : Inode} (h : inode.nodeType = .regularFile) : Live inode := by
  rintro ⟨hnull, -⟩
  rw [h] at hnull
  cases hnull

theorem deleted_parent (inode : Inode) : inode.deleted.parent = inode.parent := rfl

theorem not_live_deleted (inode : Inode) : ¬ Live inode.deleted := fun h => h ⟨rfl, rfl⟩

/-- Every inode but the root is the child of a directory in front of it, no name has a
slash, and two children of a directory that were not deleted have different names. -/
structure Rooted (inodes : List Inode) : Prop where
  root : ∃ r, inodes[0]? = some r ∧ r.nodeType = .directory
  parents : ∀ (i : Nat) (a : Inode), inodes[i]? = some a → i ≠ 0 → a.parent < i ∧
    ∃ dir, inodes[a.parent]? = some dir ∧ dir.nodeType = .directory
  slashless : ∀ (i : Nat) (a : Inode), inodes[i]? = some a → '/' ∉ a.name.toList
  siblings : ∀ (i j : Nat) (a b : Inode), inodes[i]? = some a → inodes[j]? = some b → i ≠ 0 →
    j ≠ 0 → Live a → Live b → a.parent = b.parent → a.name = b.name → i = j

/-! ### Vectors after a change -/

/-- An inode of the longer vector is an old one or the new one. -/
theorem of_getElem?_append {inodes : List Inode} {new a : Inode} {i : Nat}
    (h : (inodes ++ [new])[i]? = some a) :
    inodes[i]? = some a ∨ i = inodes.length ∧ a = new := by
  rcases Nat.lt_or_ge i inodes.length with hi | hi
  · rw [List.getElem?_append_left hi] at h
    exact Or.inl h
  · rw [List.getElem?_append_right hi] at h
    obtain ⟨hlt, heq⟩ := List.getElem?_eq_some_iff.mp h
    simp only [List.length_singleton] at hlt
    refine Or.inr ⟨by omega, ?_⟩
    rw [← heq]
    simp [show i - inodes.length = 0 by omega]

theorem getElem?_append_of_some {inodes : List Inode} {a : Inode} {i : Nat} (new : Inode)
    (h : inodes[i]? = some a) : (inodes ++ [new])[i]? = some a := by
  rw [List.getElem?_append_left (List.getElem?_eq_some_iff.mp h).1]
  exact h

/-- An inode after one was replaced is the new one or an old one elsewhere. -/
theorem of_getElem?_set {inodes : List Inode} {new a : Inode} {idx i : Nat}
    (h : (inodes.set idx new)[i]? = some a) :
    i = idx ∧ a = new ∧ (∃ old, inodes[idx]? = some old) ∨ i ≠ idx ∧ inodes[i]? = some a := by
  by_cases hi : i = idx
  · subst hi
    obtain ⟨hlt, heq⟩ := List.getElem?_eq_some_iff.mp h
    rw [List.length_set] at hlt
    refine Or.inl ⟨rfl, ?_, inodes[i], List.getElem?_eq_getElem hlt⟩
    rw [← heq, List.getElem_set_self]
  · rw [List.getElem?_set_ne (Ne.symm hi)] at h
    exact Or.inr ⟨hi, h⟩

/-- Replacing an inode by one with the same parent, name and type changes no lookup. -/
theorem findChild_congr {inodes inodes' : List Inode}
    (h : inodes'.map (fun a => (a.parent, a.name)) = inodes.map (fun a => (a.parent, a.name)))
    (dir : Nat) (name : String) : findChild inodes' dir name = findChild inodes dir name := by
  have hlength : inodes'.length = inodes.length := by simpa using congrArg List.length h
  have hchild : isChild inodes' dir name = isChild inodes dir name := by
    funext i
    have hi : inodes'[i]?.map (fun a => (a.parent, a.name)) =
        inodes[i]?.map (fun a => (a.parent, a.name)) := by
      rw [← List.getElem?_map, ← List.getElem?_map, h]
    unfold isChild
    cases hl : inodes'[i]? with
    | none =>
      cases hr : inodes[i]? with
      | none => rfl
      | some b => simp [hl, hr] at hi
    | some a =>
      cases hr : inodes[i]? with
      | none => simp [hl, hr] at hi
      | some b =>
        simp only [hl, hr, Option.map_some, Option.some.injEq, Prod.mk.injEq] at hi
        simp [hi.1, hi.2]
  rw [findChild, findChild, hchild, hlength]

/-- A child that was found is found after another inode was added. -/
theorem findChild_append_of_some {inodes : List Inode} {dir i : Nat} {name : String}
    (new : Inode) (h : findChild inodes dir name = some i) :
    findChild (inodes ++ [new]) dir name = some i := by
  obtain ⟨hi, hfirst⟩ := findChild_eq_some_iff.mp h
  obtain ⟨hne, inode, hinode, hkey⟩ := isChild_iff.mp hi
  have hlt := (List.getElem?_eq_some_iff.mp hinode).1
  refine findChild_eq_some_iff.mpr ⟨?_, fun j hj => ?_⟩
  · exact isChild_iff.mpr ⟨hne, inode, getElem?_append_of_some new hinode, hkey⟩
  · rw [← hfirst j hj, isChild, isChild, List.getElem?_append_left (by omega)]

/-- A new child is found when the directory had no child of its name. -/
theorem findChild_append_of_none {inodes : List Inode} {new : Inode}
    (h : findChild inodes new.parent new.name = none) (hne : inodes ≠ []) :
    findChild (inodes ++ [new]) new.parent new.name = some inodes.length := by
  refine findChild_eq_some_iff.mpr ⟨?_, fun j hj => ?_⟩
  · exact isChild_iff.mpr ⟨by simpa using hne, new, by simp, rfl, rfl⟩
  · rw [← findChild_eq_none_iff.mp h j, isChild, isChild, List.getElem?_append_left hj]

/-- A walk that succeeded leads to the same place after an inode was added. -/
theorem walk_append_of_some {inodes : List Inode} {components : List String} {i : Nat}
    (new : Inode) (h : walk inodes components = some i) :
    walk (inodes ++ [new]) components = some i := by
  induction components using List.reverseRecOn generalizing i with
  | nil => exact h
  | append_singleton components name ih =>
    rw [walk_append_singleton, Option.bind_eq_some_iff] at h ⊢
    obtain ⟨dir, hdir, hchild⟩ := h
    exact ⟨dir, ih hdir, findChild_append_of_some new hchild⟩

/-! ### Changes keep the tree rooted -/

namespace Rooted

variable {inodes inodes' : List Inode}

theorem ne_nil (h : Rooted inodes) : inodes ≠ [] := by
  rintro rfl
  obtain ⟨r, hr, -⟩ := h.root
  cases hr

/-- The children in the initial tree have different names. -/
theorem initial_siblings {i j : Nat} {a b : Inode} (ha : Filesystem.initialInodes[i]? = some a)
    (hb : Filesystem.initialInodes[j]? = some b) (hi : i ≠ 0) (hj : j ≠ 0)
    (hparent : a.parent = b.parent) (hname : a.name = b.name) : i = j := by
  have hall : ∀ i : Fin 14, ∀ j : Fin 14, i.val ≠ 0 → j.val ≠ 0 →
      Filesystem.initialInodes[i].parent = Filesystem.initialInodes[j].parent →
      Filesystem.initialInodes[i].name = Filesystem.initialInodes[j].name → i = j := by decide
  obtain ⟨hi', rfl⟩ := List.getElem?_eq_some_iff.mp ha
  obtain ⟨hj', rfl⟩ := List.getElem?_eq_some_iff.mp hb
  exact congrArg Fin.val (hall ⟨i, hi'⟩ ⟨j, hj'⟩ hi hj hparent hname)

theorem initial : Rooted Filesystem.initialInodes := by
  have hparents : ∀ i : Fin 14, i.val ≠ 0 → Filesystem.initialInodes[i].parent < i.val ∧
      (Filesystem.initialInodes[Filesystem.initialInodes[i].parent]?.map Inode.nodeType) =
        some .directory := by decide
  have hslash : ∀ i : Fin 14, '/' ∉ Filesystem.initialInodes[i].name.toList := by decide
  refine ⟨⟨_, rfl, rfl⟩, ?_, ?_, ?_⟩
  · intro i a ha hne
    obtain ⟨hi, rfl⟩ := List.getElem?_eq_some_iff.mp ha
    obtain ⟨hup, hdir⟩ := hparents ⟨i, hi⟩ hne
    exact ⟨hup, Option.map_eq_some_iff.mp hdir⟩
  · intro i a ha
    obtain ⟨hi, rfl⟩ := List.getElem?_eq_some_iff.mp ha
    exact hslash ⟨i, hi⟩
  · intro i j a b ha hb hi hj _ _ hparent hname
    exact initial_siblings ha hb hi hj hparent hname

/-- Children that share a name are the same, unless the name is that of deleted files. -/
theorem unique (h : Rooted inodes) {i j : Nat} {a b : Inode} (ha : inodes[i]? = some a)
    (hb : inodes[j]? = some b) (hi : i ≠ 0) (hj : j ≠ 0) (hparent : a.parent = b.parent)
    (hname : a.name = b.name) : i = j ∨ a.name = "(deleted)" := by
  by_cases hlive : Live a
  · by_cases hlive' : Live b
    · exact Or.inl (h.siblings i j a b ha hb hi hj hlive hlive' hparent hname)
    · exact Or.inr (hname.trans (Classical.not_not.mp hlive').2)
  · exact Or.inr (Classical.not_not.mp hlive).2

/-- The tree after a new child of a directory. -/
theorem added (h : Rooted inodes) {new dir : Inode} (hdir : inodes[new.parent]? = some dir)
    (htype : dir.nodeType = .directory) (habsent : findChild inodes new.parent new.name = none)
    (hslash : '/' ∉ new.name.toList) : Rooted (inodes ++ [new]) := by
  -- The new child shares its parent and its name with no other inode.
  have hfresh : ∀ (i : Nat) (a : Inode), inodes[i]? = some a → i ≠ 0 → a.parent = new.parent →
      a.name ≠ new.name := by
    intro i a ha hi hparent hname
    have hnot := findChild_eq_none_iff.mp habsent i
    rw [isChild_iff.mpr ⟨hi, a, ha, hparent, hname⟩] at hnot
    cases hnot
  refine ⟨?_, ?_, ?_, ?_⟩
  · obtain ⟨r, hr, hrtype⟩ := h.root
    exact ⟨r, getElem?_append_of_some new hr, hrtype⟩
  · intro i a ha hi
    rcases of_getElem?_append ha with hold | ⟨rfl, rfl⟩
    · obtain ⟨hup, d, hd, hdtype⟩ := h.parents i a hold hi
      exact ⟨hup, d, getElem?_append_of_some new hd, hdtype⟩
    · exact ⟨(List.getElem?_eq_some_iff.mp hdir).1, dir, getElem?_append_of_some a hdir, htype⟩
  · intro i a ha
    rcases of_getElem?_append ha with hold | ⟨-, rfl⟩
    · exact h.slashless i a hold
    · exact hslash
  · intro i j a b ha hb hi hj hlive hlive' hparent hname
    rcases of_getElem?_append ha with hold | ⟨rfl, rfl⟩
    · rcases of_getElem?_append hb with hold' | ⟨rfl, rfl⟩
      · exact h.siblings i j a b hold hold' hi hj hlive hlive' hparent hname
      · exact absurd hname (hfresh i a hold hi hparent)
    · rcases of_getElem?_append hb with hold' | ⟨rfl, -⟩
      · exact absurd hname.symm (hfresh j b hold' hj hparent.symm)
      · rfl

/-- The tree after a regular file was replaced by a file of the same name or a deleted one. -/
theorem replaced (h : Rooted inodes) {idx : Nat} {old new : Inode}
    (hold : inodes[idx]? = some old) (htype : old.nodeType = .regularFile)
    (hparent : new.parent = old.parent) (hslash : '/' ∉ new.name.toList)
    (hname : Live new → new.name = old.name) : Rooted (inodes.set idx new) := by
  have hdirs : ∀ {i : Nat} {dir : Inode}, inodes[i]? = some dir → dir.nodeType = .directory →
      (inodes.set idx new)[i]? = some dir := by
    intro i dir hdir hdtype
    rw [List.getElem?_set_ne, hdir]
    rintro rfl
    rw [Option.some.inj (hold.symm.trans hdir), hdtype] at htype
    cases htype
  -- A live inode of the new tree stands where one of the same name stood.
  have hstood : ∀ {i : Nat} {a : Inode}, (inodes.set idx new)[i]? = some a → Live a →
      ∃ b, inodes[i]? = some b ∧ Live b ∧ b.parent = a.parent ∧ b.name = a.name := by
    intro i a ha hlive
    rcases of_getElem?_set ha with ⟨rfl, rfl, -⟩ | ⟨-, ha⟩
    · exact ⟨old, hold, live_of_regularFile htype, hparent.symm, (hname hlive).symm⟩
    · exact ⟨a, ha, hlive, rfl, rfl⟩
  refine ⟨?_, ?_, ?_, ?_⟩
  · obtain ⟨r, hr, hrtype⟩ := h.root
    exact ⟨r, hdirs hr hrtype, hrtype⟩
  · intro i a ha hi
    rcases of_getElem?_set ha with ⟨rfl, rfl, -⟩ | ⟨-, ha⟩
    · obtain ⟨hup, d, hd, hdtype⟩ := h.parents i old hold hi
      rw [hparent]
      exact ⟨hup, d, hdirs hd hdtype, hdtype⟩
    · obtain ⟨hup, d, hd, hdtype⟩ := h.parents i a ha hi
      exact ⟨hup, d, hdirs hd hdtype, hdtype⟩
  · intro i a ha
    rcases of_getElem?_set ha with ⟨-, rfl, -⟩ | ⟨-, ha⟩
    · exact hslash
    · exact h.slashless i a ha
  · intro i j a b ha hb hi hj hlive hlive' hp hn
    obtain ⟨a', ha', halive, hap, han⟩ := hstood ha hlive
    obtain ⟨b', hb', hblive, hbp, hbn⟩ := hstood hb hlive'
    exact h.siblings i j a' b' ha' hb' hi hj halive hblive (by rw [hap, hbp, hp])
      (by rw [han, hbn, hn])

theorem change (h : Rooted inodes) (hchange : Change inodes inodes') : Rooted inodes' := by
  cases hchange with
  | same => exact h
  | added hdir htype habsent hslash => exact h.added hdir htype habsent hslash
  | @wrote idx inode hinode htype data =>
    exact h.replaced hinode htype rfl (h.slashless idx inode hinode) fun _ => rfl
  | @deleted idx inode _ hinode htype =>
    exact h.replaced hinode htype rfl (by simp [Inode.deleted]) fun hlive =>
      absurd hlive (not_live_deleted inode)

/-- A walk leads to an inode. -/
theorem walk_inode (h : Rooted inodes) {components : List String} {i : Nat}
    (hwalk : walk inodes components = some i) : ∃ inode, inodes[i]? = some inode := by
  rcases List.eq_nil_or_concat' components with rfl | ⟨front, name, rfl⟩
  · obtain rfl : 0 = i := Option.some.inj hwalk
    obtain ⟨r, hr, -⟩ := h.root
    exact ⟨r, hr⟩
  · rw [walk_append_singleton, Option.bind_eq_some_iff] at hwalk
    obtain ⟨dir, -, hchild⟩ := hwalk
    obtain ⟨-, inode, hinode, -⟩ := child_of_findChild hchild
    exact ⟨inode, hinode⟩

/-- The parents of an inode lead up to the root. -/
theorem exists_below (h : Rooted inodes) (i : Nat) (hi : i < inodes.length) :
    ∃ names, Below inodes i names := by
  induction i using Nat.strongRecOn with
  | ind i ih =>
    by_cases hne : i = 0
    · subst hne
      exact ⟨[], .root⟩
    · have hinode : inodes[i]? = some inodes[i] := List.getElem?_eq_getElem hi
      obtain ⟨hup, -⟩ := h.parents i _ hinode hne
      obtain ⟨names, hnames⟩ := ih _ hup (by omega)
      exact ⟨_, .child hne hinode hup hnames⟩

theorem buildPath_returns (fs : Filesystem) (h : Rooted fs.inodes) {i : Nat}
    (hi : i < fs.inodes.length) : ∃ path, fs.buildPath i = .ok path := by
  by_cases hne : i = 0
  · subst hne
    exact ⟨"/", rfl⟩
  · obtain ⟨names, hnames⟩ := h.exists_below i hi
    exact ⟨_, hnames.buildPath hi hne⟩

end Rooted

end MerlionKernel.Vfs
