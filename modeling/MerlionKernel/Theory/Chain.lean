import Mathlib.Data.List.Nodup

/-!
# Chains through a table of successors

A table maps every cell to its successor, and a stop mark ends a chain. A start cell
determines at most one chain, and a chain that ends visits no cell twice. Changing the
table off a chain leaves the chain alone, so chains that share no cell can be built and
taken apart independently of each other.

A walk through a table that need not end may still end by what it does: when it takes the successor
of a cell away before it leaves the cell, a second visit is the last one.
-/

namespace MerlionKernel.Theory

variable {α : Type*} {next next' : α → α} {stop a : α} {l l' : List α}

/-- Following `next` from a cell visits the cells of a list and then meets `stop`. -/
inductive IsChain (next : α → α) (stop : α) : α → List α → Prop
  | nil : IsChain next stop stop []
  | cons {a : α} {l : List α} :
      a ≠ stop → IsChain next stop (next a) l → IsChain next stop a (a :: l)

namespace IsChain

/-- A start cell determines its chain. -/
theorem unique (h : IsChain next stop a l) (h' : IsChain next stop a l') : l = l' := by
  induction h generalizing l' with
  | nil =>
    cases h' with
    | nil => rfl
    | cons hne _ => exact absurd rfl hne
  | cons hne _ ih =>
    cases h' with
    | nil => exact absurd rfl hne
    | cons _ htail => rw [ih htail]

/-- From every cell of a chain starts a chain that is no longer than what is left. -/
theorem exists_of_mem (h : IsChain next stop a l) {c : α} (hc : c ∈ l) :
    ∃ l', IsChain next stop c l' ∧ l'.length ≤ l.length := by
  induction h with
  | nil => simp at hc
  | @cons a l hne htail ih =>
    rcases List.mem_cons.mp hc with rfl | hmem
    · exact ⟨c :: l, .cons hne htail, Nat.le_refl _⟩
    · obtain ⟨l', hl', hlen⟩ := ih hmem
      exact ⟨l', hl', by simp only [List.length_cons]; omega⟩

/-- A chain visits no cell twice. -/
theorem nodup (h : IsChain next stop a l) : l.Nodup := by
  induction h with
  | nil => simp
  | @cons a l hne htail ih =>
    refine List.nodup_cons.mpr ⟨fun hmem => ?_, ih⟩
    -- A second visit would start a chain from `a` shorter than the one from `a`.
    obtain ⟨l', hl', hlen⟩ := htail.exists_of_mem hmem
    have heq : a :: l = l' := (IsChain.cons hne htail).unique hl'
    rw [← heq, List.length_cons] at hlen
    omega

/-- A chain depends only on the successors of its own cells. -/
theorem congr (h : IsChain next stop a l) (heq : ∀ c ∈ l, next' c = next c) :
    IsChain next' stop a l := by
  induction h with
  | nil => exact .nil
  | @cons a l hne _ ih =>
    refine .cons hne ?_
    rw [heq a List.mem_cons_self]
    exact ih fun c hc => heq c (List.mem_cons_of_mem _ hc)

theorem eq_or_mem_tail (h : IsChain next stop a l) {c : α} (hc : c ∈ l) :
    c = a ∨ c ∈ l.tail := by
  cases h with
  | nil => simp at hc
  | cons _ _ => exact List.mem_cons.mp hc

/-- The successor of a cell of a chain is `stop` or a later cell of the chain. -/
theorem next_mem (h : IsChain next stop a l) {c : α} (hc : c ∈ l) :
    next c = stop ∨ next c ∈ l.tail := by
  induction h with
  | nil => simp at hc
  | @cons a l hne htail ih =>
    rcases List.mem_cons.mp hc with rfl | hmem
    · cases htail with
      | nil => exact Or.inl rfl
      | cons _ _ => exact Or.inr List.mem_cons_self
    · exact (ih hmem).imp_right fun hin => List.mem_of_mem_tail hin

/-- Linking each cell of a list to the one after it, and the last to `stop`, makes the
list a chain. -/
theorem of_links (hstop : stop ∉ l)
    (hlink : ∀ i c, l[i]? = some c → next c = l.getD (i + 1) stop) :
    IsChain next stop (l.headD stop) l := by
  induction l with
  | nil => exact .nil
  | cons a l ih =>
    have htail : IsChain next stop (l.headD stop) l :=
      ih (fun hmem => hstop (List.mem_cons_of_mem _ hmem)) fun i c hc => by
        simpa using hlink (i + 1) c (by simpa using hc)
    have hfirst : next a = l.headD stop := by
      rw [hlink 0 a rfl]
      cases l with
      | nil => rfl
      | cons b l => rfl
    refine .cons (fun heq => hstop (heq ▸ List.mem_cons_self)) ?_
    change IsChain next stop (next a) l
    rw [hfirst]
    exact htail

end IsChain

/-! ### Walks that erase -/

section Erasing

variable {σ : Type*} (succ : σ → α → α) (erase : σ → α → σ) (halts : α → Prop) [DecidablePred halts]

/-- The cells that a walk passes when it erases each cell and goes on to the successor that the cell
had. -/
def visits : Nat → σ → α → List α
  | 0, _, _ => []
  | fuel + 1, s, c => if halts c then [] else c :: visits fuel (erase s c) (succ s c)

variable {succ erase halts}

/-- When an erased cell leads to the end and the other cells stay, no cell is passed twice, except
that the last one may be. -/
theorem nodup_dropLast_visits (hself : ∀ s c, halts (succ (erase s c) c))
    (hother : ∀ s c d, d ≠ c → succ (erase s c) d = succ s d) (fuel : Nat) (s : σ) (c : α) :
    (visits succ erase halts fuel s c).dropLast.Nodup := by
  -- The cells erased before lead to the end, so none of them is passed but as the last.
  suffices hgen : ∀ (fuel : Nat) (s : σ) (c : α) (erased : List α),
      (∀ e ∈ erased, halts (succ s e)) →
        (visits succ erase halts fuel s c).dropLast.Nodup ∧
          ∀ d ∈ (visits succ erase halts fuel s c).dropLast, d ∉ erased from
    (hgen fuel s c [] nofun).1
  intro fuel
  induction fuel with
  | zero => exact fun _ _ _ _ => ⟨List.nodup_nil, nofun⟩
  | succ fuel ih =>
    intro s c erased herased
    unfold visits
    split
    · exact ⟨List.nodup_nil, nofun⟩
    · have hnext : ∀ e ∈ c :: erased, halts (succ (erase s c) e) := by
        intro e he
        by_cases hec : e = c
        · exact hec ▸ hself s c
        · rw [hother s c e hec]
          exact herased e ((List.mem_cons.mp he).resolve_left hec)
      obtain ⟨hnodup, hfresh⟩ := ih (erase s c) (succ s c) (c :: erased) hnext
      cases hrest : visits succ erase halts fuel (erase s c) (succ s c) with
      | nil => exact ⟨List.nodup_nil, nofun⟩
      | cons d rest =>
        rw [hrest] at hnodup hfresh
        rw [List.dropLast_cons_of_ne_nil (List.cons_ne_nil d rest)]
        refine ⟨List.nodup_cons.mpr ⟨fun hmem => hfresh c hmem List.mem_cons_self, hnodup⟩, ?_⟩
        refine List.forall_mem_cons.mpr ⟨fun hmem => ?_, fun e he hmem =>
          hfresh e he (List.mem_cons_of_mem c hmem)⟩
        -- An erased cell leads to the end at once.
        have hend := herased c hmem
        cases fuel with
        | zero => cases hrest
        | succ fuel =>
          rw [visits, if_pos hend] at hrest
          cases hrest

theorem forall_mem_visits {p : α → Prop} (hsucc : ∀ s c, p (succ s c)) {fuel : Nat} {s : σ}
    {c : α} (hc : p c) : ∀ d ∈ visits succ erase halts fuel s c, p d ∧ ¬ halts d := by
  induction fuel generalizing s c with
  | zero => exact nofun
  | succ fuel ih =>
    unfold visits
    split
    · exact nofun
    · rename_i hgo
      exact List.forall_mem_cons.mpr ⟨⟨hc, hgo⟩, ih (hsucc s c)⟩

end Erasing

end MerlionKernel.Theory
