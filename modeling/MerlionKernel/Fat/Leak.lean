import MerlionKernel.Fat.Store

/-!
# Clusters that no file owns

Ideally the clusters in use are exactly those of the chains of the active entries. Two
calls break this. Deleting a file whose chain starts at cluster 0, directly or by writing
over it, frees nothing, because the loop takes the number 0 for the mark of a free entry.
Writing a new file into a full directory links its clusters before it finds no entry for
them. `Tidy` excludes these two, and runs of tidy calls keep the ideal; each of the two
breaks it for good.
-/

namespace MerlionKernel.Fat

open Rust Theory

/-- The clusters in use are the disjoint union of the chains of the active entries. -/
def ExactlyOwned (disk : Disk) : Prop :=
  ∃ chain : Nat → List Nat,
    (∀ i < maxFiles, Active disk i →
      IsChain (fatEntry disk) fatEof (startAt disk i) (chain i) ∧ (chain i).Nodup) ∧
    (∀ i < maxFiles, ∀ j < maxFiles, Active disk i → Active disk j → i ≠ j →
      ∀ c ∈ chain i, c ∉ chain j) ∧
    ∀ c, (c < maxClusters ∧ ¬ Free disk c) ↔ ∃ i < maxFiles, Active disk i ∧ c ∈ chain i

/-- Every cluster in use belongs to the chain of an active entry. -/
def NoLeak (disk : Disk) : Prop :=
  ∀ c < maxClusters, ¬ Free disk c → ∃ i < maxFiles, Active disk i ∧ ∃ l, Owns disk i l ∧ c ∈ l

/-- On a consistent disk only a leak keeps the clusters in use from being exactly owned. -/
theorem Consistent.exactlyOwned_iff {disk : Disk} (h : Consistent disk) :
    ExactlyOwned disk ↔ NoLeak disk := by
  constructor
  · rintro ⟨chain, hchain, -, hexact⟩ c hc hused
    obtain ⟨i, hi, hact, hmem⟩ := (hexact c).mp ⟨hc, hused⟩
    obtain ⟨l, hl⟩ := h.owns i hi hact
    have heq : l = chain i := hl.chain.unique (hchain i hi hact).1
    exact ⟨i, hi, hact, l, hl, heq ▸ hmem⟩
  · intro hleak
    have hex : ∀ i, ∃ l, i < maxFiles → Active disk i → Owns disk i l := by
      intro i
      by_cases hi : i < maxFiles ∧ Active disk i
      · obtain ⟨l, hl⟩ := h.owns i hi.1 hi.2
        exact ⟨l, fun _ _ => hl⟩
      · exact ⟨[], fun hi' hact => absurd ⟨hi', hact⟩ hi⟩
    choose chain hchain using hex
    refine ⟨chain, fun i hi hact => ⟨(hchain i hi hact).chain, (hchain i hi hact).chain.nodup⟩,
      fun i hi j hj hacti hactj hij => h.disjoint i hi j hj hacti hactj hij _ _
        (hchain i hi hacti) (hchain j hj hactj), fun c => ⟨?_, ?_⟩⟩
    · rintro ⟨hc, hused⟩
      obtain ⟨i, hi, hact, l, hl, hmem⟩ := hleak c hc hused
      exact ⟨i, hi, hact, hl.unique (hchain i hi hact) ▸ hmem⟩
    · rintro ⟨i, hi, hact, hmem⟩
      exact ⟨(hchain i hi hact).lt c hmem, (hchain i hi hact).not_free hmem⟩

/-! ### Calls that leak nothing -/

/-- The file with the name, if there is one, does not start at cluster 0. -/
def StartsAboveZero (disk : Disk) (name : String) : Prop :=
  ∀ i, slotOf disk name = some i → startAt disk i ≠ 0

/-- A write of a new file that finds clusters for its contents finds a free entry too. -/
def FindsEntry (disk : Disk) (name : String) (contents : Bytes) : Prop :=
  slotOf disk name = none → 0 < contents.length →
    clustersNeeded contents.length ≤ (freeClusters disk).length →
      ∃ i < maxFiles, flagAt disk i = 0

/-- The calls that leak nothing, told from the disk they start from. -/
def Tidy (disk : Disk) : Op → Prop
  | .delete name => StartsAboveZero disk name
  | .write name contents =>
    (asBytes name).length ≤ 16 → StartsAboveZero disk name ∧ FindsEntry disk name contents

section Tidy

variable {disk disk' : Disk} {name : String} {contents : Bytes}

theorem Cleared.noLeak (h : Cleared disk name disk') (hc : Consistent disk)
    (hleak : NoLeak disk) (hstart : StartsAboveZero disk name) : NoLeak disk' := by
  cases h with
  | absent _ => exact hleak
  | @deleted _ i l hslot hl hdel =>
    obtain ⟨hi, hact, -⟩ := slotOf_some hslot
    intro c hcl hused
    rw [Free, hdel.fat c hcl] at hused
    -- A cluster still in use belongs to another file, whose chain was left alone.
    have hnot : c ∉ l := fun hmem => by simp [hmem, hstart i hslot, fatFree] at hused
    rw [if_neg fun hand => hnot hand.1] at hused
    obtain ⟨j, hj, hactj, m, hm, hmem⟩ := hleak c hcl hused
    have hji : j ≠ i := by
      rintro rfl
      exact hnot (hm.unique hl ▸ hmem)
    have hkeeps := hdel.keeps hc hi hact hl
    exact ⟨j, hj, (hkeeps.active_iff hj hji).mpr hactj, m, hkeeps.owns hj hji hactj hm, hmem⟩

/-- Only the write into a full directory leaves clusters without an owner. -/
theorem WriteOutcome.noLeak {out : Outcome} (h : WriteOutcome disk name contents out)
    (hc : Consistent disk) (hleak : NoLeak disk) (htidy : Tidy disk (.write name contents)) :
    NoLeak out.2 := by
  cases h with
  | tooLong _ => exact hleak
  | emptyFile hname hclear _ => exact hclear.noLeak hc hleak (htidy hname).1
  | diskFull hname hclear _ _ => exact hclear.noLeak hc hleak (htidy hname).1
  | directoryFull hname hclear hpos henough hstored hfull =>
    cases hclear with
    | absent hslot =>
      obtain ⟨i, hi, hflag⟩ := (htidy hname).2 hslot hpos henough
      exact absurd hflag (hfull i hi)
    | deleted hslot _ hdel => exact absurd hdel.flag (hfull _ (slotOf_some hslot).1)
  | @written disk₁ disk₂ disk₃ i hname hclear _ _ hstored hi hflag hfilled =>
    have hleak₁ := hclear.noLeak hc hleak (htidy hname).1
    have halloc := allocated_newChain disk₁ contents
    have hkeeps := hfilled.keeps hi hstored halloc
    intro c hcl hused
    by_cases hmem : c ∈ newChain disk₁ contents
    · exact ⟨i, hi, hfilled.flag, _, hfilled.owns hstored halloc, hmem⟩
    · rw [Free, hfilled.fatEntry_eq hcl, hstored.fat c hcl hmem] at hused
      obtain ⟨j, hj, hactj, m, hm, hcm⟩ := hleak₁ c hcl hused
      have hji : j ≠ i := by
        rintro rfl
        rw [Active, hflag] at hactj
        exact absurd hactj (by decide)
      exact ⟨j, hj, (hkeeps.active_iff hj hji).mpr hactj, m, hkeeps.owns hj hji hactj hm, hcm⟩

theorem step_noLeak {op : Op} (hc : Consistent disk) (hleak : NoLeak disk)
    (htidy : Tidy disk op) (hstep : step disk op = .ok disk') : NoLeak disk' := by
  obtain ⟨name, contents, r, rfl, hout⟩ | ⟨name, rfl, hclear⟩ := step_cases hc hstep
  · exact hout.noLeak hc hleak htidy
  · exact hclear.noLeak hc hleak htidy

end Tidy

theorem noLeak_blank {len : Nat} (h : minLength ≤ len) : NoLeak (blank len) :=
  fun c _ hused => absurd (free_blank h c) hused

/-- **Runs of tidy calls leak nothing.** In every state such a run reaches, each cluster
in use is owned by exactly one file; once no file is left, every cluster is free again. On a
buffer with room for every cluster the run does not stop before its end. -/
theorem tidy_run_exactlyOwned {buffer disk₀ : Disk}
    (hformat : format buffer = .ok (.ok (), disk₀)) {ops visited rest : List Op}
    (hops : ops = visited ++ rest) (htidy : Guarded step Tidy disk₀ ops) :
    (∀ disk, run step disk₀ visited = .ok disk → ExactlyOwned disk ∧
      ((∀ i < maxFiles, ¬ Active disk i) → ∀ c < maxClusters, Free disk c)) ∧
    (roomyLength ≤ buffer.length → ∃ disk, run step disk₀ visited = .ok disk) := by
  obtain ⟨hlen, rfl⟩ := format_eq_ok_iff.mp hformat
  have hguard : Guarded step Tidy (blank buffer.length) visited := (hops ▸ htidy).append_left
  have hc₀ := consistent_blank hlen
  refine ⟨fun disk hrun => ?_, fun hroom => ?_⟩
  · obtain ⟨hc, hleak⟩ := run_invariant_of_guarded (fun disk => Consistent disk ∧ NoLeak disk)
      (fun s op s' hs hop hstep =>
        ⟨step_consistent hs.1 hstep, step_noLeak hs.1 hs.2 hop hstep⟩)
      ⟨hc₀, noLeak_blank hlen⟩ hguard hrun
    refine ⟨hc.exactlyOwned_iff.mpr hleak, fun hnone c hcl => ?_⟩
    by_contra hused
    obtain ⟨i, hi, hact, -⟩ := hleak c hcl hused
    exact hnone i hi hact
  · obtain ⟨disk, hrun, -⟩ := run_returns
      (fun disk => Consistent disk ∧ roomyLength ≤ disk.length)
      (fun disk op hinv => step_returns hinv.1 hinv.2 op)
      ⟨hc₀, (length_blank hlen).symm ▸ hroom⟩ visited
    exact ⟨disk, hrun⟩

/-! ### The calls that leak -/

/-- A cluster in use that no active entry owns. -/
def Leaked (disk : Disk) (c : Nat) : Prop :=
  c < maxClusters ∧ ¬ Free disk c ∧
    ∀ i < maxFiles, Active disk i → ∀ l, Owns disk i l → c ∉ l

theorem Leaked.not_exactlyOwned {disk : Disk} {c : Nat} (h : Leaked disk c)
    (hc : Consistent disk) : ¬ ExactlyOwned disk := by
  intro howned
  obtain ⟨i, hi, hact, l, hl, hmem⟩ := hc.exactlyOwned_iff.mp howned c h.1 h.2.1
  exact h.2.2 i hi hact l hl hmem

section Leaks

variable {disk disk' : Disk} {name : String} {contents : Bytes} {c : Nat}

/-- Deleting a file that starts at cluster 0 leaks cluster 0. -/
theorem Cleared.leaked_zero (h : Cleared disk name disk') (hc : Consistent disk)
    (hstart : ¬ StartsAboveZero disk name) : Leaked disk' 0 := by
  obtain ⟨i, hslot, hzero⟩ : ∃ i, slotOf disk name = some i ∧ startAt disk i = 0 := by
    simpa [StartsAboveZero] using hstart
  cases h with
  | absent hnone => simp [hnone] at hslot
  | @deleted _ i' l hslot' hl hdel =>
    obtain rfl : i' = i := by simpa [hslot'] using hslot
    obtain ⟨hi, hact, -⟩ := slotOf_some hslot'
    have hmem : 0 ∈ l := by
      have hchain := hl.chain
      rw [hzero] at hchain
      cases hchain with
      | cons _ _ => exact List.mem_cons_self
    have hkeeps := hdel.keeps hc hi hact hl
    refine ⟨by decide, ?_, fun j hj hactj m hm hjm => ?_⟩
    · rw [Free, hdel.fat 0 (by decide), if_neg (by simp [hzero, fatFree])]
      exact hl.not_free hmem
    · have hji : j ≠ i' := by
        rintro rfl
        exact hdel.not_active hactj
      obtain ⟨hactj', hm'⟩ := hkeeps.owns_back hc hj hji hactj hm
      exact hc.disjoint j hj i' hi hactj' hact hji m l hm' hl 0 hjm hmem

/-- A leaked cluster stays leaked when contents are stored elsewhere. -/
theorem Stored.leaked {l : List Nat} (h : Stored disk disk' l contents) (hc : Consistent disk)
    (halloc : Allocated disk l) (hleak : Leaked disk c) : Leaked disk' c := by
  obtain ⟨hlt, hused, howner⟩ := hleak
  have hcl : c ∉ l := fun hmem => hused (halloc.free c hmem)
  refine ⟨hlt, ?_, fun i hi hact m hm => ?_⟩
  · rw [Free, h.fat c hlt hcl]
    exact hused
  · obtain ⟨hact', hm'⟩ := (h.keeps halloc).owns_back hc hi trivial hact hm
    exact howner i hi hact' m hm'

/-- It stays leaked when the new file gets its entry. -/
theorem Filled.leaked {disk₁ disk₂ disk₃ : Disk} {l : List Nat} {i : Nat}
    (h : Filled disk₂ disk₃ i name (l.headD fatEof) contents.length) (hi : i < maxFiles)
    (hstored : Stored disk₁ disk₂ l contents) (hc : Consistent disk₁)
    (halloc : Allocated disk₁ l) (hleak : Leaked disk₁ c) : Leaked disk₃ c := by
  obtain ⟨hlt, hused, howner⟩ := hleak
  have hcl : c ∉ l := fun hmem => hused (halloc.free c hmem)
  refine ⟨hlt, ?_, fun j hj hact m hm => ?_⟩
  · rw [Free, h.fatEntry_eq hlt, hstored.fat c hlt hcl]
    exact hused
  · by_cases hji : j = i
    · subst hji
      rw [hm.unique (h.owns hstored halloc)]
      exact hcl
    · obtain ⟨hact', hm'⟩ := (h.keeps hi hstored halloc).owns_back hc hj hji hact hm
      exact howner j hj hact' m hm'

/-- The clusters linked for a file without an entry leak. -/
theorem Stored.leaked_new {l : List Nat} (h : Stored disk disk' l contents)
    (hc : Consistent disk) (halloc : Allocated disk l) (hmem : c ∈ l) : Leaked disk' c := by
  refine ⟨halloc.lt c hmem, fun hfree => ?_, fun i hi hact m hm hcm => ?_⟩
  · rcases (h.chain halloc).next_mem hmem with hnext | hnext
    · rw [hfree] at hnext
      exact absurd hnext (by decide)
    · rw [hfree] at hnext
      exact halloc.zero_notMem hnext
  · obtain ⟨-, hm'⟩ := (h.keeps halloc).owns_back hc hi trivial hact hm
    exact hm'.not_free hcm (halloc.free c hmem)

/-- The write of a new file for which there are clusters but no entry fails, and leaves a cluster
behind. -/
theorem WriteOutcome.leaks_newChain {out : Outcome} (h : WriteOutcome disk name contents out)
    (hc : Consistent disk) (hname : (asBytes name).length ≤ 16) (hslot : slotOf disk name = none)
    (hpos : 0 < contents.length)
    (henough : clustersNeeded contents.length ≤ (freeClusters disk).length)
    (hfull : ∀ i < maxFiles, flagAt disk i ≠ 0) :
    ∃ message, out.1 = .error message ∧ ∃ c ∈ newChain disk contents, Leaked out.2 c := by
  cases h with
  | tooLong hlong => omega
  | emptyFile _ _ hzero => omega
  | diskFull _ hclear _ hless =>
    rw [hclear.eq_of_absent hslot] at hless
    omega
  | directoryFull _ hclear _ _ hstored _ =>
    rw [hclear.eq_of_absent hslot] at hstored
    obtain ⟨c, hmem⟩ := List.exists_mem_of_length_pos (l := newChain disk contents) (by
      rw [length_newChain henough]
      exact clustersNeeded_pos hpos)
    exact ⟨_, rfl, c, hmem, hstored.leaked_new hc (allocated_newChain _ _) hmem⟩
  | written _ hclear _ _ _ hi hflag _ =>
    rw [hclear.eq_of_absent hslot] at hflag
    exact absurd hflag (hfull _ hi)

theorem WriteOutcome.leaks {out : Outcome} (h : WriteOutcome disk name contents out)
    (hc : Consistent disk) (htidy : ¬ Tidy disk (.write name contents)) :
    ∃ c, Leaked out.2 c := by
  have hname : (asBytes name).length ≤ 16 := by
    by_contra hlong
    exact htidy fun hshort => absurd hshort hlong
  -- Once the old file leaves cluster 0 behind, the rest of the write does not recover it.
  by_cases hstart : StartsAboveZero disk name
  · have hfind : ¬ FindsEntry disk name contents := fun hfind => htidy fun _ => ⟨hstart, hfind⟩
    unfold FindsEntry at hfind
    push Not at hfind
    obtain ⟨hslot, hpos, henough, hfull⟩ := hfind
    obtain ⟨-, -, c, -, hleaked⟩ := h.leaks_newChain hc hname hslot hpos henough hfull
    exact ⟨c, hleaked⟩
  · cases h with
    | tooLong hlong => omega
    | emptyFile _ hclear _ => exact ⟨0, hclear.leaked_zero hc hstart⟩
    | diskFull _ hclear _ _ => exact ⟨0, hclear.leaked_zero hc hstart⟩
    | directoryFull _ hclear _ _ hstored _ =>
      exact ⟨0, hstored.leaked (hclear.consistent hc) (allocated_newChain _ _)
        (hclear.leaked_zero hc hstart)⟩
    | written _ hclear _ _ hstored hi _ hfilled =>
      exact ⟨0, hfilled.leaked hi hstored (hclear.consistent hc) (allocated_newChain _ _)
        (hclear.leaked_zero hc hstart)⟩

/-- A call that is not tidy leaves a cluster that no file owns. -/
theorem not_exactlyOwned_of_not_tidy {op : Op} (hc : Consistent disk) (htidy : ¬ Tidy disk op)
    (hstep : step disk op = .ok disk') : ¬ ExactlyOwned disk' := by
  have hc' := step_consistent hc hstep
  obtain ⟨name, contents, r, rfl, hout⟩ | ⟨name, rfl, hclear⟩ := step_cases hc hstep
  · obtain ⟨c, hleak⟩ := hout.leaks hc htidy
    exact hleak.not_exactlyOwned hc'
  · exact (hclear.leaked_zero hc htidy).not_exactlyOwned hc'

end Leaks

/-- Writing one file and deleting it again leaks. -/
theorem write_delete_leaks :
    ¬ ∀ buffer disk₀ ops disk, roomyLength ≤ buffer.length →
      format buffer = .ok (.ok (), disk₀) → run step disk₀ ops = .ok disk →
        ExactlyOwned disk := by
  intro hclaim
  obtain ⟨disk₁, hwrite, i, hslot, hzero⟩ :=
    startAt_first_write le_rfl "a" [65] (by decide) (by decide) (by decide)
  have hc := consistent_blank minLength_le_roomyLength
  have hc₁ := step_consistent hc hwrite
  have hroom₁ : roomyLength ≤ disk₁.length :=
    ((step_returns hc (length_blank minLength_le_roomyLength).ge _).elim hwrite).2
  obtain ⟨disk₂, hdelete, -⟩ := step_returns hc₁ hroom₁ (.delete "a")
  have hleaks : ¬ Tidy disk₁ (.delete "a") := fun htidy => htidy i hslot hzero
  refine not_exactlyOwned_of_not_tidy hc₁ hleaks hdelete ?_
  refine hclaim _ _ [.write "a" [65], .delete "a"] disk₂ (List.length_replicate ..).ge
    format_zeroed ?_
  rw [run_cons, hwrite, ok_bind, run_cons, hdelete, ok_bind, run_nil]

theorem tidy_run_single_write :
    ∃ disk₀, format (List.replicate roomyLength 0) = .ok (.ok (), disk₀) ∧
      Guarded step Tidy disk₀ [.write "a" [65]] ∧
      (∀ disk, run step disk₀ [.write "a" [65]] = .ok disk → ExactlyOwned disk ∧
        ((∀ i < maxFiles, ¬ Active disk i) → ∀ c < maxClusters, Free disk c)) ∧
      (roomyLength ≤ (List.replicate roomyLength (0 : UInt8)).length →
        ∃ disk, run step disk₀ [.write "a" [65]] = .ok disk) := by
  have hslot := slotOf_blank minLength_le_roomyLength "a"
  have htidy : Guarded step Tidy (blank roomyLength) [.write "a" [65]] := by
    refine ⟨fun _ => ⟨fun i hi => by simp [hslot] at hi, fun _ _ _ => ⟨0, by decide, ?_⟩⟩,
      fun _ _ => trivial⟩
    exact flagAt_blank minLength_le_roomyLength 0
  exact ⟨_, format_zeroed, htidy,
    tidy_run_exactlyOwned format_zeroed (List.append_nil [Op.write "a" [65]]).symm htidy⟩

end MerlionKernel.Fat
