import Mathlib.Data.List.Basic
import Mathlib.Data.List.DropRight
import Mathlib.Data.List.TakeWhile
import MerlionKernel.ShellLang.Model

/-!
# Termination of the parser

The tokeniser takes at least one character in every round. The parser is stuck in two places: in a
round of `parse_list` at a token that no statement starts with and that is not a stop word, which
is never taken, and after `&&` at the end of the tokens, where `parse_one` reads one more. A script
for which it reaches neither is parsed, and every round takes a token.
-/

namespace MerlionKernel.ShellLang

open Rust Theory

/-! ### The tokeniser -/

theorem length_dropWhile_le {α : Type} (p : α → Bool) (l : List α) :
    (l.dropWhile p).length ≤ l.length :=
  (List.dropWhile_sublist p).length_le

/-- Every round takes the character it is at. -/
theorem length_scan_le (c : Char) (cs : List Char) : (scan c cs).2.length ≤ cs.length := by
  unfold scan
  split_ifs with hspace hcomment hnl hsemi hand _ hor _ hnot hquote
  all_goals try exact le_rfl
  all_goals try simp only [List.length_tail]
  all_goals try omega
  · exact length_dropWhile_le _ _
  · have := length_dropWhile_le (· ≠ c) cs
    omega
  · -- The character itself belongs to the word: those that do not were handled before.
    have hword : endsWord c = false := by
      rw [not_or] at hspace
      simp [endsWord, hspace.1, hspace.2, hcomment, hnl, hsemi, hand, hor]
    rw [List.dropWhile_cons_of_pos (by simp [hword])]
    exact length_dropWhile_le _ _

theorem tokenise_returns (src : List Char) : ∃ ts, tokenise src = .ok ts := by
  have hfrom : ∀ fuel cs, cs.length < fuel → ∃ ts, tokeniseFrom fuel cs = .ok ts := by
    intro fuel
    induction fuel with
    | zero => exact fun cs hlt => absurd hlt (Nat.not_lt_zero _)
    | succ fuel ih =>
      intro cs hlt
      cases cs with
      | nil => exact ⟨[], rfl⟩
      | cons c cs =>
        have hscan := length_scan_le c cs
        rw [List.length_cons] at hlt
        obtain ⟨ts, hts⟩ := ih (scan c cs).2 (by omega)
        exact ⟨_, by rw [tokeniseFrom, hts, ok_bind]; rfl⟩
  exact hfrom _ _ (Nat.lt_succ_self _)

/-! ### What is left of the tokens -/

/-- No statement starts with the token. -/
def Tok.blocks : Tok → Bool
  | .word w => reserved.contains w
  | .not => false
  | _ => true

theorem length_skipSep_le (ts : List Tok) : (skipSep ts).length ≤ ts.length :=
  length_dropWhile_le _ _

theorem length_eat_le (w : String) (ts : List Tok) : (eat w ts).2.length ≤ ts.length := by
  have hskip := length_skipSep_le ts
  unfold eat
  split
  · rename_i heq
    rw [heq, List.length_cons] at hskip
    split_ifs
    · exact Nat.le_of_succ_le hskip
    · exact hskip
  · exact hskip

theorem length_forWords_le (ts : List Tok) : (forWords ts).2.length ≤ ts.length := by
  fun_induction forWords ts <;> simp_all <;> omega

theorem length_forVar_le (ts : List Tok) : (forVar ts).2.length ≤ ts.length := by
  unfold forVar
  split <;> simp

theorem length_skipParens_le (ts : List Tok) : (skipParens ts).length ≤ ts.length := by
  unfold skipParens
  split
  · split_ifs <;> simp only [List.length_cons] <;> omega
  · split_ifs <;> simp
  · exact le_rfl

theorem length_funcName_le (ts : List Tok) : (funcName ts).2.length ≤ ts.length := by
  unfold funcName
  split
  · exact (length_skipParens_le _).trans (Nat.le_succ _)
  · exact le_rfl

theorem length_returnCode_le (ts : List Tok) : (returnCode ts).2.length ≤ ts.length := by
  unfold returnCode
  split
  · split <;> simp
  · exact le_rfl

theorem length_simpleWords_le (ts : List Tok) : (simpleWords ts).2.length ≤ ts.length := by
  fun_induction simpleWords ts <;> simp_all
  omega

/-! ### Progress -/

/-- After any `!`, at the end or at a token that no statement starts with, there is no statement;
anywhere else there is one, and tokens have been taken. -/
def Progress (ts : List Tok) (r : Option Stmt × List Tok) : Prop :=
  match ts.dropWhile (· = .not) with
  | [] => r = (none, [])
  | t :: us => if t.blocks then r = (none, t :: us) else r.1.isSome ∧ r.2.length < ts.length

/-- What every call guarantees. -/
def Expected : ∀ c : Call, c.Answer → Prop
  | .list _ ts => fun r : List Stmt × List Tok => r.2.length ≤ ts.length
  | .one ts => Progress ts
  | .primary ts => Progress ts

variable {ts us : List Tok} {t : Tok} {r : Option Stmt × List Tok}

theorem Progress.length_le (h : Progress ts r) : r.2.length ≤ ts.length := by
  have hdrop := length_dropWhile_le (· = Tok.not) ts
  unfold Progress at h
  split at h
  · rw [h]
    exact Nat.zero_le _
  · rename_i heq
    split_ifs at h
    · rw [h, ← heq]
      exact hdrop
    · exact h.2.le

theorem Progress.of_blocks (h : Progress (t :: us) r) (ht : t.blocks = true) :
    r = (none, t :: us) := by
  have hne : t ≠ .not := by
    rintro rfl
    cases ht
  rw [Progress, List.dropWhile_cons_of_neg (by simpa using hne)] at h
  simpa [ht] using h

theorem Progress.of_not_blocks (h : Progress (t :: us) r) (ht : t.blocks = false) :
    r.2.length < (t :: us).length := by
  by_cases hnot : t = .not
  · subst hnot
    have hdrop := length_dropWhile_le (· = Tok.not) us
    rw [Progress, List.dropWhile_cons_of_pos (by simp)] at h
    rw [List.length_cons]
    split at h
    · rw [h]
      exact Nat.succ_pos _
    · rename_i heq
      split_ifs at h
      · rw [h, ← heq]
        exact Nat.lt_succ_of_le hdrop
      · exact h.2
  · rw [Progress, List.dropWhile_cons_of_neg (by simpa using hnot)] at h
    simp only [ht, Bool.false_eq_true, ↓reduceIte] at h
    exact h.2

theorem Progress.of_all_not (h : Progress ts r) (hall : ∀ t ∈ ts, t = .not) : r = (none, []) := by
  have hdrop : ts.dropWhile (· = .not) = [] := List.dropWhile_eq_nil_iff.mpr (by simpa using hall)
  simpa [Progress, hdrop] using h

theorem Progress.ne_nil (h : Progress ts r) (hnone : r.1 = none) (hsome : ¬ ∀ t ∈ ts, t = .not) :
    r.2 ≠ [] := by
  unfold Progress at h
  split at h
  · rename_i heq
    exact absurd (by simpa using List.dropWhile_eq_nil_iff.mp heq) hsome
  · split_ifs at h
    · rw [h]
      simp
    · simp [hnone] at h

theorem progress_of_some (ht : t.blocks = false) (hne : t ≠ .not) (hr : r.1.isSome)
    (hlen : r.2.length ≤ us.length) : Progress (t :: us) r := by
  rw [Progress, List.dropWhile_cons_of_neg (by simpa using hne)]
  simp only [ht, Bool.false_eq_true, ↓reduceIte]
  exact ⟨hr, Nat.lt_succ_of_le hlen⟩

/-- Where there is a statement, one that takes more tokens is as good. -/
theorem Progress.replace {s s' : Stmt} {vs : List Tok} (h : Progress ts (some s, us))
    (hlen : vs.length ≤ us.length) : Progress ts (some s', vs) := by
  unfold Progress at h ⊢
  split at h
  · cases h
  · split_ifs at h ⊢
    · cases h
    · exact ⟨rfl, hlen.trans_lt h.2⟩

theorem Progress.not (h : Progress ts r) : Progress (.not :: ts) (r.1.map .not, r.2) := by
  rw [Progress, List.dropWhile_cons_of_pos (by simp)]
  unfold Progress at h
  split at h
  · simp [h]
  · split_ifs at h ⊢ with hblocks
    · simp [h]
    · exact ⟨by simpa using h.1, h.2.trans (Nat.lt_succ_self _)⟩

theorem progress_parseSimple (hne : t ≠ .not) : Progress (t :: us) (parseSimple (t :: us)) := by
  rw [Progress, List.dropWhile_cons_of_neg (by simpa using hne)]
  cases t with
  | word w =>
    have hwords := length_simpleWords_le us
    by_cases hw : w ∈ reserved
    · simp [parseSimple, simpleWords, Tok.blocks, hw]
    · simp [parseSimple, simpleWords, Tok.blocks, hw]
      omega
  | not => exact absurd rfl hne
  | semi => simp [parseSimple, simpleWords, Tok.blocks]
  | nl => simp [parseSimple, simpleWords, Tok.blocks]
  | and => simp [parseSimple, simpleWords, Tok.blocks]
  | or => simp [parseSimple, simpleWords, Tok.blocks]

/-! ### The bodies -/

section Bodies

variable {pre : Call → Prop} {spec : ∀ c : Call, c.Answer → Prop} {fails : Prop}

theorem wp_callList {stop : List String} {post : List Stmt × List Tok → Prop} :
    (callList stop ts).wp pre spec fails post ↔
      pre (.list stop ts) ∧ ∀ v us, spec (.list stop ts) (v, us) → post (v, us) :=
  and_congr_right fun _ => Prod.forall

theorem wp_callOne {post : Option Stmt × List Tok → Prop} :
    (callOne ts).wp pre spec fails post ↔
      pre (.one ts) ∧ ∀ s us, spec (.one ts) (s, us) → post (s, us) :=
  and_congr_right fun _ => Prod.forall

theorem wp_callPrimary {post : Option Stmt × List Tok → Prop} :
    (callPrimary ts).wp pre spec fails post ↔
      pre (.primary ts) ∧ ∀ s us, spec (.primary ts) (s, us) → post (s, us) :=
  and_congr_right fun _ => Prod.forall

variable (hspec : ∀ c r, spec c r → Expected c r)

section Blocks

variable (hpre : ∀ stop us, us.length ≤ ts.length → pre (.list stop us))

include hspec hpre

/-- Only lists of the tokens that follow are parsed, and no more are left afterwards. -/
theorem parseIf_wp : (parseIf ts).wp pre spec fails fun r => r.2.length ≤ ts.length := by
  simp only [parseIf, Prog.wp_bind, wp_callList]
  refine ⟨hpre _ _ le_rfl, fun cond ts₁ h₁ => ?_⟩
  have h₁ : ts₁.length ≤ ts.length := hspec _ _ h₁
  have hthen := length_eat_le "then" ts₁
  refine ⟨hpre _ _ (by omega), fun thenB ts₂ h₂ => ?_⟩
  have h₂ : ts₂.length ≤ (eat "then" ts₁).2.length := hspec _ _ h₂
  have helse := length_eat_le "else" ts₂
  split_ifs
  · simp only [Prog.wp_bind, wp_callList]
    refine ⟨hpre _ _ (by omega), fun elseB ts₃ h₃ => ?_⟩
    have h₃ : ts₃.length ≤ (eat "else" ts₂).2.length := hspec _ _ h₃
    have hfi := length_eat_le "fi" ts₃
    simp only [Prog.wp_pure]
    omega
  · have hfi := length_eat_le "fi" (eat "else" ts₂).2
    exact hfi.trans (helse.trans (h₂.trans (hthen.trans h₁)))

theorem parseFor_wp : (parseFor ts).wp pre spec fails fun r => r.2.length ≤ ts.length := by
  simp only [parseFor, Prog.wp_bind, wp_callList, Prog.wp_pure]
  have hvar := length_forVar_le ts
  have hin := length_eat_le "in" (forVar ts).2
  have hwords := length_forWords_le (eat "in" (forVar ts).2).2
  have hdo := length_eat_le "do" (forWords (eat "in" (forVar ts).2).2).2
  refine ⟨hpre _ _ (by omega), fun body ts₁ h₁ => ?_⟩
  have h₁ : ts₁.length ≤ _ := hspec _ _ h₁
  have hdone := length_eat_le "done" ts₁
  omega

theorem parseWhile_wp : (parseWhile ts).wp pre spec fails fun r => r.2.length ≤ ts.length := by
  simp only [parseWhile, Prog.wp_bind, wp_callList, Prog.wp_pure]
  refine ⟨hpre _ _ le_rfl, fun cond ts₁ h₁ => ?_⟩
  have h₁ : ts₁.length ≤ ts.length := hspec _ _ h₁
  have hdo := length_eat_le "do" ts₁
  refine ⟨hpre _ _ (by omega), fun body ts₂ h₂ => ?_⟩
  have h₂ : ts₂.length ≤ (eat "do" ts₁).2.length := hspec _ _ h₂
  have hdone := length_eat_le "done" ts₂
  omega

theorem parseFunc_wp : (parseFunc ts).wp pre spec fails fun r => r.2.length ≤ ts.length := by
  simp only [parseFunc, Prog.wp_bind, wp_callList, Prog.wp_pure]
  have hname := length_funcName_le ts
  have hopen := length_eat_le "\x7b" (funcName ts).2
  refine ⟨hpre _ _ (by omega), fun body ts₁ h₁ => ?_⟩
  have h₁ : ts₁.length ≤ _ := hspec _ _ h₁
  have hclose := length_eat_le "\x7d" ts₁
  omega

end Blocks

include hspec

theorem parsePrimary_wp (hlist : ∀ stop us, us.length < ts.length → pre (.list stop us))
    (hprimary : ∀ us, us.length < ts.length → pre (.primary us)) :
    (parsePrimary ts).wp pre spec fails (Progress ts) := by
  match ts with
  | [] => exact rfl
  | .semi :: us => exact progress_parseSimple (by simp)
  | .nl :: us => exact progress_parseSimple (by simp)
  | .and :: us => exact progress_parseSimple (by simp)
  | .or :: us => exact progress_parseSimple (by simp)
  | .not :: us =>
    refine Prog.wp_bind.mpr (wp_callPrimary.mpr ?_)
    refine ⟨hprimary _ (Nat.lt_succ_self _), fun inner vs h => ?_⟩
    have h : Progress us (inner, vs) := hspec _ _ h
    exact h.not
  | .word w :: us =>
    have hbelow : ∀ stop vs, vs.length ≤ us.length → pre (.list stop vs) := fun stop vs hle =>
      hlist stop vs (Nat.lt_succ_of_le hle)
    unfold parsePrimary
    dsimp only
    split
    · refine Prog.wp_bind.mpr (Prog.wp_mono (fun r hr => ?_) (parseIf_wp hspec hbelow))
      exact progress_of_some rfl (by simp) rfl hr
    · refine Prog.wp_bind.mpr (Prog.wp_mono (fun r hr => ?_) (parseFor_wp hspec hbelow))
      exact progress_of_some rfl (by simp) rfl hr
    · refine Prog.wp_bind.mpr (Prog.wp_mono (fun r hr => ?_) (parseWhile_wp hspec hbelow))
      exact progress_of_some rfl (by simp) rfl hr
    · refine Prog.wp_bind.mpr (Prog.wp_mono (fun r hr => ?_) (parseFunc_wp hspec hbelow))
      exact progress_of_some rfl (by simp) rfl hr
    · exact progress_of_some rfl (by simp) rfl le_rfl
    · exact progress_of_some rfl (by simp) rfl le_rfl
    · exact progress_of_some rfl (by simp) rfl (length_returnCode_le us)
    · exact progress_parseSimple (by simp)

theorem parseOr_wp {s left : Stmt} {vs : List Tok} (h : Progress ts (some s, us))
    (hlen : vs.length ≤ us.length) (hone : ∀ ws, ws.length < ts.length → pre (.one ws))
    (hend : vs = [] → fails) : (parseOr left vs).wp pre spec fails (Progress ts) := by
  have hle := h.length_le
  unfold parseOr
  split
  · exact hend rfl
  · rename_i ws
    have hskip := length_skipSep_le ws
    rw [List.length_cons] at hlen
    simp only [Prog.wp_bind, wp_callOne]
    refine ⟨hone _ (by simp only at hle; omega), fun right xs hx => ?_⟩
    have hx : Progress (skipSep ws) (right, xs) := hspec _ _ hx
    have := hx.length_le
    exact h.replace (by simp only at this; omega)
  · exact h.replace hlen

theorem parseOne_wp (hprimary : pre (.primary ts))
    (hone : ∀ us, us.length < ts.length → pre (.one us))
    (hend : ∀ left us, spec (.primary ts) (some left, .and :: us) →
      (∀ t ∈ skipSep us, t = .not) → fails) :
    (parseOne ts).wp pre spec fails (Progress ts) := by
  simp only [parseOne, Prog.wp_bind, wp_callPrimary]
  refine ⟨hprimary, fun left us hp => ?_⟩
  have h : Progress ts (left, us) := hspec _ _ hp
  split
  · exact h
  · exact h
  · rename_i left us
    have hle := h.length_le
    have hskip := length_skipSep_le us
    simp only [List.length_cons] at hle
    simp only [Prog.wp_bind, wp_callOne]
    refine ⟨hone _ (by omega), fun right vs hr => ?_⟩
    have hr : Progress (skipSep us) (right, vs) := hspec _ _ hr
    have hlen : vs.length ≤ (Tok.and :: us).length := by
      have := hr.length_le
      simp only [List.length_cons] at this ⊢
      omega
    cases right with
    | some right => exact h.replace hlen
    | none =>
      -- Without a right side the token at the cursor is read again, which may be the end.
      refine parseOr_wp hspec h hlen hone fun hnil => ?_
      by_contra hfails
      exact hr.ne_nil rfl (fun hall => hfails (hend _ _ hp hall)) hnil
  · rename_i left hne _
    exact parseOr_wp hspec h le_rfl hone fun hnil => absurd hnil hne

theorem parseList_wp {stop : List String} (hone : ∀ us, us.length ≤ ts.length → pre (.one us))
    (hlist : ∀ t vs us, skipSep ts = t :: vs → t.isOneOf stop = false →
      (t.blocks = false → us.length < ts.length) → pre (.list stop us)) :
    (parseList stop ts).wp pre spec fails fun r => r.2.length ≤ ts.length := by
  have hskip := length_skipSep_le ts
  unfold parseList
  split
  · exact Nat.zero_le _
  · rename_i t vs heq
    rw [heq] at hskip
    split_ifs with hstop
    · exact hskip
    · simp only [Prog.wp_bind, wp_callOne, wp_callList, Prog.wp_pure]
      refine ⟨hone _ hskip, fun s us hs => ?_⟩
      have hs : Progress (t :: vs) (s, us) := hspec _ _ hs
      have hle := hs.length_le
      refine ⟨hlist t vs us heq (by simpa using hstop) fun hblocks => ?_, fun v ws hv => ?_⟩
      · exact (hs.of_not_blocks hblocks).trans_le hskip
      · have hv : ws.length ≤ us.length := hspec _ _ hv
        exact hv.trans (hle.trans hskip)

end Bodies

/-- A call that returns has made the progress expected. -/
theorem expected_of_answers {c : Call} {r : c.Answer} (h : Answers body c r) : Expected c r := by
  refine answers_of_wp (fun c => ?_) h
  cases c with
  | list stop ts =>
    exact parseList_wp (fun _ _ => id) (fun _ _ => trivial) (fun _ _ _ _ _ _ => trivial)
  | one ts =>
    exact parseOne_wp (fun _ _ => id) trivial (fun _ _ => trivial) (fun _ _ _ _ => trivial)
  | primary ts =>
    exact parsePrimary_wp (fun _ _ => id) (fun _ _ _ => trivial) (fun _ _ => trivial)

/-! ### Stuck calls -/

/-- A round of `parse_list` at a token that it never takes, or the end of the tokens after `&&`. -/
def Call.Stuck : Call → Prop
  | .list stop ts => ∃ t us, skipSep ts = t :: us ∧ t.isOneOf stop = false ∧ t.blocks = true
  | .one ts => ∃ left us, Answers body (.primary ts) (some left, .and :: us) ∧
      ∀ t ∈ skipSep us, t = .not
  | .primary _ => False

section Exec

variable {answer : ∀ c : Call, Exec c.Answer}

theorem exec_callList {stop : List String} :
    (callList stop ts).exec answer = answer (.list stop ts) := Prog.exec_ask

theorem exec_callOne : (callOne ts).exec answer = answer (.one ts) := Prog.exec_ask

theorem exec_callPrimary : (callPrimary ts).exec answer = answer (.primary ts) := Prog.exec_ask

end Exec

/-- A round that takes no token is repeated for ever. -/
theorem not_answers_list {stop : List String} (hskip : skipSep ts = t :: us)
    (hstop : t.isOneOf stop = false) (hblocks : t.blocks = true) {r : List Stmt × List Tok} :
    ¬ Answers body (.list stop ts) r := by
  rintro ⟨depth, hr⟩
  induction depth generalizing ts r with
  | zero => cases hr
  | succ depth ih =>
    have hbody : (parseList stop ts).exec (eval body depth) = .ok r := hr
    simp only [parseList, hskip, hstop, Bool.false_eq_true, ↓reduceIte, Prog.exec_bind] at hbody
    obtain ⟨⟨s, vs⟩, hone, hbody⟩ := bind_eq_ok_iff.mp hbody
    obtain ⟨⟨v, ws⟩, hlist, -⟩ := bind_eq_ok_iff.mp hbody
    rw [exec_callOne] at hone
    rw [exec_callList] at hlist
    -- The cursor has not moved, so the next round is this one with a smaller depth.
    have hprogress : Progress (t :: us) (s, vs) := expected_of_answers ⟨depth, hone⟩
    obtain ⟨rfl, rfl⟩ := Prod.mk.inj (hprogress.of_blocks hblocks)
    refine ih ?_ hlist
    rw [← hskip, skipSep, skipSep, List.dropWhile_idempotent]

theorem not_answers_one {left : Stmt} (hleft : Answers body (.primary ts) (some left, .and :: us))
    (hall : ∀ t ∈ skipSep us, t = .not) : ¬ Answers body (.one ts) r := by
  rintro ⟨depth, hr⟩
  cases depth with
  | zero => cases hr
  | succ depth =>
    have hbody : (parseOne ts).exec (eval body depth) = .ok r := hr
    simp only [parseOne, Prog.exec_bind] at hbody
    obtain ⟨⟨s, vs⟩, hprimary, hbody⟩ := bind_eq_ok_iff.mp hbody
    rw [exec_callPrimary] at hprimary
    obtain ⟨rfl, rfl⟩ := Prod.mk.inj (Answers.unique ⟨depth, hprimary⟩ hleft)
    simp only [Prog.exec_bind] at hbody
    obtain ⟨⟨right, ws⟩, hone, hbody⟩ := bind_eq_ok_iff.mp hbody
    rw [exec_callOne] at hone
    have hprogress : Progress (skipSep us) (right, ws) := expected_of_answers ⟨depth, hone⟩
    obtain ⟨rfl, rfl⟩ := Prod.mk.inj (hprogress.of_all_not hall)
    cases hbody

/-- The order in which the calls become smaller: by the tokens left, and from lists to single
statements to primary ones. -/
def Call.size : Call → Nat
  | .list _ ts => 3 * ts.length + 2
  | .one ts => 3 * ts.length + 1
  | .primary ts => 3 * ts.length

theorem wp_of_not_stuck (c : Call) (h : ¬ c.Stuck) :
    (body c).wp (fun d => d.size < c.size) (Answers body) False fun _ => True := by
  have hspec : ∀ c r, Answers body c r → Expected c r := fun _ _ => expected_of_answers
  cases c with
  | list stop ts =>
    refine Prog.wp_mono (fun _ _ => trivial) (parseList_wp hspec (fun us hle => ?_) ?_)
    · simp only [Call.size]
      omega
    · intro t vs us hskip hstop hlt
      have hblocks : t.blocks = false := by
        by_contra hblocks
        exact h ⟨t, vs, hskip, hstop, by simpa using hblocks⟩
      have := hlt hblocks
      simp only [Call.size]
      omega
  | one ts =>
    refine Prog.wp_mono (fun _ _ => trivial) (parseOne_wp hspec ?_ (fun us hlt => ?_) ?_)
    · simp only [Call.size]
      omega
    · simp only [Call.size]
      omega
    · exact fun left us hleft hall => h ⟨left, us, hleft, hall⟩
  | primary ts =>
    refine Prog.wp_mono (fun _ _ => trivial)
      (parsePrimary_wp hspec (fun stop us hlt => ?_) fun us hlt => ?_)
    · simp only [Call.size]
      omega
    · simp only [Call.size]
      omega

theorem answered_iff (c : Call) :
    (∃ r, Answers body c r) ↔ ∀ d, Reached body c d → ¬ d.Stuck := by
  refine answers_iff Call.size (fun c r hstuck => ?_) wp_of_not_stuck c
  cases c with
  | list stop ts =>
    obtain ⟨t, us, hskip, hstop, hblocks⟩ := hstuck
    exact not_answers_list hskip hstop hblocks
  | one ts =>
    obtain ⟨left, us, hleft, hall⟩ := hstuck
    exact not_answers_one hleft hall
  | primary ts => exact hstuck.elim

/-! ### Scripts -/

/-- In every round of `parse_list` that the parser makes, `parse_one` takes a token. -/
def RoundsConsume (ts : List Tok) : Prop :=
  ∀ stop us t vs, Reached body (.list [] ts) (.list stop us) → skipSep us = t :: vs →
    t.isOneOf stop = false → ∀ r : Option Stmt × List Tok, Answers body (.one (t :: vs)) r →
      r.2.length < (t :: vs).length

/-- The tokens are parsed, and every round takes a token. -/
def Parses (ts : List Tok) : Prop :=
  (∃ depth stmts, parse depth ts = .ok stmts) ∧ RoundsConsume ts

theorem parse_returns_iff (ts : List Tok) :
    (∃ depth stmts, parse depth ts = .ok stmts) ↔ ∃ r, Answers body (.list [] ts) r := by
  constructor
  · rintro ⟨depth, stmts, h⟩
    obtain ⟨r, hr, -⟩ := bind_eq_ok_iff.mp h
    exact ⟨r, depth, hr⟩
  · rintro ⟨r, depth, hr⟩
    exact ⟨depth, _, bind_eq_ok_iff.mpr ⟨r, hr, rfl⟩⟩

/-- **Totality of the script parser.** Every script is tokenised, and it is parsed with every round
taking a token exactly when the parser reaches no list at a stray token and no end after `&&`. -/
theorem parses_iff (src : List Char) :
    ∃ ts, tokenise src = .ok ts ∧
      (Parses ts ↔ ∀ c, Reached body (.list [] ts) c → ¬ c.Stuck) := by
  obtain ⟨ts, hts⟩ := tokenise_returns src
  refine ⟨ts, hts, ?_⟩
  rw [Parses, parse_returns_iff, answered_iff]
  refine and_iff_left_of_imp fun hfree => ?_
  intro stop us t vs hreach hskip hstop r hr
  have hprogress : Progress (t :: vs) r := expected_of_answers hr
  refine hprogress.of_not_blocks ?_
  by_contra hblocks
  exact hfree _ hreach ⟨t, vs, hskip, hstop, by simpa using hblocks⟩

example : ∃ stmts, parse 15 [.word "if", .word "a", .nl, .word "then", .word "b", .and, .word "c",
    .semi, .word "fi"] = .ok stmts := ⟨_, rfl⟩

/-- The scripts `fi` and `a &&` are not parsed. -/
theorem stray_word_and_open_end :
    (∃ ts, tokenise ['f', 'i'] = .ok ts ∧ ¬ Parses ts) ∧
      ∃ ts, tokenise ['a', ' ', '&', '&'] = .ok ts ∧ ¬ Parses ts := by
  constructor
  · refine ⟨[.word "fi"], rfl, fun hparse => ?_⟩
    obtain ⟨r, hr⟩ := (parse_returns_iff _).mp hparse.1
    exact not_answers_list rfl rfl rfl hr
  · refine ⟨[.word "a", .and], rfl, fun hparse => ?_⟩
    obtain ⟨r, hr⟩ := (parse_returns_iff _).mp hparse.1
    have hmakes : (body (.list [] [.word "a", .and])).Makes (Answers body)
        (.one [.word "a", .and]) := Or.inl rfl
    obtain ⟨r', hr'⟩ := answered_of_reached ⟨r, hr⟩ (.single hmakes)
    exact not_answers_one ⟨1, rfl⟩ (by decide) hr'

end MerlionKernel.ShellLang
