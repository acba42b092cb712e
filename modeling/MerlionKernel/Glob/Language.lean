import MerlionKernel.Glob.Model

/-!
# The language of a pattern

A pattern without `**` is a list of elements, and its language is given by recursion on them. The
loop of the matcher remembers only its last `*`. So it puts what stands between two `*` at the first
place where it fits, and never moves it again. It is right about a text exactly if a text of the
language can be read in this way.
-/

namespace MerlionKernel.Glob

open Rust

/-- A part of a pattern. -/
inductive Element
  | star
  | any
  | byte (b : UInt8)
  | cls (admits : UInt8 → Bool)

/-- The byte can stand for the element. -/
def Element.admits : Element → UInt8 → Bool
  | .star, _ => false
  | .any, c => c ≠ slash
  | .byte b, c => c = b
  | .cls s, c => s c

/-- The bytes that a class admits. -/
def classAdmits (pat : Bytes) (c : UInt8) : Bool :=
  match matchClass pat c with
  | some (found, _) => found
  | none => false

/-- The length of a class. -/
def classLength (pat : Bytes) : Option Nat := (matchClass pat 0).map Prod.snd

theorem classLoop_length (ch ch' : UInt8) (body : Bytes) (i : Nat) (found found' : Bool) :
    (classLoop ch body i found).map Prod.snd = (classLoop ch' body i found').map Prod.snd := by
  fun_induction classLoop ch body i found generalizing found' with
  | case1 => rfl
  | case2 =>
    unfold classLoop
    rw [if_pos rfl]
    rfl
  | case3 c i found hc dash hi rest hrange ih =>
    rw [classLoop, if_neg hc]
    simp only [if_pos hrange]
    exact ih _
  | case4 c i found hc dash hi rest hrange ih =>
    rw [classLoop, if_neg hc]
    simp only [if_neg hrange]
    exact ih _
  | case5 c i found hc rest hrest ih =>
    have hnext : classLoop ch' (c :: rest) i found' =
        classLoop ch' rest (i + 1) (found' || c == ch') := by
      rcases rest with - | ⟨d, - | ⟨hi, rest⟩⟩
      · exact if_neg hc
      · exact if_neg hc
      · exact (hrest d hi rest rfl).elim
    rw [hnext]
    exact ih _

theorem lt_of_classLoop {ch : UInt8} {body : Bytes} {i n : Nat} {found b : Bool}
    (h : classLoop ch body i found = some (b, n)) : i < n := by
  fun_induction classLoop ch body i found with
  | case1 => cases h
  | case2 =>
    cases h
    exact Nat.lt_succ_self _
  | case3 c i found hc dash hi rest hrange ih => exact Nat.lt_of_add_right_lt (ih h)
  | case4 c i found hc dash hi rest hrange ih => exact Nat.lt_of_succ_lt (ih h)
  | case5 c i found hc rest hrest ih => exact Nat.lt_of_succ_lt (ih h)

/-- The length of a class does not depend on the byte, and is not zero. -/
theorem classLength_of_matchClass (pat : Bytes) (c : UInt8) :
    classLength pat = (matchClass pat c).map Prod.snd ∧
      ∀ found n, matchClass pat c = some (found, n) → 0 < n := by
  unfold classLength matchClass
  rcases pat with - | ⟨p, body⟩
  · exact ⟨rfl, nofun⟩
  dsimp only
  split_ifs
  · exact ⟨rfl, nofun⟩
  · refine ⟨?_, fun found n h => ?_⟩
    · have hlength := classLoop_length 0 c body.tail 2 false false
      simp only [Option.map_map] at hlength ⊢
      exact hlength
    · obtain ⟨⟨b, m⟩, hloop, heq⟩ := Option.map_eq_some_iff.mp h
      cases heq
      exact Nat.zero_lt_of_lt (lt_of_classLoop hloop)
  · exact ⟨classLoop_length 0 c body 1 false false, fun found n h =>
      Nat.zero_lt_of_lt (lt_of_classLoop h)⟩

/-- The elements of a pattern; a malformed class stands for no byte. -/
def elements (pat : Bytes) : List Element :=
  match pat with
  | [] => []
  | p :: rest =>
    if p = star then .star :: elements rest
    else if p = question then .any :: elements rest
    else if p = bracket then
      match classLength (p :: rest) with
      | some n => .cls (classAdmits (p :: rest)) :: elements (rest.drop (n - 1))
      | none => [.cls fun _ => false]
    else .byte p :: elements rest
termination_by pat.length

/-- The texts that the elements stand for. -/
def Lang : List Element → Bytes → Prop
  | [], t => t = []
  | .star :: es, t => ∃ u v, t = u ++ v ∧ slash ∉ u ∧ Lang es v
  | e :: es, t => ∃ c v, t = c :: v ∧ e.admits c = true ∧ Lang es v

/-- There is a next `*`, and the elements before it stand for the first bytes of the text. -/
def Fits : List Element → Bytes → Bool
  | [], _ => false
  | .star :: _, _ => true
  | _ :: _, [] => false
  | e :: es, c :: t => e.admits c && Fits es t

/-- The texts that the elements stand for when each `*` stands for as little as it can: what lies
between it and the next `*` fits nowhere before. -/
def FirstFit : List Element → Bytes → Prop
  | [], t => t = []
  | .star :: es, t => ∃ u v, t = u ++ v ∧ slash ∉ u ∧ FirstFit es v ∧
      ∀ u' v', t = u' ++ v' → u'.length < u.length → Fits es v' = false
  | e :: es, t => ∃ c v, t = c :: v ∧ e.admits c = true ∧ FirstFit es v

section Elements

variable {e : Element} {es X : List Element} {t : Bytes} {c : UInt8}

theorem ne_star_of_admits (h : e.admits c = true) : e ≠ .star := by
  rintro rfl
  cases h

theorem lang_cons_iff (he : e ≠ .star) :
    Lang (e :: es) t ↔ ∃ c v, t = c :: v ∧ e.admits c = true ∧ Lang es v := by
  cases e <;> first | exact (he rfl).elim | rfl

theorem firstFit_cons_iff (he : e ≠ .star) :
    FirstFit (e :: es) t ↔ ∃ c v, t = c :: v ∧ e.admits c = true ∧ FirstFit es v := by
  cases e <;> first | exact (he rfl).elim | rfl

theorem fits_cons (he : e ≠ .star) : Fits (e :: es) (c :: t) = (e.admits c && Fits es t) := by
  cases e <;> first | exact (he rfl).elim | rfl

/-- A reading of that kind is a reading. -/
theorem FirstFit.lang (h : FirstFit es t) : Lang es t := by
  induction es generalizing t with
  | nil => exact h
  | cons e es ih =>
    by_cases he : e = .star
    · subst he
      obtain ⟨u, v, rfl, hslash, hv, -⟩ := h
      exact ⟨u, v, rfl, hslash, ih hv⟩
    · obtain ⟨c, v, rfl, hadmits, hv⟩ := (firstFit_cons_iff he).mp h
      exact (lang_cons_iff he).mpr ⟨c, v, rfl, hadmits, ih hv⟩

variable {seen : Bytes} (hseen : List.Forall₂ (fun e c => e.admits c = true) X seen)

include hseen

theorem fits_append : Fits (X ++ es) (seen ++ t) = Fits es t := by
  induction hseen with
  | nil => rfl
  | cons hc _ ih =>
    rw [List.cons_append, List.cons_append, fits_cons (ne_star_of_admits hc), hc, ih]
    rfl

/-- Elements without `*` stand for as many bytes. -/
theorem length_le_of_firstFit (h : FirstFit (X ++ es) t) : seen.length ≤ t.length := by
  induction hseen generalizing t with
  | nil => exact Nat.zero_le _
  | cons hc _ ih =>
    rw [List.cons_append, firstFit_cons_iff (ne_star_of_admits hc)] at h
    obtain ⟨c, v, rfl, -, hv⟩ := h
    exact Nat.succ_le_succ (ih hv)

end Elements

/-! ### Patterns without a double star -/

/-- No two stars stand side by side. -/
def NoDouble (pat : Bytes) : Prop := ¬ [star, star] <:+: pat

theorem NoDouble.of_suffix {pat pat' : Bytes} (h : NoDouble pat) (hsuffix : pat' <:+ pat) :
    NoDouble pat' :=
  fun hin => h (hin.trans hsuffix.isInfix)

theorem NoDouble.afterDouble_eq {pat : Bytes} (h : NoDouble pat) : afterDouble pat = none := by
  rcases pat with - | ⟨p, - | ⟨p', rest⟩⟩
  · rfl
  · rfl
  · refine if_neg ?_
    rintro ⟨rfl, rfl⟩
    exact h ⟨[], rest, rfl⟩

/-- A byte that was consumed stands for the first element. -/
theorem of_consume {pat pat' : Bytes} {c : UInt8} (h : consume pat c = some pat')
    (hstar : pat.head? ≠ some star) :
    pat' <:+ pat ∧ ∃ e, e.admits c = true ∧ elements pat = e :: elements pat' := by
  rcases pat with - | ⟨p, rest⟩
  · cases h
  have hp : p ≠ star := fun hp => hstar (congrArg some hp)
  rw [elements, if_neg hp]
  unfold consume at h
  dsimp only at h
  split_ifs at h with hany hclass hbyte
  · cases h
    rw [if_pos hany.1]
    exact ⟨List.suffix_cons _ _, .any, decide_eq_true hany.2, rfl⟩
  · have hquestion : p ≠ question := by
      rw [hclass]
      decide
    rw [if_neg hquestion, if_pos hclass]
    split at h
    · next n hmatch =>
      cases h
      obtain ⟨hlength, hpos⟩ := classLength_of_matchClass (p :: rest) c
      rw [hmatch] at hlength
      obtain ⟨m, rfl⟩ := Nat.exists_eq_succ_of_ne_zero (hpos _ _ hmatch).ne'
      refine ⟨List.drop_suffix _ _, .cls (classAdmits (p :: rest)), ?_, ?_⟩
      · show classAdmits (p :: rest) c = true
        rw [classAdmits, hmatch]
      · simp only [hlength]
        rfl
    · cases h
  · cases h
    have hquestion : p ≠ question ∨ c = slash := by
      rw [or_iff_not_imp_left, not_not]
      exact fun hp => not_not.mp fun hc => hany ⟨hp, hc⟩
    rcases hquestion with hquestion | rfl
    · rw [if_neg hquestion, if_neg hclass]
      exact ⟨List.suffix_cons _ _, .byte p, decide_eq_true hbyte.symm, rfl⟩
    · subst hbyte
      rw [if_neg (by decide), if_neg hclass]
      exact ⟨List.suffix_cons _ _, .byte slash, rfl, rfl⟩

/-- A byte that was not consumed does not stand for the first element. -/
theorem of_consume_none {pat : Bytes} {c : UInt8} (h : consume pat c = none)
    (hstar : pat.head? ≠ some star) :
    elements pat = [] ∨ ∃ e es, elements pat = e :: es ∧ e ≠ .star ∧ e.admits c = false := by
  rcases pat with - | ⟨p, rest⟩
  · rw [elements]
    exact .inl rfl
  have hp : p ≠ star := fun hp => hstar (congrArg some hp)
  right
  rw [elements, if_neg hp]
  unfold consume at h
  dsimp only at h
  split_ifs at h with hany hclass hbyte
  · have hquestion : p ≠ question := by
      rw [hclass]
      decide
    rw [if_neg hquestion, if_pos hclass]
    split at h
    · cases h
    · next hmatch =>
      obtain ⟨hlength, -⟩ := classLength_of_matchClass (p :: rest) c
      rw [hlength]
      cases hclass : matchClass (p :: rest) c with
      | none => exact ⟨_, _, rfl, nofun, rfl⟩
      | some result =>
        obtain ⟨found, n⟩ := result
        refine ⟨_, _, rfl, nofun, ?_⟩
        cases found with
        | true => exact (hmatch n hclass).elim
        | false =>
          show classAdmits (p :: rest) c = false
          rw [classAdmits, hclass]
  · by_cases hquestion : p = question
    · rw [if_pos hquestion]
      refine ⟨_, _, rfl, nofun, decide_eq_false fun hc => hany ⟨hquestion, hc⟩⟩
    · rw [if_neg hquestion, if_neg hclass]
      exact ⟨_, _, rfl, nofun, decide_eq_false fun hc => hbyte hc.symm⟩

theorem not_firstFit_of_consume {pat t : Bytes} {c : UInt8} (h : consume pat c = none)
    (hstar : pat.head? ≠ some star) :
    ¬ FirstFit (elements pat) (c :: t) ∧ Fits (elements pat) (c :: t) = false := by
  rcases of_consume_none h hstar with hnil | ⟨e, es, hcons, he, hadmits⟩
  · rw [hnil]
    exact ⟨nofun, rfl⟩
  · rw [hcons, fits_cons he, hadmits, firstFit_cons_iff he]
    refine ⟨?_, rfl⟩
    rintro ⟨c', v, heq, hc, -⟩
    cases heq
    cases hadmits.symm.trans hc

theorem elements_star (rest : Bytes) : elements (star :: rest) = .star :: elements rest := by
  rw [elements, if_pos rfl]

/-- A byte other than a star begins an element of its own. -/
theorem elements_of_ne_star {p : UInt8} (hp : p ≠ star) (rest : Bytes) :
    ∃ e es, elements (p :: rest) = e :: es ∧ e ≠ .star := by
  rw [elements, if_neg hp]
  split_ifs
  · exact ⟨_, _, rfl, nofun⟩
  · split <;> exact ⟨_, _, rfl, nofun⟩
  · exact ⟨_, _, rfl, nofun⟩

/-- Nothing is left of the text. -/
theorem firstFit_nil_iff (pat : Bytes) :
    (pat.dropWhile (· == star)).isEmpty = true ↔ FirstFit (elements pat) [] := by
  induction pat with
  | nil =>
    rw [elements]
    exact iff_of_true rfl rfl
  | cons p rest ih =>
    by_cases hp : p = star
    · subst hp
      rw [elements_star, List.dropWhile_cons, if_pos (beq_self_eq_true _), ih]
      constructor
      · exact fun h => ⟨[], [], rfl, List.not_mem_nil, h, fun _ _ _ hlt => absurd hlt (by simp)⟩
      · rintro ⟨u, v, heq, -, h, -⟩
        obtain ⟨rfl, rfl⟩ := List.append_eq_nil_iff.mp heq.symm
        exact h
    · obtain ⟨e, es, hcons, he⟩ := elements_of_ne_star hp rest
      rw [hcons, firstFit_cons_iff he, List.dropWhile_cons, if_neg (mt beq_iff_eq.mp hp)]
      refine iff_of_false nofun ?_
      rintro ⟨c, v, heq, -⟩
      cases heq

/-! ### Going back to the last star -/

/-- The last star stands for one byte more, or for several, and for as little as it can. -/
def Retry (es : List Element) (T : Bytes) : Prop :=
  ∃ u v, T = u ++ v ∧ u ≠ [] ∧ slash ∉ u ∧ FirstFit es v ∧
    ∀ u' v', T = u' ++ v' → u'.length < u.length → Fits es v' = false

theorem firstFit_star_iff {es : List Element} {T : Bytes} :
    FirstFit (.star :: es) T ↔ FirstFit es T ∨ Retry es T := by
  constructor
  · rintro ⟨u, v, rfl, hslash, hv, hfirst⟩
    by_cases hu : u = []
    · subst hu
      exact .inl hv
    · exact .inr ⟨u, v, rfl, hu, hslash, hv, hfirst⟩
  · rintro (h | ⟨u, v, rfl, -, h⟩)
    · exact ⟨[], T, rfl, List.not_mem_nil, h, fun _ _ _ hlt => absurd hlt (Nat.not_lt_zero _)⟩
    · exact ⟨u, v, rfl, h⟩

theorem retry_cons_iff {es : List Element} {T : Bytes} {b : UInt8} :
    Retry es (b :: T) ↔ b ≠ slash ∧ Fits es (b :: T) = false ∧ FirstFit (.star :: es) T := by
  constructor
  · rintro ⟨u, v, heq, hne, hslash, hv, hfirst⟩
    rcases u with - | ⟨b', u⟩
    · exact (hne rfl).elim
    · cases heq
      rw [List.mem_cons, not_or] at hslash
      refine ⟨fun hb => hslash.1 hb.symm, hfirst [] _ rfl (Nat.succ_pos _), u, v, rfl, hslash.2, hv,
        fun u' v' heq hlt => ?_⟩
      exact hfirst (b :: u') v' (congrArg _ heq) (Nat.succ_lt_succ hlt)
  · rintro ⟨hb, hhere, u, v, rfl, hslash, hv, hfirst⟩
    refine ⟨b :: u, v, rfl, by simp, ?_, hv, fun u' v' heq hlt => ?_⟩
    · rw [List.mem_cons, not_or]
      exact ⟨Ne.symm hb, hslash⟩
    · rcases u' with - | ⟨b', u'⟩
      · cases heq
        exact hhere
      · obtain ⟨-, heq⟩ := List.cons.inj heq
        exact hfirst u' v' heq (Nat.lt_of_succ_lt_succ hlt)

/-! ### Readings that can be moved -/

/-- The text has no slash, or nothing but a slash can stand for an element that a slash can stand
for. -/
def SlashSafe (es : List Element) (t : Bytes) : Prop :=
  slash ∉ t ∨ ∀ e ∈ es, e.admits slash = true → ∀ c, e.admits c = true → c = slash

theorem SlashSafe.mono {es es' : List Element} {t t' : Bytes} (h : SlashSafe es t) (hes : es' ⊆ es)
    (ht : t' ⊆ t) : SlashSafe es' t' :=
  h.imp (fun h hmem => h (ht hmem)) fun h e he => h e (hes he)

section Move

variable {es : List Element} {v : Bytes} (hsafe : SlashSafe es v)

include hsafe

/-- What fits earlier can stand there: the next star stands for what is then left over. -/
theorem lang_of_fits {s : Bytes} (hs : slash ∉ s) (hfits : Fits es (s ++ v) = true)
    (h : Lang es v) : Lang es (s ++ v) := by
  induction es generalizing s v with
  | nil => cases hfits
  | cons e es ih =>
    by_cases he : e = .star
    · subst he
      obtain ⟨u, w, rfl, hu, hw⟩ := h
      rw [← List.append_assoc]
      exact ⟨s ++ u, w, rfl, fun hmem => (List.mem_append.mp hmem).elim hs hu, hw⟩
    rcases s with - | ⟨c, s⟩
    · exact h
    obtain ⟨d, w, rfl, hd, hw⟩ := (lang_cons_iff he).mp h
    rw [List.cons_append, fits_cons he, Bool.and_eq_true] at hfits
    rw [List.mem_cons, not_or] at hs
    -- The byte that is moved is no slash: the element stands for a byte of `s` as well.
    have hslash : slash ≠ d := by
      rintro rfl
      rcases hsafe with hv | hplain
      · exact hv List.mem_cons_self
      · exact hs.1 (hplain e List.mem_cons_self hd c hfits.1).symm
    have hmoved := @ih w (hsafe.mono (List.subset_cons_self _ _) (List.subset_cons_self _ _))
      (s ++ [d]) (by simp [hs.2, hslash]) (by simpa using hfits.2) hw
    rw [List.append_assoc] at hmoved
    exact (lang_cons_iff he).mpr ⟨c, _, rfl, hfits.1, hmoved⟩

/-- Every reading can be moved to the front, star by star. -/
theorem Lang.firstFit (h : Lang es v) : FirstFit es v := by
  induction es generalizing v with
  | nil => exact h
  | cons e es ih =>
    by_cases he : e = .star
    · subst he
      obtain ⟨u, w, rfl, hu, hw⟩ := h
      induction u with
      | nil => exact firstFit_star_iff.mpr (.inl (ih (hsafe.mono (by simp) (by simp)) hw))
      | cons b u ihu =>
        have hrest := hu
        rw [List.mem_cons, not_or] at hrest
        by_cases hfits : Fits es (b :: u ++ w) = true
        · have hmoved := lang_of_fits (hsafe.mono (by simp) (by simp)) hu hfits hw
          exact firstFit_star_iff.mpr (.inl (ih (hsafe.mono (by simp) (by simp)) hmoved))
        · refine firstFit_star_iff.mpr (.inr (retry_cons_iff.mpr ⟨Ne.symm hrest.1, ?_, ?_⟩))
          · exact Bool.eq_false_iff.mpr hfits
          · exact ihu (hsafe.mono (by simp) (by simp)) hrest.2
    · obtain ⟨c, w, rfl, hadmits, hw⟩ := (lang_cons_iff he).mp h
      exact (firstFit_cons_iff he).mpr
        ⟨c, w, rfl, hadmits, ih (hsafe.mono (by simp) (by simp)) hw⟩

end Move

/-! ### The loop -/

/-- What the loop has passed: the elements from the last star on stand for the bytes since. -/
def Passed (pat : Bytes) : Option (Bytes × Bytes) → Prop
  | none => True
  | some (p, seen) => NoDouble p ∧ ∃ X, elements p = X ++ elements pat ∧
      List.Forall₂ (fun e c => e.admits c = true) X seen

/-- What the loop decides. -/
def Target (pat txt : Bytes) : Option (Bytes × Bytes) → Prop
  | none => FirstFit (elements pat) txt
  | some (p, seen) => FirstFit (elements pat) txt ∨ Retry (elements p) (seen ++ txt)

section Loop

variable {pat txt : Bytes} {last : Option (Bytes × Bytes)}

/-- When the text is used up, going back cannot help. -/
theorem not_retry_of_passed {p seen : Bytes} (h : Passed pat (some (p, seen))) :
    ¬ Retry (elements p) seen := by
  obtain ⟨-, X, hp, hseen⟩ := h
  rintro ⟨u, v, rfl, hu, -, hv, -⟩
  rw [hp] at hv
  have hle := length_le_of_firstFit hseen hv
  rw [List.length_append] at hle
  exact hu (List.length_eq_zero_iff.mp (by omega))

/-- A star is passed, and is from now on the last: what is before it fits where it stands. -/
theorem target_star {rest : Bytes} (h : Passed (star :: rest) last) :
    Target (star :: rest) txt last ↔ Target rest txt (some (rest, [])) := by
  have hstar : FirstFit (elements (star :: rest)) txt ↔ Target rest txt (some (rest, [])) := by
    rw [elements_star]
    exact firstFit_star_iff
  cases last with
  | none => exact hstar
  | some entry =>
    obtain ⟨p, seen⟩ := entry
    obtain ⟨-, X, hp, hseen⟩ := h
    refine Iff.trans (or_iff_left ?_) hstar
    rintro ⟨u, v, -, hu, -, -, hfirst⟩
    have hfits := hfirst [] (seen ++ txt) rfl (List.length_pos_iff.mpr hu)
    rw [hp, fits_append hseen, elements_star] at hfits
    cases hfits

/-- A byte is consumed. -/
theorem passed_consume {pat' : Bytes} {e : Element} {c : UInt8}
    (hpat : elements pat = e :: elements pat') (hadmits : e.admits c = true)
    (h : Passed pat last) : Passed pat' (last.map fun (p, seen) => (p, seen ++ [c])) := by
  cases last with
  | none => trivial
  | some entry =>
    obtain ⟨p, seen⟩ := entry
    obtain ⟨hp, X, hX, hseen⟩ := h
    refine ⟨hp, X ++ [e], ?_, List.rel_append hseen (.cons hadmits .nil)⟩
    rw [hX, hpat, List.append_assoc]
    rfl

theorem target_consume {pat' : Bytes} {e : Element} {c : UInt8}
    (hpat : elements pat = e :: elements pat') (hadmits : e.admits c = true) :
    Target pat (c :: txt) last ↔
      Target pat' txt (last.map fun (p, seen) => (p, seen ++ [c])) := by
  have hhere : FirstFit (elements pat) (c :: txt) ↔ FirstFit (elements pat') txt := by
    rw [hpat, firstFit_cons_iff (ne_star_of_admits hadmits)]
    constructor
    · rintro ⟨c', v, heq, -, hv⟩
      cases heq
      exact hv
    · exact fun hv => ⟨c, txt, rfl, hadmits, hv⟩
  cases last with
  | none => exact hhere
  | some entry =>
    obtain ⟨p, seen⟩ := entry
    refine or_congr hhere ?_
    rw [List.append_assoc]
    rfl

/-- The loop accepts exactly what is left to accept. -/
theorem matchLoop_iff (inner : Bytes → Bytes → Bool) (hpat : NoDouble pat)
    (hpassed : Passed pat last) : matchLoop inner pat txt last = true ↔ Target pat txt last := by
  fun_induction matchLoop inner pat txt last with
  | case1 pat last =>
    rw [firstFit_nil_iff]
    cases last with
    | none => rfl
    | some entry =>
      refine (or_iff_left ?_).symm
      rw [List.append_nil]
      exact not_retry_of_passed hpassed
  | case2 pat last c txt rest hdouble =>
    rw [hpat.afterDouble_eq] at hdouble
    cases hdouble
  | case3 pat last c txt hdouble hstar ih =>
    obtain ⟨rest, rfl⟩ := List.head?_eq_some_iff.mp hstar
    have hrest := hpat.of_suffix (List.suffix_cons _ _)
    rw [target_star hpassed]
    exact ih hrest ⟨hrest, [], rfl, .nil⟩
  | case4 pat last c txt hdouble hstar pat' hconsume ih =>
    obtain ⟨hsuffix, e, hadmits, helements⟩ := of_consume hconsume hstar
    rw [target_consume helements hadmits]
    exact ih (hpat.of_suffix hsuffix) (passed_consume helements hadmits hpassed)
  | case5 pat c txt hdouble hstar hconsume =>
    exact iff_of_false Bool.false_ne_true (not_firstFit_of_consume hconsume hstar).1
  | case6 pat c txt hdouble hstar hconsume p seen hslash =>
    refine iff_of_false Bool.false_ne_true
      (not_or.mpr ⟨(not_firstFit_of_consume hconsume hstar).1, ?_⟩)
    obtain ⟨T, hT⟩ := List.head?_eq_some_iff.mp hslash
    rw [hT, retry_cons_iff]
    exact fun h => h.1 rfl
  | case7 pat c txt hdouble hstar hconsume p seen hslash ih =>
    obtain ⟨hp, X, hX, hseen⟩ := hpassed
    obtain ⟨hhere, hfits⟩ := @not_firstFit_of_consume pat txt c hconsume hstar
    rw [← fits_append hseen, ← hX] at hfits
    cases hT : seen ++ c :: txt with
    | nil => cases List.append_eq_nil_iff.mp hT |>.2
    | cons b T =>
      rw [hT] at ih hslash hfits
      have hb : b ≠ slash := fun hb => hslash (congrArg some hb)
      refine (ih hp ⟨hp, [], rfl, .nil⟩).trans (Iff.trans ?_ (or_iff_right hhere).symm)
      rw [hT, retry_cons_iff, and_iff_right hb, and_iff_right hfits, firstFit_star_iff]
      rfl

end Loop

/-- For every pattern without a double star, the matcher is right about a text exactly if the text
is not in the language, or has a reading in which everything between two stars stands at the first
place where it fits. This is so if the text has no slash, or if nothing but a slash can stand for
an element that a slash can stand for. -/
theorem globMatch_exact_iff {pat : Bytes} (hpat : NoDouble pat) (txt : Bytes) :
    ((globMatch pat txt = true ↔ Lang (elements pat) txt) ↔
        (Lang (elements pat) txt → FirstFit (elements pat) txt)) ∧
      (SlashSafe (elements pat) txt →
        (globMatch pat txt = true ↔ Lang (elements pat) txt)) := by
  have hfirst : globMatch pat txt = true ↔ FirstFit (elements pat) txt :=
    @matchLoop_iff pat txt none _ hpat trivial
  rw [hfirst]
  exact ⟨⟨fun h => h.mpr, fun h => ⟨FirstFit.lang, h⟩⟩,
    fun hsafe => ⟨FirstFit.lang, Lang.firstFit hsafe⟩⟩

/-- The pattern `*[!x]*b`. -/
def notXThenB : Bytes := [star, bracket, 33, 120, 93, star, 98]

theorem elements_notXThenB :
    elements notXThenB =
      [.star, .cls (classAdmits [bracket, 33, 120, 93, star, 98]), .star, .byte 98] := by
  have hlength : classLength [bracket, 33, 120, 93, star, 98] = some 4 := by decide
  have hrest : elements [98] = [.byte 98] := by
    rw [elements, elements]
    rfl
  rw [notXThenB, elements_star, elements, if_neg (by decide), if_neg (by decide), if_pos rfl,
    hlength]
  show .star :: .cls _ :: elements [star, 98] = _
  rw [elements_star, hrest]

theorem noDouble_notXThenB : NoDouble notXThenB := by
  unfold NoDouble
  decide

/-- The first star has to stand for the `x` of `x/b`, which the class does not admit. -/
theorem globMatch_exact_iff_notXThenB :
    Lang (elements notXThenB) [120, slash, 98] ∧ globMatch notXThenB [120, slash, 98] = true := by
  have hfirst : FirstFit (elements notXThenB) [120, slash, 98] := by
    rw [elements_notXThenB]
    refine ⟨[120], [slash, 98], rfl, by decide, ⟨slash, [98], rfl, by decide, [], [98], rfl,
      by decide, ⟨98, [], rfl, rfl, rfl⟩, fun u' v' _ h => absurd h (Nat.not_lt_zero _)⟩, ?_⟩
    intro u' v' heq h
    obtain rfl : u' = [] := List.length_eq_zero_iff.mp (Nat.lt_one_iff.mp h)
    obtain rfl : [120, slash, 98] = v' := heq
    decide
  exact ⟨hfirst.lang,
    ((globMatch_exact_iff noDouble_notXThenB _).1.mpr fun _ => hfirst).mpr hfirst.lang⟩

/-- `*[!x]*b` stands for `a/b`, but the matcher gives up at the slash. -/
theorem globMatch_misses_slash :
    NoDouble notXThenB ∧ Lang (elements notXThenB) [97, slash, 98] ∧
      globMatch notXThenB [97, slash, 98] = false := by
  refine ⟨noDouble_notXThenB, ?_, ?_⟩
  · rw [elements_notXThenB]
    exact ⟨[97], [slash, 98], rfl, by decide, slash, [98], rfl, by decide, [], [98], rfl,
      by decide, 98, [], rfl, rfl, rfl⟩
  · -- Only the second star is remembered when the class has taken the first byte.
    have hrun (inner : Bytes → Bytes → Bool) :
        matchLoop inner notXThenB [97, slash, 98] none = false :=
      calc
        _ = matchLoop inner [bracket, 33, 120, 93, star, 98] [97, slash, 98]
              (some ([bracket, 33, 120, 93, star, 98], [])) := by rw [notXThenB, matchLoop]; rfl
        _ = matchLoop inner [star, 98] [slash, 98]
              (some ([bracket, 33, 120, 93, star, 98], [97])) := by rw [matchLoop]; rfl
        _ = matchLoop inner [98] [slash, 98] (some ([98], [])) := by rw [matchLoop]; rfl
        _ = false := by rw [matchLoop]; rfl
    exact hrun _

end MerlionKernel.Glob
