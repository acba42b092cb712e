import MerlionKernel.Dns.Message
import MerlionKernel.Theory.Walk

/-!
# Which responses are read to an end

The places of a message are parts of names as soon as something points to them. From each
place the walk over a name goes on behind a label, or where a pointer leads; it is over at a
root label, and it breaks off at the end of the message. A walk that comes back to a place
where it has been goes on forever, and so does `parse_dns_response` if it has to step over
such a name. It ends on all other messages, and on every message it reads only bytes that
are there.
-/

namespace MerlionKernel.Dns

open Rust Net Theory Relation

/-! ### The parts of names -/

/-- What can stand at a place of a message, read as a part of a name. -/
inductive Part
  | outside
  | root
  | cut
  | pointer (target : Nat)
  | label (len : Nat)

/-- What stands at the place. -/
def partAt (data : Bytes) (p : Nat) : Part :=
  if data.length ≤ p then .outside
  else
    let len := (byteAt data p).toNat
    if len = 0 then .root
    else if len &&& 0xC0 = 0xC0 then
      if data.length ≤ p + 1 then .cut
      else .pointer ((len &&& 0x3F) <<< 8 ||| (byteAt data (p + 1)).toNat)
    else .label len

/-- Where the walk over a name goes on from a place. -/
def nameHop (data : Bytes) (p : Nat) : Option Nat :=
  match partAt data p with
  | .pointer target => some target
  | .label len => some (p + 1 + len)
  | _ => none

theorem lt_of_partAt {data : Bytes} {p : Nat} (h : partAt data p ≠ .outside) :
    p < data.length := by
  by_contra hout
  exact h (if_pos (Nat.not_lt.mp hout))

/-- The place behind a name that begins at the place: behind its first pointer, or behind
the root label. -/
def nameEnd (data : Bytes) (p : Nat) : Option Nat :=
  match hpart : partAt data p with
  | .root => some (p + 1)
  | .pointer _ => some (p + 2)
  | .label len => nameEnd data (p + 1 + len)
  | _ => none
  termination_by data.length - p
  decreasing_by
    have hlt : p < data.length := lt_of_partAt (by rw [hpart]; nofun)
    omega

/-- The walk over the name at the place comes to a root label. -/
def Complete (data : Bytes) (p : Nat) : Prop :=
  ∃ q, ReflTransGen (Follows (nameHop data)) p q ∧ partAt data q = .root

section Parts

variable {data : Bytes} {p q len : Nat}

theorem complete_iff_of_hop (h : nameHop data p = some q) :
    Complete data p ↔ Complete data q := by
  constructor
  · rintro ⟨r, hreach, hroot⟩
    rcases ReflTransGen.cases_head hreach with rfl | ⟨q', hstep, hrest⟩
    · simp [nameHop, hroot] at h
    · rw [Follows.eq h hstep]
      exact ⟨r, hrest, hroot⟩
  · rintro ⟨r, hreach, hroot⟩
    exact ⟨r, .head h hreach, hroot⟩

theorem complete_iff_root (h : nameHop data p = none) :
    Complete data p ↔ partAt data p = .root := by
  constructor
  · rintro ⟨r, hreach, hroot⟩
    rcases ReflTransGen.cases_head hreach with rfl | ⟨q, hstep, -⟩
    · exact hroot
    · cases h.symm.trans hstep
  · exact fun hroot => ⟨p, .refl, hroot⟩

theorem nameEnd_of_root (h : partAt data p = .root) : nameEnd data p = some (p + 1) := by
  rw [nameEnd]
  split <;> simp_all

theorem nameEnd_of_pointer (h : partAt data p = .pointer q) : nameEnd data p = some (p + 2) := by
  rw [nameEnd]
  split <;> simp_all

theorem nameEnd_of_label (h : partAt data p = .label len) :
    nameEnd data p = nameEnd data (p + 1 + len) := by
  rw [nameEnd]
  split <;> simp_all

end Parts

/-! ### Stepping over a name -/

section Skip

variable {data : Bytes} {rounds p : Nat} {s : SkipState}

/-- What a round of `skip_dns_name` does, by the part that it finds. -/
theorem skipRound_eq (data : Bytes) (s : SkipState) :
    skipRound data s = .ok (match partAt data s.offset with
      | .outside | .cut => .stop none
      | .root => .stop (some (if s.jumped then s.endOffset else s.offset + 1))
      | .pointer target =>
        .again ⟨target, true, if s.jumped then s.endOffset else s.offset + 2⟩
      | .label len => .again { s with offset := s.offset + 1 + len }) := by
  unfold skipRound partAt
  by_cases hout : data.length ≤ s.offset
  · rw [if_pos hout, if_pos hout]
    rfl
  rw [if_neg hout, if_neg hout, index_byteAt (Nat.not_le.mp hout), ok_bind]
  dsimp only
  by_cases hroot : (byteAt data s.offset).toNat = 0
  · rw [if_pos hroot, if_pos hroot]
    rfl
  rw [if_neg hroot, if_neg hroot]
  by_cases hpointer : (byteAt data s.offset).toNat &&& 0xC0 = 0xC0
  · rw [if_pos hpointer, if_pos hpointer]
    by_cases hcut : data.length ≤ s.offset + 1
    · rw [if_pos hcut, if_pos hcut]
      rfl
    · rw [if_neg hcut, if_neg hcut, index_byteAt (Nat.not_le.mp hcut)]
      rfl
  · rw [if_neg hpointer, if_neg hpointer]
    rfl

/-- What the loop of `skip_dns_name` has established about the name at `p`. -/
structure Skipped (data : Bytes) (p : Nat) (s : SkipState) : Prop where
  circles : Circles (nameHop data) p ↔ Circles (nameHop data) s.offset
  complete : Complete data p ↔ Complete data s.offset
  nameEnd : if s.jumped then nameEnd data p = some s.endOffset
    else nameEnd data p = nameEnd data s.offset

theorem skipped_start (data : Bytes) (p : Nat) : Skipped data p ⟨p, false, 0⟩ :=
  ⟨.rfl, .rfl, rfl⟩

theorem Skipped.pointer (h : Skipped data p s) {target : Nat}
    (hpart : partAt data s.offset = .pointer target) :
    Skipped data p ⟨target, true, if s.jumped then s.endOffset else s.offset + 2⟩ := by
  have hhop : nameHop data s.offset = some target := by simp [nameHop, hpart]
  refine ⟨h.circles.trans (circles_iff_of_follows hhop),
    h.complete.trans (complete_iff_of_hop hhop), ?_⟩
  have hend := h.nameEnd
  rw [if_pos rfl]
  cases hjumped : s.jumped with
  | true => simpa [hjumped] using hend
  | false => simpa [hjumped, nameEnd_of_pointer hpart] using hend

theorem Skipped.label (h : Skipped data p s) {len : Nat}
    (hpart : partAt data s.offset = .label len) :
    Skipped data p { s with offset := s.offset + 1 + len } := by
  have hhop : nameHop data s.offset = some (s.offset + 1 + len) := by simp [nameHop, hpart]
  refine ⟨h.circles.trans (circles_iff_of_follows hhop),
    h.complete.trans (complete_iff_of_hop hhop), ?_⟩
  have hend := h.nameEnd
  rwa [nameEnd_of_label hpart] at hend

/-- The invariant of the loop. -/
theorem Skipped.again {s' : SkipState} (h : Skipped data p s)
    (hround : skipRound data s = .ok (.again s')) : Skipped data p s' := by
  rw [skipRound_eq] at hround
  cases hpart : partAt data s.offset with
  | outside => simp [hpart] at hround
  | root => simp [hpart] at hround
  | cut => simp [hpart] at hround
  | pointer target =>
    simp only [hpart, Except.ok.injEq, ControlFlow.again.injEq] at hround
    exact hround ▸ h.pointer hpart
  | label len =>
    simp only [hpart, Except.ok.injEq, ControlFlow.again.injEq] at hround
    exact hround ▸ h.label hpart

/-- A name that has been stepped over: its walk does not circle, and if it has come to a
root label, what follows is behind the name. -/
def SteppedOver (data : Bytes) (p : Nat) (behind : Option Nat) : Prop :=
  ¬ Circles (nameHop data) p ∧
    ∀ e, behind = some e ↔ Complete data p ∧ nameEnd data p = some e

theorem Skipped.stop {behind : Option Nat} (h : Skipped data p s)
    (hround : skipRound data s = .ok (.stop behind)) : SteppedOver data p behind := by
  rw [skipRound_eq] at hround
  have hbroken : ∀ part, partAt data s.offset = part → part ≠ .root →
      nameHop data s.offset = none → SteppedOver data p none := by
    intro part hpart hne hhop
    refine ⟨fun hcircles => not_circles_of_none hhop (h.circles.mp hcircles), fun e => ?_⟩
    have hnot : ¬ Complete data p := fun hcomplete =>
      hne (hpart ▸ (complete_iff_root hhop).mp (h.complete.mp hcomplete))
    simp [hnot]
  cases hpart : partAt data s.offset with
  | outside =>
    simp only [hpart, Except.ok.injEq, ControlFlow.stop.injEq] at hround
    exact hround ▸ hbroken _ hpart nofun (by simp [nameHop, hpart])
  | cut =>
    simp only [hpart, Except.ok.injEq, ControlFlow.stop.injEq] at hround
    exact hround ▸ hbroken _ hpart nofun (by simp [nameHop, hpart])
  | root =>
    have hhop : nameHop data s.offset = none := by simp [nameHop, hpart]
    simp only [hpart, Except.ok.injEq, ControlFlow.stop.injEq] at hround
    refine ⟨fun hcircles => not_circles_of_none hhop (h.circles.mp hcircles), fun e => ?_⟩
    have hcomplete : Complete data p := h.complete.mpr ((complete_iff_root hhop).mpr hpart)
    have hend := h.nameEnd
    rw [nameEnd_of_root hpart] at hend
    cases hjumped : s.jumped with
    | true => simp_all
    | false => simp_all
  | pointer target => simp [hpart] at hround
  | label len => simp [hpart] at hround

/-- What `skip_dns_name` has done when it returns. -/
theorem skipDnsName_spec {behind : Option Nat}
    (hskip : skipDnsName rounds data p = .ok behind) : SteppedOver data p behind :=
  loop_invariant (Skipped data p) (fun _ _ h => h.again) (fun _ _ h => h.stop)
    (skipped_start data p) hskip

/-- With a round for every byte and one more, `skip_dns_name` returns unless the walk over
the name circles. -/
theorem skipDnsName_returns (hp : ¬ Circles (nameHop data) p) (hrounds : data.length < rounds) :
    Returns (skipDnsName rounds data p) (SteppedOver data p) := by
  -- The places that are ahead of the walk become fewer.
  have hloop : Returns (skipDnsName rounds data p) fun _ => True := by
    refine loop_returns (fun s => ¬ Circles (nameHop data) s.offset)
      (fun s => (ahead (Finset.range data.length) (nameHop data) s.offset).card)
      (fun s hs => ?_) hp ?_
    · rw [skipRound_eq]
      have hgo : ∀ q, nameHop data s.offset = some q → ¬ Circles (nameHop data) q ∧
          (ahead (Finset.range data.length) (nameHop data) q).card <
            (ahead (Finset.range data.length) (nameHop data) s.offset).card := by
        intro q hq
        have hplace : s.offset ∈ Finset.range data.length := by
          refine Finset.mem_range.mpr (lt_of_partAt fun hout => ?_)
          simp [nameHop, hout] at hq
        exact ⟨fun hcircles => hs (.of_follows hq hcircles), card_ahead_lt hplace hq hs⟩
      cases hpart : partAt data s.offset with
      | outside => exact .ok trivial
      | cut => exact .ok trivial
      | root => exact .ok trivial
      | pointer target => exact .ok (hgo target (by simp [nameHop, hpart]))
      | label len => exact .ok (hgo _ (by simp [nameHop, hpart]))
    · calc (ahead (Finset.range data.length) (nameHop data) p).card
          ≤ (Finset.range data.length).card := card_ahead_le _ _ p
        _ = data.length := Finset.card_range _
        _ < rounds := hrounds
  obtain ⟨behind, hskip, -⟩ := hloop
  exact ⟨behind, hskip, skipDnsName_spec hskip⟩

theorem noPanic_skipDnsName : NoPanic (skipDnsName rounds data p) :=
  noPanic_loop (fun s => skipRound_eq data s ▸ .ok _) _ _

end Skip

/-! ### The names of a message -/

/-- The number in the two bytes at an offset. -/
def word (data : Bytes) (offset : Nat) : Nat :=
  (byteAt data offset).toNat <<< 8 ||| (byteAt data (offset + 1)).toNat

theorem word_drop (data : Bytes) (lo offset : Nat) :
    word (data.drop lo) offset = word data (lo + offset) := by
  simp [word, byteAt, List.getD_eq_getElem?_getD, Nat.add_assoc]

/-- The record behind a name that ends at `e` holds an IPv4 address. -/
def HoldsAddress (data : Bytes) (e : Nat) : Prop :=
  word data e = dnsTypeA ∧ word data (e + 8) = 4

instance (data : Bytes) (e : Nat) : Decidable (HoldsAddress data e) :=
  inferInstanceAs (Decidable (_ ∧ _))

/-- How far a message has been read: the questions and answers that are to come, and where
the name of the next one stands. -/
structure Cursor where
  questions : Nat
  answers : Nat
  place : Nat

/-- The next name stands behind the record of the one before, if that one is complete and its
record is inside the message and is not an answer with an address. -/
inductive NextName (data : Bytes) : Cursor → Cursor → Prop
  | question {questions answers p e : Nat} (hname : Complete data p)
    (hend : nameEnd data p = some e) (hinside : e + 4 ≤ data.length) :
    NextName data ⟨questions + 1, answers, p⟩ ⟨questions, answers, e + 4⟩
  | answer {answers p e : Nat} (hname : Complete data p) (hend : nameEnd data p = some e)
    (hinside : e + 10 + word data (e + 8) ≤ data.length) (hother : ¬ HoldsAddress data e) :
    NextName data ⟨0, answers + 1, p⟩ ⟨0, answers, e + 10 + word data (e + 8)⟩

/-- From the cursor on, one of the names stands at the place. -/
def NameFrom (data : Bytes) (c : Cursor) (q : Nat) : Prop :=
  ∃ c', ReflTransGen (NextName data) c c' ∧ c'.questions + c'.answers ≠ 0 ∧ c'.place = q

/-- From the cursor on, one of the answers holds the address. -/
def AddressFrom (data : Bytes) (c : Cursor) (ip : Ipv4Addr) : Prop :=
  ∃ answers p e, ReflTransGen (NextName data) c ⟨0, answers + 1, p⟩ ∧ Complete data p ∧
    nameEnd data p = some e ∧ HoldsAddress data e ∧ e + 14 ≤ data.length ∧
    window data (e + 10) 4 = ip.octets

/-- The header is that of a response without an error and with answers. -/
def HasAnswers (data : Bytes) : Prop :=
  dnsHeaderLen ≤ data.length ∧ word data 2 &&& 0x8000 ≠ 0 ∧ word data 2 &&& 0x000F = 0 ∧
    word data 6 ≠ 0

instance (data : Bytes) : Decidable (HasAnswers data) := inferInstanceAs (Decidable (_ ∧ _))

/-- The cursor behind the header. -/
def bodyCursor (data : Bytes) : Cursor := ⟨word data 4, word data 6, dnsHeaderLen⟩

/-- In a response with answers, one of the names stands at the place. -/
def StandsAt (data : Bytes) (p : Nat) : Prop :=
  HasAnswers data ∧ NameFrom data (bodyCursor data) p

/-- In a response with answers, one of them holds the address. -/
def AddressIn (data : Bytes) (ip : Ipv4Addr) : Prop :=
  HasAnswers data ∧ AddressFrom data (bodyCursor data) ip

theorem getU16_eq_ok {data : Bytes} {offset : Nat} (h : offset + 2 ≤ data.length) :
    getU16 data offset = .ok (word data offset) := by
  rw [getU16, index_byteAt (by omega), ok_bind, index_byteAt (by omega), ok_bind]
  rfl

section Cursors

variable {data : Bytes} {c c' : Cursor} {n answers p q : Nat} {ip : Ipv4Addr}

theorem NameFrom.of_next (h : NextName data c c') (hname : NameFrom data c' q) :
    NameFrom data c q := by
  obtain ⟨c'', hreach, hmore, hplace⟩ := hname
  exact ⟨c'', .head h hreach, hmore, hplace⟩

theorem AddressFrom.of_next (h : NextName data c c') (haddress : AddressFrom data c' ip) :
    AddressFrom data c ip := by
  obtain ⟨answers, p, e, hreach, hrest⟩ := haddress
  exact ⟨answers, p, e, .head h hreach, hrest⟩

theorem nameFrom_here (h : n + answers ≠ 0) : NameFrom data ⟨n, answers, p⟩ p :=
  ⟨_, .refl, h, rfl⟩

theorem NameFrom.cases (h : NameFrom data c q) :
    (c.questions + c.answers ≠ 0 ∧ c.place = q) ∨
      ∃ c', NextName data c c' ∧ NameFrom data c' q := by
  obtain ⟨c'', hreach, hmore, hplace⟩ := h
  rcases ReflTransGen.cases_head hreach with rfl | ⟨c', hnext, hrest⟩
  · exact .inl ⟨hmore, hplace⟩
  · exact .inr ⟨c', hnext, c'', hrest, hmore, hplace⟩

end Cursors

/-! ### Questions -/

section Sections

variable {data : Bytes} {rounds n answers p q : Nat}

theorem skipQuestions_returns (hrounds : data.length < rounds)
    (hnames : ∀ q, NameFrom data ⟨n, answers, p⟩ q → ¬ Circles (nameHop data) q) :
    Returns (skipQuestions rounds data n p) fun _ => True := by
  induction n generalizing p with
  | zero => exact .ok trivial
  | succ n ih =>
    refine (skipDnsName_returns (hnames p (nameFrom_here (by omega))) hrounds).bind
      fun behind hbehind => ?_
    cases behind with
    | none => exact .ok trivial
    | some e =>
      obtain ⟨hname, hend⟩ := (hbehind.2 e).mp rfl
      dsimp only
      split_ifs with hcut
      · exact .ok trivial
      · refine ih fun q hq => hnames q ?_
        exact .of_next (.question hname hend (Nat.not_lt.mp hcut)) hq

/-- When the questions have been stepped over, none of their names circles, and the answers
are read from the cursor behind them. -/
theorem skipQuestions_spec {behind : Option Nat}
    (hskip : skipQuestions rounds data n p = .ok behind) (answers : Nat) :
    (∀ q, NameFrom data ⟨n, answers, p⟩ q →
      ¬ Circles (nameHop data) q ∨ ∃ p', behind = some p' ∧ NameFrom data ⟨0, answers, p'⟩ q) ∧
    ∀ p', behind = some p' → ReflTransGen (NextName data) ⟨n, answers, p⟩ ⟨0, answers, p'⟩ := by
  induction n generalizing p with
  | zero =>
    obtain rfl : some p = behind := Except.ok.inj hskip
    refine ⟨fun q hq => .inr ⟨p, rfl, hq⟩, fun p' hp' => ?_⟩
    rw [Option.some.inj hp']
  | succ n ih =>
    obtain ⟨first, hfirst, hrest⟩ := bind_eq_ok_iff.mp hskip
    obtain ⟨hcircles, hend⟩ := skipDnsName_spec hfirst
    refine ⟨fun q hq => ?_, fun p' hp' => ?_⟩
    · rcases hq.cases with ⟨-, hplace⟩ | ⟨c', hnext, hq⟩
      · exact .inl (hplace ▸ hcircles)
      · cases hnext with
        | @question _ _ _ e hname hbehind hinside =>
          rw [(hend e).mpr ⟨hname, hbehind⟩] at hrest
          dsimp only at hrest
          rw [if_neg (Nat.not_lt.mpr hinside)] at hrest
          exact (ih hrest).1 q hq
    · subst hp'
      cases first with
      | none => cases hrest
      | some e =>
        obtain ⟨hname, hbehind⟩ := (hend e).mp rfl
        dsimp only at hrest
        split_ifs at hrest with hcut
        · cases hrest
        · exact .head (.question hname hbehind (Nat.not_lt.mp hcut)) ((ih hrest).2 p' rfl)

theorem noPanic_skipQuestions : NoPanic (skipQuestions rounds data n p) := by
  induction n generalizing p with
  | zero => exact .ok _
  | succ n ih =>
    refine noPanic_skipDnsName.bind fun behind => ?_
    cases behind with
    | none => exact .ok _
    | some e =>
      dsimp only
      split_ifs
      · exact .ok _
      · exact ih

/-! ### Answers -/

/-- One answer, read behind its name. -/
theorem findAddress_succ (rounds : Nat) (data : Bytes) (n p : Nat) :
    findAddress rounds data (n + 1) p = skipDnsName rounds data p >>= fun behind =>
      match behind with
      | none => .ok none
      | some e =>
        if data.length < e + 10 then .ok none
        else if data.length < e + 10 + word data (e + 8) then .ok none
        else if HoldsAddress data e then
          Ipv4Addr.read data (e + 10) >>= fun ip => .ok (some ip)
        else findAddress rounds data n (e + 10 + word data (e + 8)) := by
  rw [findAddress]
  congr 1
  funext behind
  cases behind with
  | none => rfl
  | some e =>
    by_cases hcut : data.length < e + 10
    · simp only [if_pos hcut]
      rfl
    · simp only [if_neg hcut]
      rw [getU16_eq_ok (by omega), ok_bind, getU16_eq_ok (by omega), ok_bind]
      rfl

theorem findAddress_returns (hrounds : data.length < rounds)
    (hnames : ∀ q, NameFrom data ⟨0, n, p⟩ q → ¬ Circles (nameHop data) q) :
    Returns (findAddress rounds data n p) fun _ => True := by
  induction n generalizing p with
  | zero => exact .ok trivial
  | succ n ih =>
    rw [findAddress_succ]
    refine (skipDnsName_returns (hnames p (nameFrom_here (by omega))) hrounds).bind
      fun behind hbehind => ?_
    cases behind with
    | none => exact .ok trivial
    | some e =>
      obtain ⟨hname, hend⟩ := (hbehind.2 e).mp rfl
      dsimp only
      split_ifs with hcut hlong haddress
      · exact .ok trivial
      · exact .ok trivial
      · have hinside : e + 10 + 4 ≤ data.length := haddress.2 ▸ Nat.not_lt.mp hlong
        exact (Ipv4Addr.read_returns hinside).bind fun _ _ => .ok trivial
      · refine ih fun q hq => hnames q ?_
        exact .of_next (.answer hname hend (Nat.not_lt.mp hlong) haddress) hq

/-- When the answers have been read, no name that was come to circles, and an address that
was found is in one of them. -/
theorem findAddress_spec {found : Option Ipv4Addr}
    (hfind : findAddress rounds data n p = .ok found) :
    (∀ q, NameFrom data ⟨0, n, p⟩ q → ¬ Circles (nameHop data) q) ∧
      ∀ ip, found = some ip → AddressFrom data ⟨0, n, p⟩ ip := by
  induction n generalizing p with
  | zero =>
    obtain rfl : none = found := Except.ok.inj hfind
    refine ⟨fun q hq => ?_, nofun⟩
    rcases hq.cases with ⟨hmore, -⟩ | ⟨c', hnext, -⟩
    · exact absurd rfl hmore
    · cases hnext
  | succ n ih =>
    rw [findAddress_succ] at hfind
    obtain ⟨first, hfirst, hrest⟩ := bind_eq_ok_iff.mp hfind
    obtain ⟨hcircles, hend⟩ := skipDnsName_spec hfirst
    refine ⟨fun q hq => ?_, fun ip hip => ?_⟩
    · rcases hq.cases with ⟨-, hplace⟩ | ⟨c', hnext, hq⟩
      · exact hplace ▸ hcircles
      · cases hnext with
        | @answer _ _ e hname hbehind hinside hother =>
          rw [(hend e).mpr ⟨hname, hbehind⟩] at hrest
          dsimp only at hrest
          rw [if_neg (by omega), if_neg (Nat.not_lt.mpr hinside), if_neg hother] at hrest
          exact (ih hrest).1 q hq
    · subst hip
      cases first with
      | none => cases hrest
      | some e =>
        obtain ⟨hname, hbehind⟩ := (hend e).mp rfl
        dsimp only at hrest
        split_ifs at hrest with hcut hlong haddress
        · cases hrest
        · cases hrest
        · have hinside : e + 10 + 4 ≤ data.length := haddress.2 ▸ Nat.not_lt.mp hlong
          obtain ⟨ip', hread, hfound⟩ := bind_eq_ok_iff.mp hrest
          cases hfound
          exact ⟨n, p, e, .refl, hname, hbehind, haddress, hinside,
            Ipv4Addr.window_of_read hread⟩
        · have haddressed := (ih hrest).2 ip rfl
          exact .of_next (.answer hname hbehind (Nat.not_lt.mp hlong) haddress) haddressed

theorem noPanic_findAddress : NoPanic (findAddress rounds data n p) := by
  induction n generalizing p with
  | zero => exact .ok _
  | succ n ih =>
    rw [findAddress_succ]
    refine noPanic_skipDnsName.bind fun behind => ?_
    cases behind with
    | none => exact .ok _
    | some e =>
      dsimp only
      split_ifs with hcut hlong haddress
      · exact .ok _
      · exact .ok _
      · have hinside : e + 10 + 4 ≤ data.length := haddress.2 ▸ Nat.not_lt.mp hlong
        obtain ⟨ip, hread, -⟩ := Ipv4Addr.read_returns hinside
        rw [hread]
        exact .ok _
      · exact ih

end Sections

/-! ### Messages -/

section Messages

variable {data : Bytes}

/-- Without answers to read, the reader looks at the header only. -/
theorem parseDnsResponseWithin_eq (rounds : Nat) (data : Bytes) :
    parseDnsResponseWithin rounds data =
      if HasAnswers data then
        skipQuestions rounds data (word data 4) dnsHeaderLen >>= fun behind =>
          match behind with
          | none => .ok none
          | some p => findAddress rounds data (word data 6) p
      else .ok none := by
  unfold parseDnsResponseWithin
  by_cases hshort : data.length < dnsHeaderLen
  · rw [if_pos hshort, if_neg fun h : HasAnswers data => absurd h.1 (Nat.not_le.mpr hshort)]
    rfl
  have hlen : dnsHeaderLen ≤ data.length := Nat.not_lt.mp hshort
  have hwords : 12 ≤ data.length := hlen
  rw [if_neg hshort, getU16_eq_ok (by omega), ok_bind]
  by_cases hquery : word data 2 &&& 0x8000 = 0
  · rw [if_pos hquery, if_neg fun h : HasAnswers data => h.2.1 hquery]
    rfl
  by_cases hcode : word data 2 &&& 0x000F = 0
  · rw [if_neg hquery, if_neg (not_not_intro hcode), getU16_eq_ok (by omega), ok_bind,
      getU16_eq_ok (by omega), ok_bind]
    by_cases hnone : word data 6 = 0
    · rw [if_pos hnone, if_neg fun h : HasAnswers data => h.2.2.2 hnone]
      rfl
    · rw [if_neg hnone, if_pos (show HasAnswers data from ⟨hlen, hquery, hcode, hnone⟩)]
      rfl
  · rw [if_neg hquery, if_pos hcode, if_neg fun h : HasAnswers data => hcode h.2.2.1]
    rfl

/-- What the reader has done when it returns. -/
theorem parseDnsResponseWithin_spec {rounds : Nat} {found : Option Ipv4Addr}
    (hparse : parseDnsResponseWithin rounds data = .ok found) :
    (∀ p, StandsAt data p → ¬ Circles (nameHop data) p) ∧
      ∀ ip, found = some ip → AddressIn data ip := by
  rw [parseDnsResponseWithin_eq] at hparse
  by_cases hanswers : HasAnswers data
  · rw [if_pos hanswers] at hparse
    obtain ⟨behind, hskip, hfind⟩ := bind_eq_ok_iff.mp hparse
    obtain ⟨hnames, hreach⟩ := skipQuestions_spec hskip (word data 6)
    refine ⟨fun p hp => ?_, fun ip hip => ⟨hanswers, ?_⟩⟩
    · rcases hnames p hp.2 with hcircles | ⟨p', rfl, hname⟩
      · exact hcircles
      · exact (findAddress_spec hfind).1 p hname
    · subst hip
      cases behind with
      | none => cases hfind
      | some p' =>
        obtain ⟨answers, p, e, hrest, haddress⟩ := (findAddress_spec hfind).2 ip rfl
        exact ⟨answers, p, e, (hreach p' rfl).trans hrest, haddress⟩
  · rw [if_neg hanswers] at hparse
    obtain rfl : none = found := Except.ok.inj hparse
    exact ⟨fun p hp => absurd hp.1 hanswers, nofun⟩

/-- With a round for every byte and one more for each name, the reader returns unless it
comes to a name that circles. -/
theorem parseDnsResponseWithin_returns {rounds : Nat} (hrounds : data.length < rounds)
    (hnames : ∀ p, StandsAt data p → ¬ Circles (nameHop data) p) :
    Returns (parseDnsResponseWithin rounds data) fun _ => True := by
  rw [parseDnsResponseWithin_eq]
  split_ifs with hanswers
  · obtain ⟨behind, hskip, -⟩ :=
      skipQuestions_returns hrounds fun q hq => hnames q ⟨hanswers, hq⟩
    obtain ⟨-, hreach⟩ := skipQuestions_spec hskip (word data 6)
    rw [hskip, ok_bind]
    cases behind with
    | none => exact .ok trivial
    | some p =>
      refine findAddress_returns hrounds fun q hq => ?_
      obtain ⟨c', hrest, hmore, hplace⟩ := hq
      exact hnames q ⟨hanswers, c', (hreach p rfl).trans hrest, hmore, hplace⟩
  · exact .ok trivial

/-- However long the reader is watched, it has returned or it is still walking: no byte
outside the message is read. -/
theorem noPanic_parseDnsResponseWithin (rounds : Nat) (data : Bytes) :
    NoPanic (parseDnsResponseWithin rounds data) := by
  rw [parseDnsResponseWithin_eq]
  split_ifs
  · refine noPanic_skipQuestions.bind fun behind => ?_
    cases behind with
    | none => exact .ok _
    | some p => exact noPanic_findAddress
  · exact .ok _

end Messages

/-- A message is read to an end exactly if none of its names that the reader comes to leads
back, by labels and pointers, to a place where it has been. -/
theorem parseDnsResponse_terminates_iff (data : Bytes) :
    (∃ rounds answer, parseDnsResponseWithin rounds data = .ok answer) ↔
      ∀ p, StandsAt data p → ¬ Circles (nameHop data) p := by
  constructor
  · rintro ⟨rounds, answer, hparse⟩ p hname
    exact (parseDnsResponseWithin_spec hparse).1 p hname
  · intro hnames
    obtain ⟨answer, hparse, -⟩ := parseDnsResponseWithin_returns (Nat.lt_succ_self _) hnames
    exact ⟨data.length + 1, answer, hparse⟩

/-- A response of 14 bytes: a header that announces one answer, and a pointer to itself. -/
def selfPointer : Bytes := [0x4D, 0x4E, 0x80, 0, 0, 0, 0, 1, 0, 0, 0, 0, 0xC0, 12]

/-- The walk over the name of `selfPointer` goes round and round. -/
theorem parseDnsResponse_loops :
    ¬ ∃ rounds answer, parseDnsResponseWithin rounds selfPointer = .ok answer := by
  rintro ⟨rounds, answer, hparse⟩
  have hround : skipRound selfPointer ⟨12, true, 14⟩ = .ok (.again ⟨12, true, 14⟩) := rfl
  have hloop : ∀ n, loop (skipRound selfPointer) n ⟨12, true, 14⟩ = .error .diverge := by
    intro n
    induction n with
    | zero => rfl
    | succ n ih => rw [loop_again hround, ih]
  have hskip : skipDnsName rounds selfPointer 12 = .error .diverge := by
    cases rounds with
    | zero => rfl
    | succ n => exact hloop n
  have hquestions : skipQuestions rounds selfPointer (word selfPointer 4) dnsHeaderLen =
      .ok (some 12) := rfl
  have hfind : findAddress rounds selfPointer 1 12 = .error .diverge := by
    rw [findAddress_succ, hskip, error_bind]
  rw [parseDnsResponseWithin_eq, if_pos (by decide), hquestions] at hparse
  cases hfind.symm.trans hparse

end MerlionKernel.Dns
