import MerlionKernel.Dns.Client
import MerlionKernel.Dns.Names
import MerlionKernel.Theory.Run

/-!
# Whose answers the client takes

An answer belongs to a query if it carries the number of the query, repeats its question and
comes from the server that was asked. The client looks at none of these. It returns an
address from an answer to its query exactly if the first datagram from port 53 in which it
can find an address is one; the cache holds only such addresses as long as this is so in
every lookup that it does not answer itself.
-/

namespace MerlionKernel.Dns

open Rust Net Theory

/-! ### Frames -/

/-- The length of the header of an IP packet. -/
def ipHeaderLen (packet : Bytes) : Nat := ((byteAt packet 0).toNat &&& 0x0F) * 4

/-- The IP packet holds a UDP datagram from port 53. -/
def IsDnsPacket (packet : Bytes) : Prop :=
  20 ≤ packet.length ∧ byteAt packet 9 = 17 ∧ ipHeaderLen packet + 8 ≤ packet.length ∧
    word packet (ipHeaderLen packet) = dnsPort

instance (packet : Bytes) : Decidable (IsDnsPacket packet) := inferInstanceAs (Decidable (_ ∧ _))

/-- The frame holds an IP packet. -/
def IsIpFrame (raw : Bytes) : Prop := ethHeaderLen ≤ raw.length ∧ word raw 12 = ethTypeIp

instance (raw : Bytes) : Decidable (IsIpFrame raw) := inferInstanceAs (Decidable (_ ∧ _))

/-- The payload of a UDP datagram from port 53 in a frame. -/
def dnsPayload (raw : Bytes) : Option Bytes :=
  let packet := raw.drop ethHeaderLen
  if IsIpFrame raw ∧ IsDnsPacket packet then some (packet.drop (ipHeaderLen packet + 8)) else none

/-- The source address of the IP packet in a frame. -/
def sourceAddress (raw : Bytes) : Bytes := window (raw.drop ethHeaderLen) 12 4

/-- The frame comes from the server that is asked, and the response in it carries the number
of the query for the host name and repeats its question. -/
structure Belongs (net : Network) (hostname : String) (raw response : Bytes) : Prop where
  id : window response 0 2 = window (buildDnsQuery hostname) 0 2
  count : word response 4 = 1
  question : (buildDnsQuery hostname).drop dnsHeaderLen <+: response.drop dnsHeaderLen
  server : sourceAddress raw = (dnsServerIp net).octets

section Frames

/-- What the client finds in an IP packet. -/
theorem frameAnswer_ip (packet : Bytes) :
    frameAnswer ⟨ethTypeIp, packet⟩ =
      if IsDnsPacket packet then parseDnsResponse (packet.drop (ipHeaderLen packet + 8))
      else .ok none := by
  unfold frameAnswer
  dsimp only
  rw [if_neg (not_not_intro rfl)]
  by_cases hshort : packet.length < 20
  · rw [if_pos hshort, if_neg fun h : IsDnsPacket packet => absurd h.1 (Nat.not_le.mpr hshort)]
    rfl
  rw [if_neg hshort, index_byteAt (by omega), ok_bind]
  by_cases hudp : byteAt packet 9 = 17
  · have hihl : ((byteAt packet 0).toNat &&& 0x0F) * 4 = ipHeaderLen packet := rfl
    rw [if_neg (not_not_intro hudp), index_byteAt (by omega), ok_bind, hihl]
    by_cases hcut : packet.length < ipHeaderLen packet + 8
    · rw [if_pos hcut,
        if_neg fun h : IsDnsPacket packet => absurd h.2.2.1 (Nat.not_le.mpr hcut)]
      rfl
    · have hlength : 8 ≤ (packet.drop (ipHeaderLen packet)).length := by
        rw [List.length_drop]
        omega
      rw [if_neg hcut, slice_to_end (by omega), ok_bind, getU16_eq_ok (by omega), ok_bind,
        word_drop, Nat.add_zero]
      by_cases hport : word packet (ipHeaderLen packet) = dnsPort
      · have hpacket : IsDnsPacket packet :=
          ⟨Nat.not_lt.mp hshort, hudp, Nat.not_lt.mp hcut, hport⟩
        rw [if_neg (not_not_intro hport), if_pos hpacket, slice_to_end hlength, ok_bind,
          List.drop_drop]
      · rw [if_pos hport, if_neg fun h : IsDnsPacket packet => hport h.2.2.2]
        rfl
  · rw [if_pos hudp, if_neg fun h : IsDnsPacket packet => hudp h.2.1]
    rfl

/-- What a round of the polling loop finds. -/
theorem pollRound_eq (delivered : Option Bytes) :
    pollRound delivered =
      match delivered.bind dnsPayload with
      | none => .ok none
      | some response => parseDnsResponse response := by
  cases delivered with
  | none => rfl
  | some raw =>
    rw [Option.bind_some, dnsPayload, pollRound, pollRx]
    by_cases hframe : IsIpFrame raw
    · rw [if_neg (Nat.not_lt.mpr hframe.1), getU16_eq_ok hframe.1, ok_bind,
        slice_to_end hframe.1, ok_bind, hframe.2, pure_eq_ok, ok_bind]
      dsimp only
      rw [frameAnswer_ip]
      by_cases hpacket : IsDnsPacket (raw.drop ethHeaderLen)
      · rw [if_pos hpacket, if_pos ⟨hframe, hpacket⟩]
      · rw [if_neg hpacket, if_neg fun h => hpacket h.2]
    · rw [if_neg fun h : IsIpFrame raw ∧ _ => hframe h.1]
      by_cases hshort : raw.length < ethHeaderLen
      · rw [if_pos hshort]
        rfl
      · have hlong : ethHeaderLen ≤ raw.length := Nat.not_lt.mp hshort
        have htype : word raw 12 ≠ ethTypeIp := fun h => hframe ⟨hlong, h⟩
        rw [if_neg hshort, getU16_eq_ok hlong, ok_bind, slice_to_end hlong, ok_bind,
          pure_eq_ok, ok_bind]
        dsimp only
        rw [frameAnswer, if_pos htype]
        rfl

end Frames

/-! ### Polling -/

/-- The client finds no address in what is delivered, and goes on. -/
def Silent (delivered : Option Bytes) : Prop :=
  ∀ response, delivered.bind dnsPayload = some response → parseDnsResponse response = .ok none

/-- The frame holds a response in which the client finds the address. -/
def Tells (raw response : Bytes) (ip : Ipv4Addr) : Prop :=
  dnsPayload raw = some response ∧ parseDnsResponse response = .ok (some ip)

section Polling

theorem pollRound_eq_none_iff {delivered : Option Bytes} :
    pollRound delivered = .ok none ↔ Silent delivered := by
  rw [pollRound_eq, Silent]
  cases delivered.bind dnsPayload with
  | none => simp
  | some response => simp

theorem pollRound_eq_some_iff {delivered : Option Bytes} {ip : Ipv4Addr} :
    pollRound delivered = .ok (some ip) ↔
      ∃ raw response, delivered = some raw ∧ Tells raw response ip := by
  rw [pollRound_eq]
  cases delivered with
  | none => simp
  | some raw =>
    rw [Option.bind_some]
    unfold Tells
    cases hpayload : dnsPayload raw with
    | none => simp [hpayload]
    | some response => simp [hpayload]

/-- The polling loop returns what the first delivery tells that is not silent. -/
theorem pollAnswer_eq_ok_iff {rounds : Nat} {deliveries rest : List (Option Bytes)}
    {ip : Ipv4Addr} :
    pollAnswer rounds deliveries = .ok (.ok ip, rest) ↔
      ∃ before raw response, deliveries = before ++ some raw :: rest ∧ before.length < rounds ∧
        (∀ delivered ∈ before, Silent delivered) ∧ Tells raw response ip := by
  induction rounds generalizing deliveries with
  | zero =>
    constructor
    · intro h
      cases h
    · rintro ⟨before, raw, response, -, hlength, -⟩
      cases hlength
  | succ rounds ih =>
    cases deliveries with
    | nil => simp [pollAnswer, ih]
    | cons delivered deliveries =>
      constructor
      · intro h
        obtain ⟨found, hround, hrest⟩ := bind_eq_ok_iff.mp h
        cases found with
        | some ip' =>
          cases hrest
          obtain ⟨raw, response, rfl, htells⟩ := pollRound_eq_some_iff.mp hround
          exact ⟨[], raw, response, rfl, Nat.succ_pos _, nofun, htells⟩
        | none =>
          obtain ⟨before, raw, response, rfl, hlength, hsilent, htells⟩ := ih.mp hrest
          exact ⟨delivered :: before, raw, response, rfl, Nat.succ_lt_succ hlength,
            List.forall_mem_cons.mpr ⟨pollRound_eq_none_iff.mp hround, hsilent⟩, htells⟩
      · rintro ⟨before, raw, response, hsplit, hlength, hsilent, htells⟩
        rw [pollAnswer]
        cases before with
        | nil =>
          cases hsplit
          rw [pollRound_eq_some_iff.mpr ⟨raw, response, rfl, htells⟩]
          rfl
        | cons first before =>
          cases hsplit
          rw [List.forall_mem_cons] at hsilent
          rw [pollRound_eq_none_iff.mpr hsilent.1, ok_bind]
          exact ih.mpr ⟨before, raw, response, rfl, Nat.lt_of_succ_lt_succ hlength, hsilent.2,
            htells⟩

end Polling

/-! ### Lookups -/

/-- The query for the host name can be sent. -/
def CanAsk (net : Network) (hostname : String) : Prop :=
  net.sendUdp (dnsServerIp net) dnsSrcPort dnsPort (buildDnsQuery hostname) = true

/-- If the query can be sent, the first delivery in which the client finds an address, among
those it polls, holds an answer to the query. -/
def FirstAnswerBelongs (net : Network) (hostname : String) (deliveries : List (Option Bytes)) :
    Prop :=
  CanAsk net hostname →
    ∀ before raw response ip rest, deliveries = before ++ some raw :: rest →
      before.length < maxPollIters → (∀ delivered ∈ before, Silent delivered) →
      Tells raw response ip → Belongs net hostname raw response

/-- The frame holds an answer to the query for the host name, with the address in one of its
records. -/
def Answers (net : Network) (hostname : String) (raw : Bytes) (ip : Ipv4Addr) : Prop :=
  ∃ response, dnsPayload raw = some response ∧ AddressIn response ip ∧
    Belongs net hostname raw response

/-- One lookup: the time, the network, what the card delivers and the host name. -/
structure Lookup where
  now : Nat
  net : Network
  deliveries : List (Option Bytes)
  hostname : String

/-- The cache after a lookup, or after `flush_cache`. -/
def cacheStep (cache : List DnsCacheEntry) : Option Lookup → Exec (List DnsCacheEntry)
  | none => return []
  | some l => do
    let (_, cache', _) ← resolveWithCache cache l.now l.net l.deliveries l.hostname
    return cache'

/-- The client knows no address for the host name without asking. -/
def IsRemote (hostname : String) : Prop :=
  (∀ net, resolveWellKnown net hostname = none) ∧ tryParseIp hostname = none

section Lookups

variable {net : Network} {hostname : String} {deliveries rest : List (Option Bytes)}
  {ip : Ipv4Addr}

theorem resolve_eq_ok_iff (hremote : IsRemote hostname) :
    resolve net deliveries hostname = .ok (.ok ip, rest) ↔
      CanAsk net hostname ∧ pollAnswer maxPollIters deliveries = .ok (.ok ip, rest) := by
  rw [resolve, hremote.1 net, hremote.2, CanAsk]
  dsimp only
  split_ifs with hsent
  · simp [hsent]
  · simp [hsent]

/-- Where the condition holds, an address that is returned comes from the delivery that was
polled last, and this is an answer to the query. -/
theorem answers_of_resolve (hremote : IsRemote hostname)
    (hfirst : FirstAnswerBelongs net hostname deliveries)
    (hresolve : resolve net deliveries hostname = .ok (.ok ip, rest)) :
    ∃ before raw, deliveries = before ++ some raw :: rest ∧ Answers net hostname raw ip := by
  obtain ⟨hask, hpoll⟩ := (resolve_eq_ok_iff hremote).mp hresolve
  obtain ⟨before, raw, response, hsplit, hlength, hsilent, htells⟩ :=
    pollAnswer_eq_ok_iff.mp hpoll
  have haddress : AddressIn response ip := (parseDnsResponseWithin_spec htells.2).2 ip rfl
  exact ⟨before, raw, hsplit, response, htells.1, haddress,
    hfirst hask before raw response ip rest hsplit hlength hsilent htells⟩

/-- Where addresses that are returned come from answers to the query, the condition holds. -/
theorem firstAnswerBelongs_of_answers (hremote : IsRemote hostname)
    (hanswers : ∀ ip rest, resolve net deliveries hostname = .ok (.ok ip, rest) →
      ∃ before raw, deliveries = before ++ some raw :: rest ∧ Answers net hostname raw ip) :
    FirstAnswerBelongs net hostname deliveries := by
  intro hask before raw response ip rest hsplit hlength hsilent htells
  have hpoll : pollAnswer maxPollIters deliveries = .ok (.ok ip, rest) :=
    pollAnswer_eq_ok_iff.mpr ⟨before, raw, response, hsplit, hlength, hsilent, htells⟩
  obtain ⟨before', raw', hsplit', response', hpayload, -, hbelongs⟩ :=
    hanswers ip rest ((resolve_eq_ok_iff hremote).mpr ⟨hask, hpoll⟩)
  -- The delivery is the one in front of what is left.
  obtain ⟨-, hsame⟩ := List.append_inj' (hsplit.symm.trans hsplit') rfl
  obtain rfl : raw = raw' := by simpa using hsame
  obtain rfl : response = response' := Option.some.inj (htells.1.symm.trans hpayload)
  exact hbelongs

end Lookups

/-! ### The cache -/

section Cache

variable {cache cache' : List DnsCacheEntry} {e : DnsCacheEntry}

/-- The entry is what the lookup has found. -/
def FoundBy (e : DnsCacheEntry) (l : Lookup) : Prop :=
  e.hostname = l.hostname ∧ ∃ rest, resolve l.net l.deliveries l.hostname = .ok (.ok e.ip, rest)

/-- The cache has no entry for the host name of the lookup that is still valid. -/
def Misses (cache : List DnsCacheEntry) (l : Lookup) : Prop :=
  ∀ e ∈ cache, e.hostname = l.hostname → e.expiryTick ≤ l.now

/-- If the host name is looked up and the cache does not answer, the first answer belongs to the
query. -/
def AskedWell (hostname : String) (cache : List DnsCacheEntry) (op : Option Lookup) : Prop :=
  ∀ l, op = some l → l.hostname = hostname → Misses cache l →
    FirstAnswerBelongs l.net l.hostname l.deliveries

/-- An entry after a step was there before, or the lookup has found it where the cache had none. -/
theorem mem_cacheStep {op : Option Lookup} (hstep : cacheStep cache op = .ok cache')
    (he : e ∈ cache') : e ∈ cache ∨ ∃ l, op = some l ∧ FoundBy e l ∧ Misses cache l := by
  cases op with
  | none =>
    cases hstep
    cases he
  | some l =>
    obtain ⟨⟨result, cache'', rest⟩, hlookup, hcache⟩ := bind_eq_ok_iff.mp hstep
    obtain rfl : cache'' = cache' := Except.ok.inj hcache
    unfold resolveWithCache at hlookup
    dsimp only at hlookup
    split at hlookup
    · cases hlookup
      exact .inl (List.mem_of_mem_filter he)
    · next hmissing =>
      obtain ⟨⟨found, rest'⟩, hresolve, hstore⟩ := bind_eq_ok_iff.mp hlookup
      cases found with
      | error message =>
        cases hstore
        exact .inl (List.mem_of_mem_filter he)
      | ok ip =>
        obtain ⟨expiryTick, -, hstore⟩ := bind_eq_ok_iff.mp hstore
        cases hstore
        rcases List.mem_append.mp he with hold | hnew
        · exact .inl (List.mem_of_mem_filter hold)
        · rw [List.mem_singleton.mp hnew]
          refine .inr ⟨l, rfl, ⟨rfl, _, hresolve⟩, fun e' he' hname => ?_⟩
          by_contra hvalid
          refine List.find?_eq_none.mp hmissing e' (List.mem_filter.mpr ⟨he', ?_⟩) ?_
          · exact decide_eq_true (Nat.lt_of_not_le hvalid)
          · exact decide_eq_true hname

/-- The entries for a host name after a run. -/
theorem mem_run_cacheStep {ops : List (Option Lookup)} (hrun : run cacheStep cache ops = .ok cache')
    (hasked : Guarded cacheStep (AskedWell e.hostname) cache ops) (he : e ∈ cache') :
    e ∈ cache ∨ ∃ l, some l ∈ ops ∧ FoundBy e l ∧
      FirstAnswerBelongs l.net l.hostname l.deliveries := by
  induction ops generalizing cache with
  | nil =>
    cases hrun
    exact .inl he
  | cons op ops ih =>
    rw [run_cons] at hrun
    obtain ⟨next, hstep, hrest⟩ := bind_eq_ok_iff.mp hrun
    rcases ih hrest (hasked.2 next hstep) with hnext | ⟨l, hl, hfound⟩
    · rcases mem_cacheStep hstep hnext with hold | ⟨l, rfl, hfound, hmisses⟩
      · exact .inl hold
      · exact .inr ⟨l, List.mem_cons_self, hfound, hasked.1 l rfl hfound.1.symm hmisses⟩
    · exact .inr ⟨l, List.mem_cons_of_mem op hl, hfound⟩

end Cache

/-! ### The client -/

/-- For a host name that the client has to ask for: every address that `resolve` returns
comes from an answer to its query, the last frame it has polled, exactly if the first frame
in which it can find an address is an answer to its query. In every run of lookups in which
this is so whenever the cache does not answer, an address in the cache was sent in an answer to a
query for its host name. -/
theorem resolve_belongs_iff (net : Network) (hostname : String) (hremote : IsRemote hostname)
    (deliveries : List (Option Bytes)) :
    ((∀ ip rest, resolve net deliveries hostname = .ok (.ok ip, rest) →
        ∃ before raw, deliveries = before ++ some raw :: rest ∧ Answers net hostname raw ip) ↔
      FirstAnswerBelongs net hostname deliveries) ∧
    ∀ ops cache, run cacheStep [] ops = .ok cache →
      Guarded cacheStep (AskedWell hostname) [] ops →
      ∀ e ∈ cache, e.hostname = hostname →
        ∃ l raw, some l ∈ ops ∧ l.hostname = hostname ∧ some raw ∈ l.deliveries ∧
          Answers l.net hostname raw e.ip := by
  refine ⟨⟨firstAnswerBelongs_of_answers hremote, fun hfirst ip rest =>
    answers_of_resolve hremote hfirst⟩, ?_⟩
  rintro ops cache hrun hasked e he rfl
  rcases mem_run_cacheStep hrun hasked he with hold | ⟨l, hl, ⟨hhost, rest, hresolve⟩, hfirst⟩
  · cases hold
  · rw [hhost] at hremote ⊢
    obtain ⟨before, raw, hsplit, hanswers⟩ := answers_of_resolve hremote hfirst hresolve
    exact ⟨l, raw, hl, rfl, by rw [hsplit]; simp, hanswers⟩

/-! ### An answer and a forged one -/

/-- The network of a machine at 10.0.2.15, whose card takes every frame. -/
def userNet : Network where
  ip := ⟨10, 0, 2, 15⟩
  gateway := ⟨10, 0, 2, 2⟩
  sendUdp _ _ _ _ := true

theorem isRemote_example : IsRemote "example.com" :=
  ⟨fun _ => by simp [resolveWellKnown], by decide +kernel⟩

/-- A response in a frame from port 53 of an address. -/
def frameFrom (source response : Bytes) : Bytes :=
  [0, 0, 0, 0, 0, 0, 0, 0, 0, 0, 0, 0, 8, 0] ++
    [0x45, 0, 0, .ofNat (28 + response.length), 0, 1, 0x40, 0, 64, 17, 0, 0] ++ source ++
    [10, 0, 2, 15] ++ [0, 53, 0x27, 0x45, 0, .ofNat (8 + response.length), 0, 0] ++ response

/-- The response of the server to the query for `example.com`. -/
def answer : Bytes :=
  [0x4D, 0x4E, 0x81, 0x80, 0, 1, 0, 1, 0, 0, 0, 0] ++
    (buildDnsQuery "example.com").drop dnsHeaderLen ++
    [0xC0, 12, 0, 1, 0, 1, 0, 0, 0, 60, 0, 4, 93, 184, 216, 34]

/-- A response with the number `0xFFFF` to the question for the host name `b`. -/
def otherResponse : Bytes :=
  [0xFF, 0xFF, 0x81, 0x80, 0, 1, 0, 1, 0, 0, 0, 0] ++ [1, 98, 0, 0, 1, 0, 1] ++
    [0xC0, 12, 0, 1, 0, 1, 0, 0, 0, 60, 0, 4, 6, 6, 6, 6]

def answerFrame : Bytes := frameFrom [10, 0, 2, 3] answer
def forgedFrame : Bytes := frameFrom [6, 6, 6, 6] otherResponse

theorem firstAnswerBelongs_answer :
    FirstAnswerBelongs userNet "example.com" [none, some answerFrame] := by
  rintro - before raw response ip rest hsplit - - ⟨hpayload, -⟩
  obtain rfl : raw = answerFrame := by
    rcases before with - | ⟨first, - | ⟨second, before⟩⟩
    · cases hsplit
    · cases hsplit
      rfl
    · cases before <;> cases hsplit
  have hanswer : dnsPayload answerFrame = some answer := by decide +kernel
  obtain rfl : answer = response := Option.some.inj (hanswer.symm.trans hpayload)
  exact ⟨by decide +kernel, by decide +kernel, by decide +kernel, by decide +kernel⟩

/-- Two lookups of `example.com`: the server answers, and a forged frame comes later. -/
def lookups : List (Option Lookup) :=
  [some ⟨0, userNet, [none, some answerFrame], "example.com"⟩,
    some ⟨100, userNet, [some forgedFrame], "example.com"⟩]

def stored : List DnsCacheEntry := [⟨"example.com", ⟨93, 184, 216, 34⟩, 3000⟩]

/-- Only the first of them has to be answered well. -/
theorem guarded_lookups : Guarded cacheStep (AskedWell "example.com") [] lookups := by
  have hstep : cacheStep [] (some ⟨0, userNet, [none, some answerFrame], "example.com"⟩) =
      .ok stored := by decide +kernel
  refine ⟨?_, fun cache hcache => ⟨?_, fun _ _ => trivial⟩⟩
  · rintro l hl - -
    cases hl
    exact firstAnswerBelongs_answer
  · obtain rfl : stored = cache := Except.ok.inj (hstep.symm.trans hcache)
    rintro l hl - hmisses
    cases hl
    exact absurd (hmisses _ (List.mem_singleton.mpr rfl) rfl) (by decide)

/-- The answer of the server is taken, and while the cache holds it a forged frame is not looked
at. -/
theorem resolve_belongs_answered :
    IsRemote "example.com" ∧
      resolve userNet [none, some answerFrame] "example.com" = .ok (.ok ⟨93, 184, 216, 34⟩, []) ∧
      (∃ before raw, [none, some answerFrame] = before ++ some raw :: [] ∧
        Answers userNet "example.com" raw ⟨93, 184, 216, 34⟩) ∧
      run cacheStep [] lookups = .ok stored ∧
      ∃ l raw, some l ∈ lookups ∧ l.hostname = "example.com" ∧ some raw ∈ l.deliveries ∧
        Answers l.net "example.com" raw ⟨93, 184, 216, 34⟩ := by
  have hexact := resolve_belongs_iff userNet "example.com" isRemote_example
    [none, some answerFrame]
  have hresolve : resolve userNet [none, some answerFrame] "example.com" =
      .ok (.ok ⟨93, 184, 216, 34⟩, []) := by decide +kernel
  have hrun : run cacheStep [] lookups = .ok stored := by decide +kernel
  exact ⟨isRemote_example, hresolve, hexact.1.mpr firstAnswerBelongs_answer _ _ hresolve, hrun,
    hexact.2 _ _ hrun guarded_lookups _ (List.mem_singleton.mpr rfl) rfl⟩

/-- The client takes the forged frame for an answer and stores the address, although the
number, the question and the sender are all others than those of its query. -/
theorem resolve_takes_forged :
    IsRemote "example.com" ∧
      resolve userNet [some forgedFrame] "example.com" = .ok (.ok ⟨6, 6, 6, 6⟩, []) ∧
      cacheStep [] (some ⟨0, userNet, [some forgedFrame], "example.com"⟩) =
        .ok [⟨"example.com", ⟨6, 6, 6, 6⟩, 3000⟩] ∧
      dnsPayload forgedFrame = some otherResponse ∧
      window otherResponse 0 2 ≠ window (buildDnsQuery "example.com") 0 2 ∧
      ¬ (buildDnsQuery "example.com").drop dnsHeaderLen <+: otherResponse.drop dnsHeaderLen ∧
      sourceAddress forgedFrame ≠ (dnsServerIp userNet).octets := by
  refine ⟨isRemote_example, ?_, ?_, ?_, ?_, ?_, ?_⟩ <;> decide +kernel

end MerlionKernel.Dns
