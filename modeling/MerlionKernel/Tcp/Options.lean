import MerlionKernel.Tcp.Socket

/-!
# TCP options

`parse_tcp_options` and `build_tcp_options` of `tcp_ext.rs`. The parser walks over a sequence of
options, each with its kind and its length in front, and keeps of every kind the last one; a
position in the options is kept as the bytes from there on.
-/

namespace MerlionKernel.Tcp

open Rust

/-- `TcpOptions`. -/
structure TcpOptions where
  mss : Option UInt16
  windowScale : Option UInt8
  sackPermitted : Bool
  sackBlocks : List (UInt32 × UInt32)
  timestamps : Option (UInt32 × UInt32)
  tfoCookie : Option Bytes

/-- `TcpOptions::new`. -/
def TcpOptions.new : TcpOptions :=
  { mss := none, windowScale := none, sackPermitted := false, sackBlocks := [],
    timestamps := none, tfoCookie := none }

abbrev tcpOptEnd : UInt8 := 0
abbrev tcpOptNop : UInt8 := 1
abbrev tcpOptMss : UInt8 := 2
abbrev tcpOptWindowScale : UInt8 := 3
abbrev tcpOptSackPermitted : UInt8 := 4
abbrev tcpOptSack : UInt8 := 5
abbrev tcpOptTimestamp : UInt8 := 8
abbrev tcpOptTfo : UInt8 := 34

/-- `MAX_WINDOW_SCALE`. -/
def maxWindowScale : UInt8 := 14

/-- `core::cmp::min(scale, MAX_WINDOW_SCALE)`. -/
def clampScale (scale : UInt8) : UInt8 :=
  if scale ≤ maxWindowScale then scale else maxWindowScale

theorem clampScale_clampScale (scale : UInt8) :
    clampScale (clampScale scale) = clampScale scale := by
  by_cases h : scale ≤ maxWindowScale
  · simp [clampScale, h]
  · simp [clampScale, h]

/-- `MAX_SACK_OPTION_BLOCKS`. -/
def maxSackOptionBlocks : Nat := 4

/-! ### Parsing -/

/-- `parse_sack_blocks`. -/
def parseSackBlocks (data : Bytes) : Exec (List (UInt32 × UInt32)) :=
  if 8 ≤ data.length then do
    let left ← u32At data 0
    let right ← u32At data 4
    let blocks ← parseSackBlocks (data.drop 8)
    return (left, right) :: blocks
  else return []
termination_by data.length
decreasing_by
  rw [List.length_drop]
  omega

/-- The options with what the option at the front of `rest` says; `len` is its length. -/
def readOption (opts : TcpOptions) (kind : UInt8) (len : Nat) (rest : Bytes) : Exec TcpOptions :=
  if kind = tcpOptMss then
    if len = 4 ∧ 4 ≤ rest.length then do return { opts with mss := some (← u16At rest 2) }
    else return opts
  else if kind = tcpOptWindowScale then
    if len = 3 ∧ 3 ≤ rest.length then do
      return { opts with windowScale := some (clampScale (← index rest 2)) }
    else return opts
  else if kind = tcpOptSackPermitted then return { opts with sackPermitted := true }
  else if kind = tcpOptSack then do
    let blockData ← slice rest 2 len
    return { opts with sackBlocks := ← parseSackBlocks blockData }
  else if kind = tcpOptTimestamp then
    if len = 10 ∧ 10 ≤ rest.length then do
      let tsval ← u32At rest 2
      let tsecr ← u32At rest 6
      return { opts with timestamps := some (tsval, tsecr) }
    else return opts
  else if kind = tcpOptTfo then
    if 2 < len then do return { opts with tfoCookie := some (← slice rest 2 len) }
    else return { opts with tfoCookie := some [] }
  else return opts

/-- The loop of `parse_tcp_options` from a position on. -/
def parseFrom (opts : TcpOptions) (rest : Bytes) : Exec TcpOptions :=
  match rest with
  | [] => return opts
  | kind :: tail =>
    if kind = tcpOptEnd then return opts
    else if kind = tcpOptNop then parseFrom opts tail
    else
      match tail with
      | [] => return opts
      | len :: data =>
        if len.toNat < 2 ∨ (kind :: len :: data).length < len.toNat then return opts
        else do
          let opts ← readOption opts kind len.toNat (kind :: len :: data)
          parseFrom opts ((kind :: len :: data).drop len.toNat)
termination_by rest.length
decreasing_by
  all_goals simp only [List.length_cons, List.length_drop] at *
  · omega
  · omega

/-- `parse_tcp_options`. -/
def parseTcpOptions (data : Bytes) : Exec TcpOptions := parseFrom .new data

/-! ### Building -/

/-- `build_window_scale_option`. -/
def buildWindowScaleOption (scale : UInt8) : Bytes :=
  [tcpOptWindowScale, 3, clampScale scale]

/-- `build_sack_permitted_option`. -/
def buildSackPermittedOption : Bytes := [tcpOptSackPermitted, 2]

/-- The edges of blocks as they stand in an option. -/
def sackBytes : List (UInt32 × UInt32) → Bytes
  | [] => []
  | (left, right) :: blocks => toBe 4 left.toNat ++ toBe 4 right.toNat ++ sackBytes blocks

/-- `build_sack_option`. -/
def buildSackOption (blocks : List (UInt32 × UInt32)) : Bytes :=
  let count := min blocks.length maxSackOptionBlocks
  if count = 0 then []
  else tcpOptSack :: UInt8.ofNat (2 + count * 8) :: sackBytes (blocks.take count)

/-- `build_timestamp_option`. -/
def buildTimestampOption (tsval tsecr : UInt32) : Bytes :=
  tcpOptNop :: tcpOptNop :: tcpOptTimestamp :: 10 :: (toBe 4 tsval.toNat ++ toBe 4 tsecr.toNat)

/-- The options of `build_tcp_options` before the padding. -/
def optionBytes (opts : TcpOptions) : Bytes :=
  (opts.mss.elim [] fun mss => tcpOptMss :: 4 :: toBe 2 mss.toNat) ++
  (opts.windowScale.elim [] fun scale => tcpOptNop :: buildWindowScaleOption scale) ++
  (if opts.sackPermitted then buildSackPermittedOption else []) ++
  (if opts.sackBlocks = [] then [] else buildSackOption opts.sackBlocks) ++
  (opts.timestamps.elim [] fun (tsval, tsecr) => buildTimestampOption tsval tsecr) ++
  (opts.tfoCookie.elim [] fun cookie => tcpOptTfo :: UInt8.ofNat (2 + cookie.length) :: cookie)

/-- `build_tcp_options`; the loop at the end pads to a multiple of four bytes. -/
def buildTcpOptions (opts : TcpOptions) : Bytes :=
  let out := optionBytes opts
  out ++ List.replicate ((4 - out.length % 4) % 4) tcpOptNop

/-! ### The parser stays inside its input -/

theorem parseSackBlocks_returns (data : Bytes) : ∃ blocks, parseSackBlocks data = .ok blocks := by
  fun_induction parseSackBlocks data with
  | case1 data h ih =>
    obtain ⟨blocks, hblocks⟩ := ih
    rw [u32At_eq_ok (by omega), u32At_eq_ok (by omega), hblocks]
    exact ⟨_, rfl⟩
  | case2 data h => exact ⟨_, rfl⟩

/-- An option that lies inside is read without a fault. -/
theorem readOption_returns {opts : TcpOptions} {kind : UInt8} {len : Nat} {rest : Bytes}
    (hlen : 2 ≤ len) (hrest : len ≤ rest.length) :
    ∃ opts', readOption opts kind len rest = .ok opts' := by
  have hslice : slice rest 2 len = .ok ((rest.drop 2).take (len - 2)) := slice_eq_ok hlen hrest
  unfold readOption
  split_ifs with hmss hfits hscale hfits hpermitted hsack hts hfits htfo hcookie
  · rw [u16At_eq_ok (by omega)]
    exact ⟨_, rfl⟩
  · exact ⟨_, rfl⟩
  · rw [index_eq_ok (by omega)]
    exact ⟨_, rfl⟩
  · exact ⟨_, rfl⟩
  · exact ⟨_, rfl⟩
  · obtain ⟨blocks, hblocks⟩ := parseSackBlocks_returns ((rest.drop 2).take (len - 2))
    rw [hslice, ok_bind, hblocks]
    exact ⟨_, rfl⟩
  · rw [u32At_eq_ok (by omega), u32At_eq_ok (by omega)]
    exact ⟨_, rfl⟩
  · exact ⟨_, rfl⟩
  · rw [hslice]
    exact ⟨_, rfl⟩
  · exact ⟨_, rfl⟩
  · exact ⟨_, rfl⟩

theorem parseFrom_returns (opts : TcpOptions) (rest : Bytes) :
    ∃ opts', parseFrom opts rest = .ok opts' := by
  fun_induction parseFrom opts rest with
  | case1 opts => exact ⟨_, rfl⟩
  | case2 opts tail => exact ⟨_, rfl⟩
  | case3 opts tail hend ih => exact ih
  | case4 opts kind hend hnop => exact ⟨_, rfl⟩
  | case5 opts kind hend hnop len data hlen => exact ⟨_, rfl⟩
  | case6 opts kind hend hnop len data hlen ih =>
    rw [not_or, not_lt, not_lt] at hlen
    obtain ⟨opts', hread⟩ := readOption_returns hlen.1 hlen.2
    rw [hread]
    exact ih opts'

/-! ### What was built is read back -/

theorem parseFrom_nop (opts : TcpOptions) (rest : Bytes) :
    parseFrom opts (tcpOptNop :: rest) = parseFrom opts rest := by
  rw [parseFrom.eq_def]
  rfl

/-- The parser at an option: it is read, and the parser goes on behind it. -/
theorem parseFrom_option {opts opts' : TcpOptions} {kind len : UInt8} {body rest : Bytes}
    (hkind : kind ≠ tcpOptEnd ∧ kind ≠ tcpOptNop) (hlen : len.toNat = body.length + 2)
    (hread : readOption opts kind len.toNat (kind :: len :: (body ++ rest)) = .ok opts') :
    parseFrom opts (kind :: len :: (body ++ rest)) = parseFrom opts' rest := by
  have hfits : ¬ (len.toNat < 2 ∨ (kind :: len :: (body ++ rest)).length < len.toNat) := by
    simp only [List.length_cons, List.length_append]
    omega
  rw [parseFrom.eq_def]
  dsimp only
  rw [if_neg hkind.1, if_neg hkind.2, if_neg hfits, hread, ok_bind, hlen, List.drop_succ_cons,
    List.drop_succ_cons, List.drop_left]

section Options

variable (opts : TcpOptions) (rest : Bytes)

theorem parseFrom_mss (mss : UInt16) :
    parseFrom opts (tcpOptMss :: 4 :: (toBe 2 mss.toNat ++ rest)) =
      parseFrom { opts with mss := some mss } rest := by
  have hmss : u16At (tcpOptMss :: 4 :: (toBe 2 mss.toNat ++ rest)) 2 = .ok mss :=
    @u16At_toBe [tcpOptMss, 4] rest mss
  apply parseFrom_option (by decide) rfl
  rw [readOption, if_pos rfl, if_pos ⟨rfl, by simp⟩, hmss]
  rfl

theorem parseFrom_windowScale (scale : UInt8) :
    parseFrom opts (tcpOptNop :: buildWindowScaleOption scale ++ rest) =
      parseFrom { opts with windowScale := some (clampScale scale) } rest := by
  rw [List.cons_append, parseFrom_nop]
  apply @parseFrom_option _ _ _ _ [clampScale scale] _ (by decide) rfl
  rw [readOption, if_neg (by decide), if_pos rfl, if_pos ⟨rfl, by simp⟩]
  have hread : index (tcpOptWindowScale :: 3 :: ([clampScale scale] ++ rest)) 2 =
      .ok (clampScale scale) := rfl
  rw [hread, ok_bind, clampScale_clampScale]
  rfl

theorem parseFrom_sackPermitted :
    parseFrom opts (buildSackPermittedOption ++ rest) =
      parseFrom { opts with sackPermitted := true } rest := by
  apply @parseFrom_option _ _ _ _ [] _ (by decide) rfl
  rfl

theorem length_sackBytes (blocks : List (UInt32 × UInt32)) :
    (sackBytes blocks).length = blocks.length * 8 := by
  induction blocks with
  | nil => rfl
  | cons b blocks ih =>
    rw [sackBytes, List.length_append, List.length_append, length_toBe, length_toBe, ih,
      List.length_cons]
    omega

theorem parseSackBlocks_sackBytes (blocks : List (UInt32 × UInt32)) :
    parseSackBlocks (sackBytes blocks) = .ok blocks := by
  induction blocks with
  | nil =>
    rw [parseSackBlocks]
    rfl
  | cons b blocks ih =>
    obtain ⟨left, right⟩ := b
    have hleft := @u32At_toBe [] (toBe 4 right.toNat ++ sackBytes blocks) left
    have hright := @u32At_toBe (toBe 4 left.toNat) (sackBytes blocks) right
    rw [length_toBe] at hright
    rw [parseSackBlocks, if_pos (by rw [length_sackBytes, List.length_cons]; omega), sackBytes,
      List.append_assoc]
    rw [List.nil_append, List.length_nil] at hleft
    rw [hleft, hright, ok_bind, ok_bind, ← List.append_assoc,
      List.drop_left' (by rw [List.length_append, length_toBe, length_toBe]), ih]
    rfl

theorem parseFrom_sack {blocks : List (UInt32 × UInt32)} (hblocks : blocks ≠ []) :
    parseFrom opts (buildSackOption blocks ++ rest) =
      parseFrom { opts with sackBlocks := blocks.take maxSackOptionBlocks } rest := by
  have hpos : 0 < blocks.length := List.length_pos_iff.mpr hblocks
  have hcount : min blocks.length maxSackOptionBlocks ≤ 4 := Nat.min_le_right _ _
  have hne : min blocks.length maxSackOptionBlocks ≠ 0 := by
    have hmax : maxSackOptionBlocks = 4 := rfl
    omega
  have htake : blocks.take (min blocks.length maxSackOptionBlocks) =
      blocks.take maxSackOptionBlocks := by
    rw [Nat.min_comm, ← List.take_take, List.take_length]
  have hbody : (sackBytes (blocks.take maxSackOptionBlocks)).length =
      min blocks.length maxSackOptionBlocks * 8 := by
    rw [length_sackBytes, List.length_take, Nat.min_comm]
  have hlen : (UInt8.ofNat (2 + min blocks.length maxSackOptionBlocks * 8)).toNat =
      (sackBytes (blocks.take maxSackOptionBlocks)).length + 2 := by
    rw [UInt8.toNat_ofNat', hbody]
    omega
  rw [buildSackOption, if_neg hne, htake, List.cons_append, List.cons_append]
  apply parseFrom_option (by decide) hlen
  rw [hlen, readOption, if_neg (by decide), if_neg (by decide), if_neg (by decide), if_pos rfl,
    slice_eq_ok (by omega) (by simp), ok_bind, List.drop_succ_cons, List.drop_succ_cons,
    List.drop_zero, Nat.add_sub_cancel, List.take_left, parseSackBlocks_sackBytes]
  rfl

theorem parseFrom_timestamps (tsval tsecr : UInt32) :
    parseFrom opts (buildTimestampOption tsval tsecr ++ rest) =
      parseFrom { opts with timestamps := some (tsval, tsecr) } rest := by
  have hval : u32At (tcpOptTimestamp :: 10 :: (toBe 4 tsval.toNat ++ (toBe 4 tsecr.toNat ++ rest)))
      2 = .ok tsval :=
    @u32At_toBe [tcpOptTimestamp, 10] (toBe 4 tsecr.toNat ++ rest) tsval
  have hecr : u32At (tcpOptTimestamp :: 10 :: (toBe 4 tsval.toNat ++ (toBe 4 tsecr.toNat ++ rest)))
      6 = .ok tsecr :=
    @u32At_toBe (tcpOptTimestamp :: 10 :: toBe 4 tsval.toNat) rest tsecr
  rw [buildTimestampOption, List.cons_append, List.cons_append, List.cons_append,
    List.cons_append, parseFrom_nop, parseFrom_nop]
  apply parseFrom_option (by decide) (by simp)
  rw [List.append_assoc, readOption, if_neg (by decide), if_neg (by decide), if_neg (by decide),
    if_neg (by decide), if_pos rfl, if_pos ⟨rfl, by simp; omega⟩, hval, hecr]
  rfl

theorem parseFrom_cookie {cookie : Bytes} (hcookie : cookie.length ≤ 253) :
    parseFrom opts (tcpOptTfo :: UInt8.ofNat (2 + cookie.length) :: (cookie ++ rest)) =
      parseFrom { opts with tfoCookie := some cookie } rest := by
  have hlen : (UInt8.ofNat (2 + cookie.length)).toNat = cookie.length + 2 := by
    rw [UInt8.toNat_ofNat']
    omega
  apply parseFrom_option (by decide) hlen
  rw [hlen, readOption, if_neg (by decide), if_neg (by decide), if_neg (by decide),
    if_neg (by decide), if_neg (by decide), if_pos rfl]
  by_cases hempty : cookie = []
  · -- An empty cookie is a request for one.
    rw [if_neg (by simp [hempty]), hempty]
    rfl
  · have hpos := List.length_pos_iff.mpr hempty
    rw [if_pos (by omega), slice_eq_ok (by omega) (by simp), ok_bind, List.drop_succ_cons,
      List.drop_succ_cons, List.drop_zero, Nat.add_sub_cancel, List.take_left]
    rfl

theorem parseFrom_padding (n : Nat) : parseFrom opts (List.replicate n tcpOptNop) = .ok opts := by
  induction n with
  | zero =>
    rw [List.replicate_zero, parseFrom.eq_def]
    rfl
  | succ n ih => rw [List.replicate_succ, parseFrom_nop, ih]

end Options

/-- The options that a segment can carry: a window scale up to 14 and four blocks. -/
def TcpOptions.carried (opts : TcpOptions) : TcpOptions :=
  { opts with
    windowScale := opts.windowScale.map clampScale
    sackBlocks := opts.sackBlocks.take maxSackOptionBlocks }

/-- Each part of the built options sets its own field. -/
theorem parseFrom_optionBytes {opts : TcpOptions} (rest : Bytes)
    (hcookie : ∀ cookie, opts.tfoCookie = some cookie → cookie.length ≤ 253) :
    parseFrom .new (optionBytes opts ++ rest) = parseFrom opts.carried rest := by
  obtain ⟨mss, windowScale, sackPermitted, sackBlocks, timestamps, tfoCookie⟩ := opts
  -- One step for each part; a part that is absent leaves its field as it is.
  have hmss : ∀ rest, parseFrom .new
      ((mss.elim [] fun mss => tcpOptMss :: 4 :: toBe 2 mss.toNat) ++ rest) =
        parseFrom ⟨mss, none, false, [], none, none⟩ rest := by
    intro rest
    cases mss with
    | none => rfl
    | some mss => exact parseFrom_mss _ _ mss
  have hscale : ∀ rest, parseFrom ⟨mss, none, false, [], none, none⟩
      ((windowScale.elim [] fun scale => tcpOptNop :: buildWindowScaleOption scale) ++ rest) =
        parseFrom ⟨mss, windowScale.map clampScale, false, [], none, none⟩ rest := by
    intro rest
    cases windowScale with
    | none => rfl
    | some scale => exact parseFrom_windowScale _ _ scale
  have hpermitted : ∀ scale rest, parseFrom ⟨mss, scale, false, [], none, none⟩
      ((if sackPermitted then buildSackPermittedOption else []) ++ rest) =
        parseFrom ⟨mss, scale, sackPermitted, [], none, none⟩ rest := by
    intro scale rest
    cases sackPermitted with
    | false => rfl
    | true => exact parseFrom_sackPermitted _ _
  have hsack : ∀ scale rest, parseFrom ⟨mss, scale, sackPermitted, [], none, none⟩
      ((if sackBlocks = [] then [] else buildSackOption sackBlocks) ++ rest) =
        parseFrom ⟨mss, scale, sackPermitted, sackBlocks.take maxSackOptionBlocks, none, none⟩
          rest := by
    intro scale rest
    by_cases hempty : sackBlocks = []
    · subst hempty
      rfl
    · rw [if_neg hempty]
      exact parseFrom_sack _ _ hempty
  have htimestamps : ∀ scale blocks rest, parseFrom ⟨mss, scale, sackPermitted, blocks, none, none⟩
      ((timestamps.elim [] fun (tsval, tsecr) => buildTimestampOption tsval tsecr) ++ rest) =
        parseFrom ⟨mss, scale, sackPermitted, blocks, timestamps, none⟩ rest := by
    intro scale blocks rest
    cases timestamps with
    | none => rfl
    | some ts => exact parseFrom_timestamps _ _ ts.1 ts.2
  have htfo : ∀ scale blocks rest, parseFrom ⟨mss, scale, sackPermitted, blocks, timestamps, none⟩
      ((tfoCookie.elim [] fun cookie => tcpOptTfo :: UInt8.ofNat (2 + cookie.length) :: cookie) ++
        rest) = parseFrom ⟨mss, scale, sackPermitted, blocks, timestamps, tfoCookie⟩ rest := by
    intro scale blocks rest
    cases tfoCookie with
    | none => rfl
    | some cookie => exact parseFrom_cookie _ _ (hcookie cookie rfl)
  simp only [optionBytes, List.append_assoc]
  rw [hmss, hscale, hpermitted, hsack, htimestamps, htfo]
  rfl

/-- Parsing returns on every input, and gives back the options that were built, with the window
scale clamped and the blocks cut to the first four. -/
theorem parseTcpOptions_buildTcpOptions :
    (∀ data, ∃ opts, parseTcpOptions data = .ok opts) ∧
      ∀ opts : TcpOptions, (∀ cookie, opts.tfoCookie = some cookie → cookie.length ≤ 253) →
        parseTcpOptions (buildTcpOptions opts) = .ok opts.carried := by
  constructor
  · exact fun data => parseFrom_returns .new data
  · intro opts hcookie
    rw [parseTcpOptions, buildTcpOptions, parseFrom_optionBytes _ hcookie, parseFrom_padding]

theorem parseTcpOptions_buildTcpOptions_cookie :
    parseTcpOptions (buildTcpOptions
        { TcpOptions.new with windowScale := some 20, tfoCookie := some [1, 2, 3, 4] }) =
      .ok { TcpOptions.new with windowScale := some 14, tfoCookie := some [1, 2, 3, 4] } :=
  parseTcpOptions_buildTcpOptions.2 _ fun cookie h => by
    cases h
    decide

end MerlionKernel.Tcp
