import MerlionKernel.Http2.Connection

/-!
# Connections over a sequence of frames

A connection is watched together with the numbers of the streams that have been closed. The frames
that keep a closed stream closed, the windows in their range and the settings that are not listed
are told apart from the others frame by frame; the condition on a frame is exact.
-/

namespace MerlionKernel.Http2

open Rust Theory

/-- A connection, and the numbers of the streams that have been closed so far. -/
structure Watched where
  conn : H2Connection
  closed : List Nat

namespace Watched

/-- A new connection. -/
def new : Watched := ⟨.new, []⟩

/-- The connection has become `conn`. -/
def see (w : Watched) (conn : H2Connection) : Watched :=
  ⟨conn, w.closed ++ (conn.streams.filter (·.state = .closed)).map (·.id)⟩

variable (decodeHeaders : Bytes → Exec (List (String × String)))

/-- Process a frame and look at the connection. -/
def step (w : Watched) (f : Frame) : Exec Watched := do
  let (_, conn) ← w.conn.processFrame decodeHeaders f
  return w.see conn

/-- A stream that has been closed is closed. -/
def StaysClosed (w : Watched) : Prop :=
  ∀ s ∈ w.conn.streams, s.id ∈ w.closed → s.state = .closed

/-- The header block of the frame, if it has one, is decoded. -/
def Decodes (f : Frame) : Prop :=
  f.frameType = .headers → ∃ headers, decodeHeaders f.payload = .ok headers

/-- The frame overflows no window, and if it is a SETTINGS frame, it changes only the parameters
that it lists. -/
def Safe (w : Watched) (f : Frame) : Prop :=
  Decodes decodeHeaders f →
    Returns (step decodeHeaders w f) fun w' =>
      f.frameType = .settings → ∀ id, id ∉ H2Settings.listed f.payload →
        w'.conn.remoteSettings.get id = w.conn.remoteSettings.get id

/-- The number is an `i32`. -/
def Fits (n : Int) : Prop := -2147483648 ≤ n ∧ n < 2147483648

/-- The frame carries the flag END_STREAM. -/
def Ends (f : Frame) : Prop := f.flags &&& flagEndStream ≠ 0

/-- The condition on a frame. A SETTINGS frame lists every parameter that is not at its default;
HEADERS for a stream that has been closed find it in the table and do not end it; DATA leave both
windows in their range and do not end a stream that has been closed; and so does an update of a
window leave it in its range. -/
def Harmless (w : Watched) (f : Frame) : Prop :=
  match f.frameType with
  | .settings => f.flags &&& flagAck = 0 → ∀ id, id ∉ H2Settings.listed f.payload →
      w.conn.remoteSettings.get id = H2Settings.defaultSettings.get id
  | .headers => Decodes decodeHeaders f → f.streamId ∈ w.closed →
      ¬ Ends f ∧ ∃ s ∈ w.conn.streams, s.id = f.streamId
  | .data => ∀ s, w.conn.streams.find? (·.id = f.streamId) = some s →
      Fits (s.recvWindow.1 - (asI32 f.payload.length).1) ∧
        Fits (w.conn.connRecvWindow.1 - (asI32 f.payload.length).1) ∧
        (Ends f → f.streamId ∉ w.closed)
  | .windowUpdate => ∀ a b c d rest, f.payload = a :: b :: c :: d :: rest →
      if f.streamId = 0 then Fits (w.conn.connSendWindow.1 + (H2Connection.increment a b c d).1)
      else ∀ s, w.conn.streams.find? (·.id = f.streamId) = some s →
        Fits (s.sendWindow.1 + (H2Connection.increment a b c d).1)
  | _ => True

/-! ### What a frame does to the streams -/

variable {decodeHeaders} {w : Watched}

/-- What is kept between frames. -/
structure Inv (w : Watched) : Prop where
  nodup : (w.conn.streams.map (·.id)).Nodup
  stays : w.StaysClosed

theorem inv_new : new.Inv := ⟨List.nodup_nil, fun _ hs => absurd hs List.not_mem_nil⟩

/-- It is enough to look at the streams that were closed before. -/
theorem inv_see {conn : H2Connection} (hnodup : (conn.streams.map (·.id)).Nodup)
    (h : ∀ s ∈ conn.streams, s.id ∈ w.closed → s.state = .closed) : (w.see conn).Inv := by
  refine ⟨hnodup, fun s hs hclosed => ?_⟩
  -- closed before, or seen closed only now
  rcases List.mem_append.mp hclosed with hbefore | hnow
  · exact h s hs hbefore
  · obtain ⟨s', hs', hid⟩ := List.mem_map.mp hnow
    obtain ⟨hmem, hstate⟩ := List.mem_filter.mp hs'
    rw [List.inj_on_of_nodup_map hnodup hs hmem hid.symm]
    simpa using hstate

theorem Inv.see_self (h : w.Inv) {conn : H2Connection} (hsame : conn.streams = w.conn.streams) :
    (w.see conn).Inv :=
  inv_see (hsame ▸ h.nodup) (hsame ▸ h.stays)

/-- A change of the stream of a number that keeps the number. -/
theorem inv_modify {conn : H2Connection} {id : Nat} {change : H2Stream → H2Stream}
    {streams : List H2Stream} (hconn : conn.streams = modifyFirst (·.id = id) change streams)
    (hid : ∀ s, (change s).id = s.id) (hnodup : (streams.map (·.id)).Nodup)
    (hstays : ∀ s ∈ streams, s.id ∈ w.closed → s.state = .closed)
    (hchange : ∀ s ∈ streams, s.id = id → s.id ∈ w.closed → (change s).state = .closed) :
    (w.see conn).Inv := by
  apply inv_see
  · rw [hconn, map_modifyFirst hid]
    exact hnodup
  · rw [hconn]
    refine forall_mem_modifyFirst_of hstays fun s hs hmatch hclosed => ?_
    rw [hid] at hclosed
    exact hchange s hs (by simpa using hmatch) hclosed

theorem nodup_getOrCreateStream {streams : List H2Stream} (h : (streams.map (·.id)).Nodup)
    (id : Nat) : ((H2Connection.getOrCreateStream streams id).map (·.id)).Nodup := by
  unfold H2Connection.getOrCreateStream
  split_ifs with hany hfull
  · exact h
  · refine nodup_map_concat (h.sublist (List.filter_sublist.map _)) fun s hs heq => hany ?_
    exact List.any_eq_true.mpr ⟨s, (List.mem_filter.mp hs).1, by simpa [H2Stream.new] using heq⟩
  · refine nodup_map_concat h fun s hs heq => hany ?_
    exact List.any_eq_true.mpr ⟨s, hs, by simpa [H2Stream.new] using heq⟩

/-- The streams after a lookup are those before and, if there was none of the number, a new one. -/
theorem mem_getOrCreateStream {streams : List H2Stream} {id : Nat} {s : H2Stream}
    (h : s ∈ H2Connection.getOrCreateStream streams id) :
    s ∈ streams ∨ s = .new id ∧ ∀ s' ∈ streams, s'.id ≠ id := by
  unfold H2Connection.getOrCreateStream at h
  split_ifs at h with hany hfull
  · exact .inl h
  · rcases List.mem_append.mp h with h | h
    · exact .inl (List.mem_filter.mp h).1
    · exact .inr ⟨List.mem_singleton.mp h, fun s' hs' heq =>
        hany (List.any_eq_true.mpr ⟨s', hs', by simpa using heq⟩)⟩
  · rcases List.mem_append.mp h with h | h
    · exact .inl h
    · exact .inr ⟨List.mem_singleton.mp h, fun s' hs' heq =>
        hany (List.any_eq_true.mpr ⟨s', hs', by simpa using heq⟩)⟩

theorem exists_getOrCreateStream (streams : List H2Stream) (id : Nat) :
    ∃ s, (H2Connection.getOrCreateStream streams id).find? (·.id = id) = some s := by
  rw [← Option.isSome_iff_exists, List.find?_isSome]
  unfold H2Connection.getOrCreateStream
  split_ifs with hany hfull
  · obtain ⟨s, hs, hid⟩ := List.any_eq_true.mp hany
    exact ⟨s, hs, hid⟩
  · exact ⟨.new id, List.mem_append_right _ List.mem_cons_self, by simp [H2Stream.new]⟩
  · exact ⟨.new id, List.mem_append_right _ List.mem_cons_self, by simp [H2Stream.new]⟩

theorem arith_eq_ok {n : Int} (h : Fits n) : I32.arith n = .ok ⟨n, h⟩ := dif_pos h

theorem fits_of_arith {n : Int} {v : I32} (h : I32.arith n = .ok v) : Fits n :=
  I32.of_arith h ▸ v.2

theorem ended_of_not {f : Frame} (h : ¬ Ends f) (state : StreamState) :
    H2Connection.ended f state = state := if_neg h

theorem ended_of {f : Frame} (h : Ends f) (state : StreamState) :
    H2Connection.ended f state = .halfClosedRemote := if_pos h

/-! ### Frames that are harmless -/

theorem Inv.receiveData (h : w.Inv) {f : Frame} (htype : f.frameType = .data)
    (hguard : w.Harmless decodeHeaders f) :
    Returns (w.conn.receiveData f) fun conn => (w.see conn).Inv := by
  rw [Harmless, htype] at hguard
  unfold H2Connection.receiveData
  cases hfind : w.conn.streams.find? (·.id = f.streamId) with
  | none => exact .ok (h.see_self rfl)
  | some s =>
    obtain ⟨hstream, hconn, hends⟩ := hguard s hfind
    dsimp only
    rw [arith_eq_ok hstream, ok_bind, arith_eq_ok hconn, ok_bind]
    refine .ok (inv_modify rfl (fun _ => rfl) h.nodup h.stays fun s hs hid hclosed => ?_)
    dsimp only
    rw [ended_of_not fun hend => hends hend (hid ▸ hclosed)]
    exact h.stays s hs hclosed

theorem Inv.updateWindow (h : w.Inv) {f : Frame} (htype : f.frameType = .windowUpdate)
    (hguard : w.Harmless decodeHeaders f) {a b c d : UInt8} {rest : Bytes}
    (hpayload : f.payload = a :: b :: c :: d :: rest) :
    Returns (w.conn.updateWindow f.streamId (H2Connection.increment a b c d)) fun conn =>
      (w.see conn).Inv := by
  rw [Harmless, htype] at hguard
  have hfits := hguard a b c d rest hpayload
  unfold H2Connection.updateWindow
  split_ifs at hfits ⊢ with hzero
  · rw [arith_eq_ok hfits]
    exact .ok (h.see_self rfl)
  · cases hfind : w.conn.streams.find? (·.id = f.streamId) with
    | none => exact .ok (h.see_self rfl)
    | some s =>
      dsimp only
      rw [arith_eq_ok (hfits s hfind), ok_bind]
      exact .ok (inv_modify rfl (fun _ => rfl) h.nodup h.stays
        fun s hs _ hclosed => h.stays s hs hclosed)

theorem Inv.headers (h : w.Inv) {f : Frame} (htype : f.frameType = .headers)
    (hguard : w.Harmless decodeHeaders f) (hdecodes : Decodes decodeHeaders f)
    {conn : H2Connection} {change : H2Stream → H2Stream}
    (hconn : conn.streams = modifyFirst (·.id = f.streamId) change
      (H2Connection.getOrCreateStream w.conn.streams f.streamId))
    (hid : ∀ s, (change s).id = s.id)
    (hstate : ∀ s, (change s).state = H2Connection.ended f s.state) : (w.see conn).Inv := by
  rw [Harmless, htype] at hguard
  have hold : ∀ s ∈ H2Connection.getOrCreateStream w.conn.streams f.streamId, s.id ∈ w.closed →
      s.state = .closed := by
    intro s hs hclosed
    rcases mem_getOrCreateStream hs with hs | ⟨rfl, hnone⟩
    · exact h.stays s hs hclosed
    · obtain ⟨-, s', hs', hid'⟩ := hguard hdecodes hclosed
      exact absurd hid' (hnone s' hs')
  refine inv_modify hconn hid (nodup_getOrCreateStream h.nodup f.streamId) hold ?_
  intro s hs hid' hclosed
  rw [hstate, ended_of_not (hguard hdecodes (hid' ▸ hclosed)).1]
  exact hold s hs hclosed

/-- A harmless frame is processed, and keeps what is to be kept. -/
theorem Inv.step_returns (h : w.Inv) {f : Frame} (hguard : w.Harmless decodeHeaders f)
    (hdecodes : Decodes decodeHeaders f) :
    Returns (step decodeHeaders w f) fun w' =>
      w'.Inv ∧ (f.frameType = .settings → ∀ id, id ∉ H2Settings.listed f.payload →
        w'.conn.remoteSettings.get id = w.conn.remoteSettings.get id) := by
  unfold step H2Connection.processFrame
  cases htype : f.frameType with
  | settings =>
    dsimp only
    split_ifs with hack
    · refine .ok ⟨h.see_self rfl, fun _ id hid => ?_⟩
      rw [Harmless, htype] at hguard
      rw [hguard hack id hid]
      exact H2Settings.get_parseFrom hid _
    · exact .ok ⟨h.see_self rfl, fun _ _ _ => rfl⟩
  | headers =>
    obtain ⟨headers, hheaders⟩ := hdecodes htype
    dsimp only
    rw [hheaders]
    exact .ok ⟨h.headers htype hguard hdecodes rfl (fun _ => rfl) (fun _ => rfl),
      fun hne => nomatch hne⟩
  | data =>
    obtain ⟨conn, hconn, hinv⟩ := h.receiveData htype hguard
    dsimp only
    rw [hconn]
    exact .ok ⟨hinv, fun hne => nomatch hne⟩
  | windowUpdate =>
    dsimp only
    split
    · rename_i a b c d rest hpayload
      obtain ⟨conn, hconn, hinv⟩ := h.updateWindow htype hguard hpayload
      rw [hconn]
      exact .ok ⟨hinv, fun hne => nomatch hne⟩
    · exact .ok ⟨h.see_self rfl, fun hne => nomatch hne⟩
  | ping =>
    dsimp only
    split_ifs <;> exact .ok ⟨h.see_self rfl, fun hne => nomatch hne⟩
  | goAway =>
    refine .ok ⟨inv_see ?_ ?_, fun hne => nomatch hne⟩
    · rw [List.map_map]
      exact h.nodup
    · intro s hs _
      obtain ⟨s', -, rfl⟩ := List.mem_map.mp hs
      rfl
  | rstStream =>
    exact .ok ⟨inv_modify rfl (fun _ => rfl) h.nodup h.stays fun _ _ _ _ => rfl,
      fun hne => nomatch hne⟩
  | priority => exact .ok ⟨h.see_self rfl, fun hne => nomatch hne⟩
  | continuation => exact .ok ⟨h.see_self rfl, fun hne => nomatch hne⟩
  | pushPromise => exact .ok ⟨h.see_self rfl, fun hne => nomatch hne⟩

theorem decodes_of_step {w' : Watched} {f : Frame} (h : step decodeHeaders w f = .ok w') :
    Decodes decodeHeaders f := by
  intro htype
  obtain ⟨result, hresult, -⟩ := bind_eq_ok_iff.mp h
  rw [H2Connection.processFrame, htype] at hresult
  obtain ⟨headers, hheaders, -⟩ := bind_eq_ok_iff.mp hresult
  exact ⟨headers, hheaders⟩

/-! ### Frames that are not -/

/-- A stream that has been closed is there in another state. -/
theorem not_staysClosed {conn : H2Connection} {id : Nat} {change : H2Stream → H2Stream}
    {streams : List H2Stream} {s : H2Stream}
    (hconn : conn.streams = modifyFirst (·.id = id) change streams)
    (hid : ∀ s, (change s).id = s.id) (hclosed : id ∈ w.closed)
    (hfind : streams.find? (·.id = id) = some s) (hstate : (change s).state ≠ .closed) :
    ¬ (w.see conn).StaysClosed := by
  intro hstays
  have hfound : (modifyFirst (·.id = id) change streams).find? (·.id = id) = some (change s) := by
    rw [find?_modifyFirst_self (fun s hs => by simpa [hid] using hs), hfind]
    rfl
  have hkey : (change s).id = id := by simpa using List.find?_some hfound
  refine hstate (hstays (change s) ?_ ?_)
  · show change s ∈ conn.streams
    rw [hconn]
    exact List.mem_of_find?_eq_some hfound
  · rw [hkey]
    exact List.mem_append_left _ hclosed

/-- Data that are accepted leave both windows in their range. -/
theorem receiveData_eq_ok {conn conn' : H2Connection} {f : Frame} {s : H2Stream}
    (hfind : conn.streams.find? (·.id = f.streamId) = some s)
    (h : conn.receiveData f = .ok conn') :
    Fits (s.recvWindow.1 - (asI32 f.payload.length).1) ∧
      Fits (conn.connRecvWindow.1 - (asI32 f.payload.length).1) ∧
      ∃ change, conn'.streams = modifyFirst (·.id = f.streamId) change conn.streams ∧
        (∀ s, (change s).id = s.id) ∧ ∀ s, (change s).state = H2Connection.ended f s.state := by
  rw [H2Connection.receiveData, hfind] at h
  obtain ⟨recvWindow, hstream, h⟩ := bind_eq_ok_iff.mp h
  obtain ⟨connRecvWindow, hconn, h⟩ := bind_eq_ok_iff.mp h
  cases h
  exact ⟨fits_of_arith hstream, fits_of_arith hconn, _, rfl, fun _ => rfl, fun _ => rfl⟩

/-- A window that is updated is in its range afterwards. -/
theorem fits_of_updateWindow {conn conn' : H2Connection} {id : Nat} {inc : I32}
    (h : conn.updateWindow id inc = .ok conn') :
    if id = 0 then Fits (conn.connSendWindow.1 + inc.1)
    else ∀ s, conn.streams.find? (·.id = id) = some s → Fits (s.sendWindow.1 + inc.1) := by
  unfold H2Connection.updateWindow at h
  split_ifs at h ⊢ with hzero
  · obtain ⟨window, hwindow, -⟩ := bind_eq_ok_iff.mp h
    exact fits_of_arith hwindow
  · intro s hfind
    rw [hfind] at h
    obtain ⟨window, hwindow, -⟩ := bind_eq_ok_iff.mp h
    exact fits_of_arith hwindow

/-- Any other frame is not safe, or finds a stream that has been closed in another state. -/
theorem step_breaks {f : Frame} (hmiss : ¬ w.Harmless decodeHeaders f)
    (hsafe : w.Safe decodeHeaders f) :
    ∃ w', step decodeHeaders w f = .ok w' ∧ ¬ w'.StaysClosed := by
  unfold Harmless at hmiss
  cases htype : f.frameType with
  | settings =>
    rw [htype] at hmiss
    simp only [not_forall] at hmiss
    obtain ⟨hack, id, hid, hdiffers⟩ := hmiss
    obtain ⟨w', hstep, hkeeps⟩ := hsafe fun hne => absurd (htype.symm.trans hne) (by decide)
    rw [step, H2Connection.processFrame, htype] at hstep
    dsimp only at hstep
    rw [if_pos hack] at hstep
    cases hstep
    have hsame := hkeeps htype id hid
    exact absurd (hsame.symm.trans (H2Settings.get_parseFrom hid _)) hdiffers
  | headers =>
    rw [htype] at hmiss
    simp only [not_forall, exists_prop] at hmiss
    obtain ⟨hdecodes, hclosed, hbad⟩ := hmiss
    obtain ⟨headers, hheaders⟩ := hdecodes htype
    rw [step, H2Connection.processFrame, htype]
    dsimp only
    rw [hheaders]
    refine ⟨_, rfl, ?_⟩
    obtain ⟨s, hfind⟩ := exists_getOrCreateStream w.conn.streams f.streamId
    refine not_staysClosed rfl (fun _ => rfl) hclosed hfind ?_
    dsimp only
    -- END_STREAM sets the state whatever it was
    by_cases hends : Ends f
    · rw [ended_of hends]
      decide
    · -- the stream is a new one under an old number
      rw [ended_of_not hends]
      rcases mem_getOrCreateStream (List.mem_of_find?_eq_some hfind) with hs | ⟨rfl, -⟩
      · exact absurd ⟨hends, s, hs, by simpa using List.find?_some hfind⟩ hbad
      · exact fun hstate => nomatch hstate
  | data =>
    rw [htype] at hmiss
    simp only [not_forall] at hmiss
    obtain ⟨s, hfind, hbad⟩ := hmiss
    obtain ⟨w', hstep, -⟩ := hsafe fun hne => absurd (htype.symm.trans hne) (by decide)
    refine ⟨w', hstep, ?_⟩
    rw [step, H2Connection.processFrame, htype] at hstep
    obtain ⟨⟨answers, conn⟩, hresult, hstep⟩ := bind_eq_ok_iff.mp hstep
    obtain ⟨conn', hreceive, hresult⟩ := bind_eq_ok_iff.mp hresult
    cases hresult
    cases hstep
    obtain ⟨hstream, hconn, change, hstreams, hid, hstate⟩ := receiveData_eq_ok hfind hreceive
    have hends : ¬ (Ends f → f.streamId ∉ w.closed) := fun hends => hbad ⟨hstream, hconn, hends⟩
    rw [Classical.not_imp, not_not] at hends
    refine not_staysClosed hstreams hid hends.2 hfind ?_
    rw [hstate, ended_of hends.1]
    decide
  | windowUpdate =>
    rw [htype] at hmiss
    simp only [not_forall] at hmiss
    obtain ⟨a, b, c, d, rest, hpayload, hover⟩ := hmiss
    obtain ⟨w', hstep, -⟩ := hsafe fun hne => absurd (htype.symm.trans hne) (by decide)
    rw [step, H2Connection.processFrame, htype, hpayload] at hstep
    obtain ⟨result, hresult, -⟩ := bind_eq_ok_iff.mp hstep
    obtain ⟨conn, hupdate, -⟩ := bind_eq_ok_iff.mp hresult
    exact absurd (fits_of_updateWindow hupdate) hover
  | ping => rw [htype] at hmiss; exact absurd trivial hmiss
  | goAway => rw [htype] at hmiss; exact absurd trivial hmiss
  | rstStream => rw [htype] at hmiss; exact absurd trivial hmiss
  | priority => rw [htype] at hmiss; exact absurd trivial hmiss
  | continuation => rw [htype] at hmiss; exact absurd trivial hmiss
  | pushPromise => rw [htype] at hmiss; exact absurd trivial hmiss

/-- Over any sequence of frames closed streams stay closed, no window overflows and no setting
changes that is not listed, exactly as long as every frame is harmless. -/
theorem watched_iff_harmless (decodeHeaders : Bytes → Exec (List (String × String)))
    (frames : List Frame) :
    Always (step decodeHeaders) StaysClosed new frames ∧
        Guarded (step decodeHeaders) (Safe decodeHeaders) new frames ↔
      Guarded (step decodeHeaders) (Harmless decodeHeaders) new frames := by
  apply always_safe_iff_guarded Inv (fun _ h => h.stays) _ _ _ inv_new
  · intro w f h hguard hdecodes
    exact (h.step_returns hguard hdecodes).mono fun w' hw' => hw'.2
  · intro w f w' h hguard hstep
    exact ((h.step_returns hguard (decodes_of_step hstep)).elim hstep).1
  · exact fun w f _ hmiss hsafe => step_breaks hmiss hsafe

/-- With a decoder that finds no headers. A stream that was reset is half closed after DATA that end
it; the largest increment overflows the window of a new connection; and a SETTINGS frame that lists
the frame size alone sets the size of the header table back. -/
theorem reset_stream_reopened :
    (∃ w, run (step fun _ => .ok []) new
        [.new .headers 0 1 [], .new .rstStream 0 1 [], .new .data flagEndStream 1 []] = .ok w ∧
      1 ∈ w.closed ∧ w.conn.streams.map (·.state) = [.halfClosedRemote]) ∧
    run (step fun _ => .ok []) new [.new .windowUpdate 0 0 [0x7F, 0xFF, 0xFF, 0xFF]] =
      .error .overflow ∧
    ∃ w w', run (step fun _ => .ok []) new [.new .settings 0 0 [0, 1, 0, 0, 0x20, 0]] = .ok w ∧
      step (fun _ => .ok []) w (.new .settings 0 0 [0, 5, 0, 0, 0x80, 0]) = .ok w' ∧
      w.conn.remoteSettings.get 1 = some 8192 ∧ w'.conn.remoteSettings.get 1 = some 4096 :=
  ⟨⟨_, rfl, by decide, by decide⟩, rfl, _, _, rfl, rfl, by decide, by decide⟩

end Watched

end MerlionKernel.Http2
