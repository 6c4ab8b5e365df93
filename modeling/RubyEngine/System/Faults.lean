import RubyEngine.System.Runs

/-!
# Where the supervisor gives up

A run of the supervisor fails where a call of the system fails, where the caller is gone, and
where the guest outgrows its memory in the middle of a frame. Nothing that the guest or the
caller writes makes it fail, in whatever order the three take their turns.
-/
namespace RubyEngine.System

open Json (Number Value)
open Transition (Outcome)
open Supervisor
open Supervisor.Capability (callsOf isCall numbered_append repliesOf sequenceOf)
open Guest.Process (OnWire Sendable heard printed sent took)

/-- An answer of the operating system that no loop can go on from, and the error it leads to: a
read, a write, a wait or a poll fails, a write takes nothing, the caller has closed its pipe, or
the guest has outgrown its memory, which its program brings about. -/
inductive Fault : Supervisor.Answer → IoError → Prop where
  | read (e : IoError) : e.transient = false → Fault (.read (.failed e)) e
  | closed : Fault (.read (.data [])) disconnected
  | write (e : IoError) : e.transient = false → Fault (.write (.failed e)) e
  | full : Fault (.write (.room 0)) stoppedAccepting
  | waited (e : IoError) : Fault (.waited (.error e)) e
  | polled (e : IoError) : e.kind ≠ .interrupted → Fault (.polled (.error e)) e
  | ceiling (n : Nat) : MEMORY_CEILING < n →
      Fault (.resident (some n)) (IoError.other "Guest memory ceiling exceeded during output")

/-! ## The two ends of a pipe -/

theorem send_fault {w : Writer} {outcome : WriteOutcome} {e : IoError}
    (h : (w.send outcome).result = .error e) : Fault (.write outcome) e := by
  unfold Writer.send at h
  split at h
  · next hp =>
    have hpos := List.length_pos_of_ne_nil ((Writer.pending_iff w).mp hp)
    have hchunk : 0 < CHUNK := by decide
    cases outcome with
    | failed e' =>
      dsimp only at h
      split at h
      · cases h
      · next hfinal =>
        cases h
        exact .write e (Bool.eq_false_of_not_eq_true hfinal)
    | room n =>
      dsimp only at h
      split at h
      · next hzero =>
        cases h
        obtain rfl : n = 0 := by omega
        exact .full
      · cases h
  · cases h

/-- A reader of a stream of frames fails with the call that it makes. -/
theorem receive_fault {serde : SerdeJson} {r : Reader} {values vs : List Value}
    {before stream : Bytes} {outcome : ReadOutcome} {e : IoError}
    (h : Parses serde r values before) (hs : Stream serde vs stream) (hbefore : before <+: stream)
    (hshow : ∀ bytes, outcome = .data bytes → before ++ bytes <+: stream)
    (herror : (r.receive serde outcome).result = .error e) : Fault (.read outcome) e := by
  cases outcome with
  | failed e' =>
    cases htransient : e'.transient with
    | true =>
      rw [h.receive_transient hs hbefore htransient] at herror
      cases herror
    | false =>
      have hc := Reader.receive_cases serde h.within (.failed e')
      generalize r.receive serde (.failed e') = received at hc herror
      cases hc with
      | header _ hlen hbad => exact absurd hbad (h.header hs hbefore hlen)
      | retry => cases herror
      | fault =>
        cases herror
        exact .read e htransient
  | data bytes =>
    rcases List.eq_nil_or_concat bytes with rfl | ⟨init, last, rfl⟩
    · have hc := Reader.receive_cases serde h.within (.data [])
      generalize r.receive serde (.data []) = received at hc herror
      generalize hw : ReadOutcome.data [] = outcome at hc
      cases hc with
      | header _ hlen hbad => exact absurd hbad (h.header hs hbefore hlen)
      | retry | fault => cases hw
      | closed =>
        cases herror
        exact .closed
      | more | value => cases herror
      | garbled chunk after _ _ hchunk =>
        have hnil := (List.append_eq_nil_iff.mp (ReadOutcome.data.inj hw).symm).1
        exact absurd hnil hchunk
    · obtain ⟨out, hout, -⟩ := h.receive_stream hs (by simp) (hshow _ rfl)
      rw [hout] at herror
      cases herror

/-- What a reader of a stream returns is the next of its values. -/
theorem receive_next {serde : SerdeJson} {r : Reader} {values vs : List Value}
    {before stream : Bytes} {outcome : ReadOutcome} {out : Option Value}
    (h : Parses serde r values before) (hs : Stream serde vs stream) (hbefore : before <+: stream)
    (hshow : ∀ bytes, outcome = .data bytes → before ++ bytes <+: stream)
    (hresult : (r.receive serde outcome).result = .ok out) : values ++ out.toList <+: vs := by
  refine decoded_front (h.receive hresult).decoded hs ?_
  cases outcome with
  | failed e =>
    rw [Replies.consumed_failed h.within, List.append_nil]
    exact hbefore
  | data bytes =>
    have hfront : (r.receive serde (.data bytes)).consumed <+: bytes :=
      Replies.consumed_front h.within
    exact ((List.prefix_append_right_inj _).mpr hfront).trans (hshow bytes rfl)

/-- An idle writer takes what fits into a frame. -/
theorem enqueue_fits {serde : SerdeJson} {w : Writer} (hidle : w.pending = false) {v : Value}
    (hfits : (serde.toVec v).length ≤ MAX_FRAME) : ∃ w', w.enqueue serde v = (w', .ok ()) := by
  rcases Death.enqueue_idle hidle v with ⟨hlarge, -⟩ | ⟨-, henqueue⟩
  · exact absurd hfits (Nat.not_le.mpr hlarge)
  · exact henqueue

/-! ## What the supervisor finds -/

section

variable {serde : SerdeJson} {target : Isolation.Target} {number : Isolation.Syscall → Int64}
  {request : Request} {f : UInt64 → Number} {σ : System} {s : Loop} {history : List Effect}

/-- What the guest has heard all of has been written to it as a whole. -/
theorem Joined.drained (hd : serde.Documented) (ha : Admitted serde request)
    (h : Joined serde target number request f σ) (hrun : σ.loop = .running s history)
    (hall : (enqueuedTo .guest history).length ≤ (heard σ.guest.history).length) :
    s.toGuest.pending = false := by
  have hloop := h.loop
  have hguestIn := h.guestIn
  have hcarried := h.carried_offered hd ha
  have hhistory : σ.loop.history = history := by
    rw [hrun]
    rfl
  rw [hrun] at hloop
  rw [hhistory] at hguestIn hcarried
  have htotal := (balanced_reaches hloop.reaches).toGuest.total
  obtain ⟨qs, rest, hqs, htook⟩ := h.read
  have hwire := wire_eq_concat fun v hv => (hcarried v hv).bounded
  have hfits : ∀ p ∈ (enqueuedTo .guest history).map serde.toVec, Framing.Fits MAX_FRAME p := by
    intro p hp
    obtain ⟨v, hv, rfl⟩ := List.mem_map.mp hp
    exact hd.fits (hcarried v hv).bounded
  have hfront : Framing.concat qs ++ rest <+:
      Framing.concat ((enqueuedTo .guest history).map serde.toVec) ++ [] := by
    rw [List.append_nil, ← hwire, ← htotal, ← htook]
    exact hguestIn.trans (List.prefix_append _ _)
  obtain ⟨later, hlater, -⟩ :=
    Framing.cut_concat maxFrame_lt_word hqs.fits hfits partial_nil hfront
  have hlength := congrArg List.length hlater
  rw [List.length_map, List.length_append, List.Forall₂.length_eq hqs] at hlength
  obtain rfl : later = [] := List.eq_nil_of_length_eq_zero (by omega)
  -- all frames have been taken, so that all of them have been sent
  rw [List.append_nil] at hlater
  rw [hwire, hlater] at htotal
  have htaken := hguestIn.length_le
  have hsum := congrArg List.length htotal
  rw [htook] at htaken
  rw [List.length_append] at htaken hsum
  exact (Writer.not_pending_iff _).mpr (List.eq_nil_of_length_eq_zero (by omega))

theorem numbered_get {values : List Value} {v : Value} {i : Nat} (h : Capability.Numbered values)
    (hget : values[i]? = some v) : sequenceOf v = some (i + 1) := by
  obtain ⟨hlt, hval⟩ := List.getElem?_eq_some_iff.mp hget
  have hfront : values.take i ++ [v] <+: values := by
    rw [← hval, List.take_append_getElem hlt]
    exact List.take_prefix _ _
  have hnext := Death.numbered_next h hfront
  rwa [List.length_take, Nat.min_eq_left hlt.le] at hnext

/-- The guest has heard the reply to each call that it has made but for the last one. -/
theorem Joined.calls_heard (hd : serde.Documented) (hf : Rereads serde f)
    (h : Joined serde target number request f σ) (hrun : σ.loop = .running s history) :
    (callsOf history).length ≤ (heard σ.guest.history).length := by
  have hloop := h.loop
  rw [hrun] at hloop
  obtain ⟨events, hwire, hreceived⟩ := h.received_guest hd hf hrun
  have hfilter := hreceived.filter isCall
  rw [calls_reread fun v hv => h.sendable hd v (hwire.front.subset hv),
    ← calls_received hloop.reaches] at hfilter
  exact hfilter.length_le.trans hwire.spaced.calls

/-- A reply that comes in answers the outstanding call, and the guest is ready for it. -/
theorem Joined.answers (hd : serde.Documented) (hf : Rereads serde f) (ha : Admitted serde request)
    (h : Joined serde target number request f σ) (hrun : σ.loop = .running s history)
    {reply : Value}
    (hnext : receivedFrom .host history ++ [reply] <+: σ.caller.replies.map Prod.snd) :
    Answers request s reply ∧ (serde.toVec reply).length ≤ MAX_FRAME ∧
      s.toGuest.pending = false := by
  have hloop := h.loop
  have hcalled := h.caller_calls hd hf ha
  have hheard := h.calls_heard hd hf hrun
  have hhistory : σ.loop.history = history := by
    rw [hrun]
    rfl
  rw [hrun] at hloop
  rw [hhistory] at hcalled
  have hcap := Capability.inv_reaches hloop.reaches
  have hoffered := Replies.received_replies hloop.reaches
  have hreplies : repliesOf history = receivedFrom .host history := by
    rw [repliesOf, hoffered, List.tail_cons]
  -- the caller has read the call that it answers
  have hget : (σ.caller.replies.map Prod.snd)[(receivedFrom .host history).length]? =
      some reply := by
    obtain ⟨later, hlater⟩ := hnext
    rw [← hlater, List.append_assoc, List.getElem?_append_right (Nat.le_refl _), Nat.sub_self]
    rfl
  rw [List.getElem?_map, Option.map_eq_some_iff] at hget
  obtain ⟨⟨payload, v⟩, hget, rfl⟩ := hget
  obtain ⟨call, hcall, hreply⟩ := h.replies _ payload v hget
  have hgot : (callsOf history)[(receivedFrom .host history).length]? = some call := by
    obtain ⟨later, hlater⟩ := hcalled
    rw [← hlater, List.getElem?_append_left (List.getElem?_eq_some_iff.mp hcall).1, hcall]
  have hlong := (List.getElem?_eq_some_iff.mp hgot).1
  have hpermitted := hcap.safe.permitted call (List.mem_of_getElem? hgot)
  have hsequence : sequenceOf call = some ((receivedFrom .host history).length + 1) :=
    numbered_get hcap.safe.calls hgot
  have hpending : s.pendingSequence = some ((receivedFrom .host history).length + 1) := by
    cases hp : s.pendingSequence with
    | none =>
      have hidle := hcap.idle hp
      rw [hreplies] at hidle
      omega
    | some n =>
      obtain ⟨hn, hout⟩ := hcap.pending n hp
      rw [hn, hout, hreplies]
  refine ⟨⟨⟨hreply.protocol, ?_⟩, hreply.kind, _, hpending, ?_⟩, hreply.forwarded, ?_⟩
  · rw [hreply.identity]
    exact hpermitted.identity
  · rw [hreply.sequence]
    exact hsequence
  · refine h.drained hd ha hrun ?_
    rw [hoffered, List.length_cons]
    omega

/-- An event that comes in is one that the supervisor admits. -/
theorem Joined.admits (hd : serde.Documented) (hf : Rereads serde f) (ha : Admitted serde request)
    (h : Joined serde target number request f σ) (hrun : σ.loop = .running s history)
    {events : List Value} (hwire : OnWire serde σ.guest.history events) {v : Value}
    (hnext : receivedFrom .guest history ++ [v] <+: events.map (Value.reread f)) (r : Reader) :
    (v.index "protocol").asStr = some PROTOCOL ∧
      (v.index "execution_id").asStr = some request.executionId ∧
      (serde.toVec v).length ≤ MAX_FRAME ∧
      ∃ s', admitEvent request { s with guest := r } v = .ok s' ∧ s'.toHost = s.toHost := by
  have hloop := h.loop
  have hheard := (h.heard_front hd hf ha).length_le
  have hhonest := h.honest hd hf ha (h.clean (by rw [hrun]; rfl))
  have hhistory : σ.loop.history = history := by
    rw [hrun]
    rfl
  rw [hrun] at hloop
  rw [hhistory, List.length_map] at hheard
  have hcap := Capability.inv_reaches hloop.reaches
  have hsendable : ∀ u ∈ events, Sendable serde u :=
    fun u hu => h.sendable hd u (hwire.front.subset hu)
  have hv : v ∈ events.map (Value.reread f) := hnext.subset (by simp)
  obtain ⟨u, hu, rfl⟩ := List.mem_map.mp hv
  have hmem := hwire.front.subset hu
  refine ⟨?_, ?_, ((hsendable u hu).reread f).carried hd |>.bounded, ?_⟩
  · rw [asStr_index_reread]
    exact hhonest.protocol u hmem
  · rw [asStr_index_reread]
    exact hhonest.identity u hmem
  rcases hhonest.kind u hmem with hlog | hcall | hcompleted
  · refine ⟨{ s with guest := r }, ?_, rfl⟩
    simp only [admitEvent, asStr_index_reread, hlog]
  · have hkind : (u.index "kind").asStr = some "call" := of_decide_eq_true hcall
    have hfilter : callsOf history ++ [u] <+: events.filter isCall := by
      have hall := hnext.filter isCall
      rwa [calls_reread hsendable, List.filter_append, ← calls_received hloop.reaches,
        (hsendable u hu).reread_call hcall, List.filter_cons_of_pos hcall, List.filter_nil] at hall
    have hprinted := hfilter.trans (hwire.front.filter isCall)
    have hcalls := hwire.spaced.calls
    have hpermitted := hhonest.permitted u (hprinted.subset (by simp))
    have hless := hfilter.length_le
    have hlimit := hprinted.length_le.trans hhonest.limit
    rw [hcap.safe.toGuest, List.length_cons] at hheard
    rw [List.length_append, List.length_singleton] at hless hlimit
    have hidle : s.pendingSequence = none := by
      cases hp : s.pendingSequence with
      | none => rfl
      | some n =>
        have hout := (hcap.pending n hp).2
        omega
    have hmay : Calls request { s with guest := r } (u.reread f) := by
      rw [(hsendable u hu).reread_call hcall]
      refine ⟨hpermitted.executes, hidle, ?_, ?_, hpermitted.path⟩
      · show sequenceOf u = some (s.sequence + 1)
        rw [hcap.sequence]
        exact Death.numbered_next hhonest.numbered hprinted
      · show s.sequence + 1 ≤ request.limits.calls
        rw [hcap.sequence]
        omega
    refine ⟨{ s with guest := r, sequence := s.sequence + 1,
                     pendingSequence := some (s.sequence + 1) }, ?_, rfl⟩
    simp only [admitEvent, asStr_index_reread, hkind, mayCall_iff.mpr hmay, if_true]
  · refine ⟨{ s with guest := r, completed := true }, ?_, rfl⟩
    simp only [admitEvent, asStr_index_reread, hcompleted]

/-! ## Every step -/

variable {outcome : ReadOutcome} {answer : Supervisor.Answer} {e : IoError} {effects : List Effect}

theorem Joined.host_fault (hd : serde.Documented) (hf : Rereads serde f)
    (ha : Admitted serde request) (h : Joined serde target number request f σ)
    (hrun : σ.loop = .running s history) (hphase : s.phase = .host)
    (hreads : σ.LoopReads s (.read outcome))
    (hexit : hostPhase serde request s outcome = .exit (.error e) effects) :
    Fault (.read outcome) e := by
  have hloop := h.loop
  have hout := h.hostOut (by rw [hrun]; rfl)
  have hhistory : σ.loop.history = history := by
    rw [hrun]
    rfl
  rw [hrun] at hloop
  rw [hhistory] at hout
  have hparses := (balanced_reaches hloop.reaches).host
  have hstream := stream_concat h.decodes
  have hshow : ∀ bytes, outcome = .data bytes →
      tookFrom .host history ++ bytes <+: σ.caller.stream := by
    rintro bytes rfl
    rcases hreads.1 hphase with rfl | hfront
    · rw [List.append_nil]
      exact hout.trans h.callerOut
    · rw [hhistory] at hfront
      exact hfront.trans h.callerOut
  simp only [hostPhase] at hexit
  split at hexit
  · next e' herror =>
    cases hexit
    exact receive_fault hparses hstream (hout.trans h.callerOut) hshow herror
  · cases hexit
  · next reply hreply =>
    have hnext := receive_next hparses hstream (hout.trans h.callerOut) hshow hreply
    obtain ⟨⟨⟨hprotocol, hid⟩, hkind, n, hpending, hsequence⟩, hbounded, hidle⟩ :=
      h.answers hd hf ha hrun hnext
    obtain ⟨w, henqueue⟩ := enqueue_fits hidle hbounded
    simp only [acceptReply, hprotocol, hid, hkind, hpending, hsequence, henqueue, ne_eq,
      not_true_eq_false, or_self, if_false, Option.some.injEq, String.reduceEq,
      Option.isNone_some, Bool.false_eq_true] at hexit
    cases hexit

/-- What a read of the guest's output finds is more of the frames of its events. -/
theorem Joined.guest_shows (hd : serde.Documented) (hf : Rereads serde f)
    (h : Joined serde target number request f σ) (hrun : σ.loop = .running s history)
    (hphase : s.phase = .guest) (hreads : σ.LoopReads s (.read outcome)) :
    ∃ events, OnWire serde σ.guest.history events ∧
      Stream serde (events.map (Value.reread f)) (wire serde events) ∧
      tookFrom .guest history <+: wire serde events ∧
      ∀ bytes, outcome = .data bytes → tookFrom .guest history ++ bytes <+: wire serde events := by
  have hout := h.guestOut (by rw [hrun]; rfl)
  have hhistory : σ.loop.history = history := by
    rw [hrun]
    rfl
  rw [hhistory] at hout
  obtain ⟨events, hwire, -⟩ := h.received_guest hd hf hrun
  have hsent := hwire.stream
  refine ⟨events, hwire,
    stream_wire hd hf fun v hv => (h.sendable hd v (hwire.front.subset hv)).carried hd,
    hout.trans hsent, ?_⟩
  rintro bytes rfl
  have hshows := hreads.2 hphase
  rw [GuestShows, hhistory] at hshows
  split at hshows
  · next hnil =>
    rw [hnil, List.append_nil]
    exact hout.trans hsent
  · exact hshows.trans hsent

theorem Joined.guest_fault (hd : serde.Documented) (hf : Rereads serde f)
    (ha : Admitted serde request) (h : Joined serde target number request f σ)
    (hrun : σ.loop = .running s history) (hphase : s.phase = .guest)
    (hreads : σ.LoopReads s (.read outcome))
    (hexit : guestPhase serde request s outcome = .exit (.error e) effects) :
    Fault (.read outcome) e := by
  have hloop := h.loop
  rw [hrun] at hloop
  obtain ⟨events, hwire, hstream, hout, hshow⟩ := h.guest_shows hd hf hrun hphase hreads
  unfold guestPhase at hexit
  split at hexit
  · next hopen =>
    simp only [Bool.and_eq_true, Bool.not_eq_true'] at hopen
    obtain ⟨⟨-, hidle⟩, hguest⟩ := hopen
    have hparses := (balanced_reaches hloop.reaches).guest hguest
    dsimp only at hexit
    split at hexit
    · next v hv =>
      have hnext := receive_next hparses hstream hout hshow hv
      obtain ⟨hprotocol, hid, hbounded, s', hadmit, htoHost⟩ := h.admits hd hf ha hrun hwire
        hnext (s.guest.receive serde outcome).reader
      obtain ⟨w, henqueue⟩ := enqueue_fits hidle hbounded
      rw [acceptEvent, if_neg (by simp [hprotocol, hid]), hadmit] at hexit
      dsimp only at hexit
      rw [htoHost, henqueue] at hexit
      cases hexit
    · cases hexit
    · next e' herror =>
      split at hexit
      · cases hexit
      · cases hexit
        exact receive_fault hparses hstream hout hshow herror
  · cases hexit

/-- The diagnostics of the supervisor fit into a frame. -/
theorem synthesized_fits (hd : serde.Documented) (ha : Admitted serde request) {v : Value}
    (h : Relay.Synthesized request v) : (serde.toVec v).length ≤ MAX_FRAME :=
  ((sendable_synthesized hd ha h).1.carried hd).bounded

/-- A diagnostic that is handed to an idle writer goes out. -/
theorem enqueue_synthesized (hd : serde.Documented) (ha : Admitted serde request) {w w' : Writer}
    (hidle : w.pending = false) {v : Value} (h : Relay.Synthesized request v) :
    w.enqueue serde v ≠ (w', .error e) := by
  intro herror
  obtain ⟨w'', henqueue⟩ := enqueue_fits hidle (synthesized_fits hd ha h)
  rw [henqueue] at herror
  cases herror

theorem Joined.fault (hd : serde.Documented) (hf : Rereads serde f)
    (ha : Admitted serde request) (h : Joined serde target number request f σ)
    (hrun : σ.loop = .running s history) (hreads : σ.LoopReads s answer)
    (hexit : step serde request s answer = some (.exit (.error e) effects)) : Fault answer e := by
  unfold step at hexit
  split at hexit
  · next expired hphase =>
    have hphase := Option.some.inj hexit
    unfold deadlinePhase at hphase
    split at hphase
    · split at hphase
      · cases hphase
      · next hpending =>
        split at hphase
        · next w e' henqueue =>
          exact absurd henqueue
            (enqueue_synthesized hd ha (Bool.eq_false_of_not_eq_true hpending) .wallTimeout)
        · cases hphase
    · cases hphase
  · next outcome hphase =>
    simp only [lastSendPhase, Option.some.injEq, Outcome.exit.injEq] at hexit
    exact send_fault hexit.1
  · next bytes hphase =>
    have hphase := Option.some.inj hexit
    unfold memoryPhase at hphase
    split at hphase
    · next hkill =>
      simp only [Bool.and_eq_true, Option.any_eq_true, decide_eq_true_eq] at hkill
      obtain ⟨-, n, rfl, hlarge⟩ := hkill
      split at hphase
      · cases hphase
        exact .ceiling n hlarge
      · next hpending =>
        split at hphase
        · next w e' henqueue =>
          exact absurd henqueue
            (enqueue_synthesized hd ha (Bool.eq_false_of_not_eq_true hpending) .memoryLimit)
        · cases hphase
    · cases hphase
  · next outcome hphase =>
    exact h.host_fault hd hf ha hrun hphase hreads (Option.some.inj hexit)
  · next outcome hphase =>
    have hsent := Option.some.inj hexit
    unfold toGuestPhase at hsent
    dsimp only at hsent
    split at hsent
    · next e' herror =>
      cases hsent
      exact send_fault herror
    · cases hsent
  · next outcome hphase =>
    have hsent := Option.some.inj hexit
    unfold toHostPhase at hsent
    dsimp only at hsent
    split at hsent
    · next e' herror =>
      cases hsent
      exact send_fault herror
    · split at hsent <;> cases hsent
  · next outcome hphase =>
    exact h.guest_fault hd hf ha hrun hphase hreads (Option.some.inj hexit)
  · next status hphase =>
    have hwaited := Option.some.inj hexit
    unfold childExitPhase at hwaited
    split at hwaited
    · next hopen =>
      rw [Bool.and_eq_true, Bool.not_eq_true'] at hopen
      split at hwaited
      · cases hwaited
        exact .waited _
      · cases hwaited
      · next status =>
        have hloop := h.loop
        rw [hrun] at hloop
        have hidle : s.toHost.pending = false := by
          refine (Relay.inv_reaches hloop.reaches).drained hopen.1 ?_
          simp [Relay.Closing, hopen.2, hphase]
        split at hwaited
        · next w e' henqueue =>
          exact absurd henqueue (enqueue_synthesized hd ha hidle (.guestExit status))
        · cases hwaited
    · cases hwaited
  · next result hphase =>
    have hpolled := Option.some.inj hexit
    unfold pollPhase at hpolled
    split at hpolled
    · cases hpolled
    · next e' =>
      split at hpolled
      · cases hpolled
      · next hkind =>
        cases hpolled
        exact .polled _ hkind
  · cases hexit

end

end RubyEngine.System
