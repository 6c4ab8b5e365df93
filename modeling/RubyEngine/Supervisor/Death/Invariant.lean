import RubyEngine.Supervisor.World

/-!
# The loop next to a guest that dies

What the loop has read is the front of what the peers write, what it has received of the
guest are the first whole events of its output, and its terminal event stands behind them.
-/
namespace RubyEngine.Supervisor.Death

open Json (Value)
open Transition (Outcome Machine)
open Capability (Numbered callsOf repliesOf sequenceOf)
open Disconnect (badLength completes cutShort readsGuest)

variable {serde : SerdeJson} {request : Request} {w : World serde request} {n : Nat} {s : Loop}
  {past : List Effect} {answer : Answer}

/-! ## The events of a stream -/

theorem eventsIn_frames {ps : List Bytes} {vs : List Value} (h : Decodes serde ps vs)
    (rest : Bytes) : eventsIn serde (Framing.concat ps ++ rest) = vs ++ eventsIn serde rest := by
  have hvalues : ps.filterMap (fun p => (serde.fromSlice p).toOption) = vs := by
    induction h with
    | nil => rfl
    | cons hp _ ih => rw [List.filterMap_cons_some (by rw [hp.2]; rfl), ih]
  rw [eventsIn, Framing.wholes_concat maxFrame_lt_word h.fits, List.filterMap_append, hvalues]
  rfl

/-- What a reader holds is no whole frame. -/
theorem eventsIn_within {r : Reader} (h : r.Within) : eventsIn serde r.bytes = [] := by
  rw [eventsIn, Framing.wholes_eq_nil]
  · rfl
  · rintro ⟨hpos, -, hwhole⟩
    have hless := (h (by omega)).2.2
    omega

/-- Received values are the first events of any stream that goes on like this. -/
theorem front_of_decoded {values : List Value} {took stream : Bytes}
    (h : Decoded serde values took) (hfront : took <+: stream) :
    values <+: eventsIn serde stream := by
  obtain ⟨ps, tail, hps, rfl⟩ := h
  obtain ⟨more, rfl⟩ := hfront
  rw [List.append_assoc, eventsIn_frames hps]
  exact List.prefix_append _ _

/-- A reader that has taken a whole stream has returned all its events. -/
theorem events_of_parses {r : Reader} {values : List Value} {took : Bytes}
    (h : Parses serde r values took) : eventsIn serde took = values := by
  obtain ⟨ps, hps, rfl⟩ := h.frames
  rw [eventsIn_frames hps, eventsIn_within h.within, List.append_nil]

/-! ## What holds while the loop goes on -/

structure Inv (w : World serde request) (s : Loop) (past : List Effect) : Prop where
  reach : (machine serde request).Reaches s past
  phase : s.phase ≠ .lastSend
  heard : tookFrom .guest past <+: w.output
  told : tookFrom .host past <+: w.input
  completed : s.completed = true → s.guestClosed = true ∧
    enqueuedTo .host past = receivedFrom .guest past ++ [guestExit request w.status]

theorem inv_start (h : enter serde request = .ok s) :
    Inv w s [.enqueued .guest request.toValue] := by
  obtain ⟨_, _, hs⟩ := enter_cases h
  refine ⟨.start ⟨h, rfl⟩, ?_, by simp, by simp, ?_⟩ <;> rw [hs] <;> simp

section Facts

variable (h : Inv w s past)

include h

theorem Inv.balanced : Balanced serde s past := balanced_reaches h.reach

theorem Inv.front : receivedFrom .guest past <+: w.events :=
  front_of_decoded h.balanced.guestDecoded h.heard

/-- Before the terminal event everything from the guest has been relayed, and nothing else. -/
theorem Inv.relayed (hopen : s.completed = false) :
    enqueuedTo .host past = receivedFrom .guest past := by
  obtain ⟨synthesized, heq, _, _, hnone⟩ := (Relay.inv_reaches h.reach).relayed
  have hclosing : ¬ Relay.Closing s := by
    rintro (hc | hl)
    · rw [hopen] at hc
      cases hc
    · exact h.phase hl
  rw [heq, hnone hclosing, List.append_nil]

theorem Inv.idle (hopen : s.completed = false) (hclosed : s.guestClosed = true) :
    s.toHost.pending = false := by
  refine (Relay.inv_reaches h.reach).drained hclosed ?_
  rintro (hc | hl)
  · rw [hopen] at hc
    cases hc
  · exact h.phase hl

theorem Inv.owing (hdone : s.completed = true) : s.toHost.pending = true :=
  (Relay.inv_reaches h.reach).owing (Or.inl hdone)

theorem Inv.replies : repliesOf past = receivedFrom .host past := by
  rw [repliesOf, Replies.received_replies h.reach, List.tail_cons]

/-- When a call is unanswered, it is the outstanding one. -/
theorem Inv.outstanding (hcalls : (receivedFrom .host past).length < (callsOf past).length) :
    s.pendingSequence = some ((receivedFrom .host past).length + 1) := by
  have hcap := Capability.inv_reaches h.reach
  cases hp : s.pendingSequence with
  | none =>
    have hidle := hcap.idle hp
    rw [h.replies] at hidle
    omega
  | some k =>
    obtain ⟨rfl, hout⟩ := hcap.pending k hp
    rw [h.replies] at hout
    rw [hout]

end Facts

/-! ## What a read finds -/

/-- The next one of numbered values has the next number. -/
theorem numbered_next {values all : List Value} {v : Value} (h : Numbered all)
    (hnext : values ++ [v] <+: all) : sequenceOf v = some (values.length + 1) := by
  obtain ⟨rest, rfl⟩ := hnext
  have hget := congrArg (fun l => l[values.length]?) h
  simp only [List.getElem?_map] at hget
  rw [List.getElem?_append_left (by simp), List.getElem?_concat_length,
    List.getElem?_eq_getElem (by rw [List.length_range', List.length_append,
      List.length_append, List.length_singleton]; omega)] at hget
  simpa [Nat.add_comm] using hget

theorem prefix_of_isPrefixOf {a b : Bytes} (h : a.isPrefixOf b = true) : a <+: b :=
  List.isPrefixOf_iff_prefix.mp h

/-- A read of the host's output returns nothing yet, or the reply to the outstanding call. -/
theorem Inv.read_host (h : Inv w s past) {outcome : ReadOutcome}
    (hshow : w.hostShows past outcome = true) :
    ∃ out, (s.host.receive serde outcome).result = .ok out ∧
      (∀ v, out = some v → Answers request s v) ∧
      tookFrom .host past ++ (s.host.receive serde outcome).consumed <+: w.input := by
  have hparses := h.balanced.host
  cases outcome with
  | failed e =>
    rw [hparses.receive_transient w.answered h.told hshow]
    exact ⟨none, rfl, by simp, by simpa using h.told⟩
  | data waiting =>
    simp only [World.hostShows, Bool.and_eq_true, Bool.not_eq_true', List.isEmpty_eq_false_iff,
      decide_eq_true_eq] at hshow
    obtain ⟨⟨hne, hfront⟩, hcalls⟩ := hshow
    obtain ⟨out, hout, hnext, htook, _⟩ :=
      hparses.receive_stream w.answered hne (prefix_of_isPrefixOf hfront)
    refine ⟨out, hout, ?_, htook⟩
    rintro v rfl
    have hmem : v ∈ w.replies := hnext.subset (by simp)
    obtain ⟨hid, hkind⟩ := w.addressed v hmem
    exact ⟨hid, hkind, _, h.outstanding hcalls, numbered_next w.inOrder hnext⟩

/-- What a read of the guest's output finds: a refused length, more of a frame, a whole one, or
the end. -/
inductive Finds (w : World serde request) (s : Loop) (past : List Effect) (outcome : ReadOutcome)
    (received : Received) : Prop where
  | header : badLength s.guest = true →
      received.result = .error (IoError.other "Frame size limit") → Finds w s past outcome received
  | more : badLength s.guest = false → completes s.guest outcome = none →
      received.result = .ok none →
      ((∃ waiting, outcome = .data waiting) → received.consumed ≠ []) →
      Finds w s past outcome received
  | event (payload : Bytes) (v : Value) : badLength s.guest = false →
      completes s.guest outcome = some payload → serde.fromSlice payload = .ok v →
      received.result = .ok (some v) → received.consumed ≠ [] →
      receivedFrom .guest past ++ [v] <+: w.events → Finds w s past outcome received
  | garbled (payload : Bytes) (e : JsonError) : badLength s.guest = false →
      completes s.guest outcome = some payload → serde.fromSlice payload = .error e →
      received.result = .error e.toIo → Finds w s past outcome received
  | ended : badLength s.guest = false → completes s.guest outcome = none →
      received.result = .error disconnected → receivedFrom .guest past = w.events →
      Finds w s past outcome received

/-- A value that a read returns is that of the frame it completes. -/
theorem completes_of_value {r : Reader} (h : r.Within) {outcome : ReadOutcome} {v : Value}
    (hv : (r.receive serde outcome).result = .ok (some v)) :
    ∃ payload, completes r outcome = some payload ∧ serde.fromSlice payload = .ok v := by
  cases hbad : badLength r with
  | true =>
    rw [Disconnect.receive_badLength hbad outcome] at hv
    cases hv
  | false =>
    cases hcomp : completes r outcome with
    | none =>
      rcases Disconnect.receive_incomplete serde h hbad hcomp with
        hres | ⟨e, -, -, hres⟩ | ⟨-, hres⟩ <;>
      · rw [hres] at hv
        cases hv
    | some payload =>
      have hres := Disconnect.receive_completes serde h hcomp
      rw [hv] at hres
      cases hs : serde.fromSlice payload with
      | ok v' =>
        rw [hs] at hres
        rw [Option.some.inj (Except.ok.inj hres)]
        exact ⟨payload, rfl, hs⟩
      | error e =>
        rw [hs] at hres
        cases hres

/-- A read of what is there takes some of it, unless it fails. -/
theorem consumed_ne_nil {r : Reader} (h : r.Within) {waiting : Bytes} {out : Option Value}
    (hres : (r.receive serde (.data waiting)).result = .ok out) :
    (r.receive serde (.data waiting)).consumed ≠ [] := by
  have hc := Reader.receive_cases serde h (.data waiting)
  generalize r.receive serde (.data waiting) = received at hc hres
  cases hc with
  | header | closed | garbled => cases hres
  | more _ _ hchunk | value _ _ _ _ hchunk => exact hchunk

theorem consumed_of_value {r : Reader} (h : r.Within) {outcome : ReadOutcome} {v : Value}
    (hres : (r.receive serde outcome).result = .ok (some v)) :
    (r.receive serde outcome).consumed ≠ [] := by
  have hc := Reader.receive_cases serde h outcome
  generalize r.receive serde outcome = received at hc hres
  cases hc with
  | header | retry | fault | closed | more | garbled => cases hres
  | value _ _ _ _ hchunk => exact hchunk

/-- What has been read of the output stays a front of it. -/
theorem Inv.grows (h : Inv w s past) (hopen : s.guestClosed = false) {outcome : ReadOutcome}
    (hshow : w.guestShows past outcome = true) :
    tookFrom .guest past ++ (s.guest.receive serde outcome).consumed <+: w.output := by
  have hwithin := (h.balanced.guest hopen).within
  cases outcome with
  | failed e =>
    rw [Replies.consumed_failed hwithin, List.append_nil]
    exact h.heard
  | data waiting =>
    have hfront : (s.guest.receive serde (.data waiting)).consumed <+: waiting :=
      Replies.consumed_front hwithin
    refine ((List.prefix_append_right_inj _).mpr hfront).trans ?_
    simp only [World.guestShows] at hshow
    split at hshow
    · next hnil =>
      rw [List.isEmpty_iff.mp hnil, List.append_nil]
      exact h.heard
    · exact prefix_of_isPrefixOf hshow

theorem Inv.read_guest (h : Inv w s past) (hopen : s.guestClosed = false) {outcome : ReadOutcome}
    (hshow : w.guestShows past outcome = true) :
    Finds w s past outcome (s.guest.receive serde outcome) := by
  have hparses := h.balanced.guest hopen
  have hwithin := hparses.within
  have hgrows := h.grows hopen hshow
  cases hbad : badLength s.guest with
  | true => exact .header hbad (Disconnect.receive_badLength hbad outcome)
  | false =>
    cases hcomp : completes s.guest outcome with
    | some payload =>
      have hres := Disconnect.receive_completes serde hwithin hcomp
      cases hs : serde.fromSlice payload with
      | error e =>
        rw [hs] at hres
        exact .garbled payload e hbad hcomp hs hres
      | ok v =>
        rw [hs] at hres
        have hnext := front_of_decoded (hparses.receive hres).decoded hgrows
        exact .event payload v hbad hcomp hs hres (consumed_of_value hwithin hres) hnext
    | none =>
      rcases Disconnect.receive_incomplete serde hwithin hbad hcomp with
        hres | ⟨e, rfl, he, -⟩ | ⟨rfl, hres⟩
      · refine .more hbad hcomp hres ?_
        rintro ⟨waiting, rfl⟩
        exact consumed_ne_nil hwithin hres
      · simp [World.guestShows, he] at hshow
      · refine .ended hbad hcomp hres ?_
        simp only [World.guestShows, List.isEmpty_nil, if_true, decide_eq_true_eq] at hshow
        rw [World.events, ← hshow]
        exact (events_of_parses hparses).symm

/-! ## What a step preserves -/

theorem step_memory_allowed {bytes : Option Nat} (hphase : s.phase = .memory)
    (ha : w.allows n s past (.resident bytes) = true) :
    step serde request s (.resident bytes) = some (.next { s with phase := .host } []) := by
  simp only [World.allows, hphase, Bool.not_eq_true'] at ha
  simp only [step, hphase, memoryPhase, ha, Bool.and_false, Bool.false_eq_true, if_false]

/-- No event of the guest is a completed one. -/
theorem Inv.unfinished (h : Inv w s past) (hopen : s.guestClosed = false) {outcome : ReadOutcome}
    (hshow : w.guestShows past outcome = true) {v : Value}
    (hres : (s.guest.receive serde outcome).result = .ok (some v)) :
    (v.index "kind").asStr ≠ some "completed" := by
  have hnext := front_of_decoded ((h.balanced.guest hopen).receive hres).decoded
    (h.grows hopen hshow)
  exact w.unfinished v (hnext.subset (by simp))

theorem Inv.next (h : Inv w s past) (ha : w.allows n s past answer = true) {t : Loop}
    {effects : List Effect} (hstep : step serde request s answer = some (.next t effects)) :
    Inv w t (past ++ effects) := by
  have hreach : (machine serde request).Reaches t (past ++ effects) := h.reach.next hstep
  have hc := step_cases hstep
  cases hc with
  | idle _ phase _ henter =>
    exact ⟨hreach, henter, by simpa using h.heard, by simpa using h.told,
      by simpa using h.completed⟩
  | expired _ hphase _ => simp [World.allows, hphase] at ha
  | ceiling bytes _ hphase _ _ =>
    rw [step_memory_allowed hphase ha] at hstep
    simp at hstep
  | hostTook outcome hphase hres | reply outcome _ _ hphase hres _ _ =>
    have hshow : w.hostShows past outcome = true := by simpa [World.allows, hphase] using ha
    obtain ⟨_, _, _, htook⟩ := h.read_host hshow
    exact ⟨hreach, by simp, by simpa using h.heard, by simpa using htook,
      by simpa using h.completed⟩
  | guestSent outcome hphase _ | hostSent outcome hphase _ _ =>
    exact ⟨hreach, by simp, by simpa using h.heard, by simpa using h.told,
      by simpa using h.completed⟩
  | guestTook outcome hphase hopen hidle hg hres =>
    have hshow : w.guestShows past outcome = true := by
      simpa [World.allows, hphase, readsGuest, hopen, hidle, hg] using ha
    exact ⟨hreach, by simp, by simpa using h.grows hg hshow, by simpa using h.told,
      by simp [hopen]⟩
  | event outcome v s' _ hphase hopen hg hres _ _ hadmit hload =>
    have hshow : w.guestShows past outcome = true := by
      simpa [World.allows, hphase, readsGuest, hopen, hload.drained, hg] using ha
    cases hadmit with
    | completed hk => exact absurd hk (h.unfinished hg hshow hres)
    | log | call =>
      exact ⟨hreach, by simp, by simpa using h.grows hg hshow, by simpa using h.told,
        by simp [hopen]⟩
  | guestEof outcome e hphase hopen hidle hg hres _ =>
    have hshow : w.guestShows past outcome = true := by
      simpa [World.allows, hphase, readsGuest, hopen, hidle, hg] using ha
    exact ⟨hreach, by simp, by simpa using h.grows hg hshow, by simpa using h.told,
      by simp [hopen]⟩
  | childExited status _ hphase hclose hopen _ =>
    have hstatus : w.death ≤ n ∧ status = w.status := by simpa [World.allows, hphase] using ha
    exact ⟨hreach, by simp, by simpa using h.heard, by simpa using h.told,
      by simp [hclose, h.relayed hopen, hstatus.2]⟩

/-- A run that ends well ends with the failure for the status, behind all that was received. -/
theorem Inv.exit_ok (h : Inv w s past) (ha : w.allows n s past answer = true)
    {effects : List Effect} (hstep : step serde request s answer = some (.exit (.ok ()) effects)) :
    s.guestClosed = true ∧
      enqueuedTo .host (past ++ effects) =
        receivedFrom .guest past ++ [guestExit request w.status] ∧
      sentTo .host (past ++ effects) =
        wire serde (receivedFrom .guest past ++ [guestExit request w.status]) := by
  generalize hres : (Except.ok () : Except IoError Unit) = result at hstep
  have hc := step_cases hstep
  cases hc with
  | expiredPending hphase => simp [World.allows, hphase] at ha
  | lastSent _ hphase => exact absurd hphase h.phase
  | done outcome hphase _ hdone hdrained =>
    obtain ⟨hclosed, hevents⟩ := h.completed hdone
    have htotal := (h.balanced.toHost.send outcome).total
    rw [(Writer.not_pending_iff _).mp hdrained, List.append_nil, hevents] at htotal
    exact ⟨hclosed, by simpa using hevents, by simpa using htotal⟩
  | failed => cases hres

/-! ## What has been lost -/

/-- Behind the end of the output nothing is received. -/
theorem closed_next (hclosed : s.guestClosed = true) {t : Loop} {effects : List Effect}
    (hstep : step serde request s answer = some (.next t effects)) :
    t.guestClosed = true ∧ receivedFrom .guest (past ++ effects) = receivedFrom .guest past := by
  have hc := step_cases hstep
  cases hc with
  | guestTook _ _ _ _ hg | event _ _ _ _ _ _ hg | guestEof _ _ _ _ _ hg =>
    rw [hclosed] at hg
    cases hg
  | idle | expired | ceiling | hostTook | reply | guestSent | hostSent | childExited =>
    exact ⟨hclosed, by simp⟩

/-- A step that loses events holds the output for ended. -/
theorem closed_of_loses (h : Inv w s past) (hloses : w.loses s past answer = true) :
    ∃ t effects, step serde request s answer = some (.next t effects) ∧ t.guestClosed = true ∧
      (receivedFrom .guest (past ++ effects)).length < w.events.length := by
  rw [World.loses, Bool.and_eq_true, decide_eq_true_eq] at hloses
  obtain ⟨hcut, hless⟩ := hloses
  cases answer with
  | read outcome =>
    obtain ⟨hreads, payload, e, hcomp, hs, hcategory⟩ := Disconnect.cutShort_iff.mp hcut
    simp only [readsGuest, Bool.and_eq_true, decide_eq_true_eq, Bool.not_eq_true'] at hreads
    obtain ⟨⟨⟨hphase, hopen⟩, hidle⟩, hg⟩ := hreads
    have hres := Disconnect.receive_completes serde (h.balanced.guest hg).within hcomp
    rw [hs] at hres
    have hkind := (Disconnect.toIo_kind e).mpr hcategory
    refine ⟨{ s with phase := .childExit, guest := (s.guest.receive serde outcome).reader,
                     guestClosed := true },
      [.took .guest (s.guest.receive serde outcome).consumed], ?_, rfl, by simpa using hless⟩
    simp only [step, hphase, guestPhase, hopen, hidle, hg, hres, hkind, Bool.not_false,
      Bool.and_self, if_true]
  | clock | resident | write | waited | polled => cases hcut

/-- Without such a step the end of the output stands behind all the events. -/
theorem whole_next {t : Loop} {effects : List Effect} (h : Inv w s past)
    (ha : w.allows n s past answer = true) (hkeeps : w.loses s past answer = false)
    (hwhole : s.guestClosed = true → receivedFrom .guest past = w.events)
    (hstep : step serde request s answer = some (.next t effects)) :
    t.guestClosed = true → receivedFrom .guest (past ++ effects) = w.events := by
  intro hclosed
  cases hg : s.guestClosed with
  | true => rw [(closed_next hg hstep).2, hwhole hg]
  | false =>
    obtain ⟨hreads, outcome, e, rfl, hres, hkind⟩ := Disconnect.closed_step hstep hclosed hg
    have hphase := hreads
    simp only [readsGuest, Bool.and_eq_true, decide_eq_true_eq, Bool.not_eq_true'] at hphase
    obtain ⟨⟨⟨hphase, hopen⟩, hidle⟩, -⟩ := hphase
    have hshow : w.guestShows past outcome = true := by
      simpa [World.allows, hphase, hreads] using ha
    have hall : receivedFrom .guest past = w.events := by
      cases h.read_guest hg hshow with
      | header _ hother =>
        rw [hres] at hother
        rw [Except.error.inj hother] at hkind
        cases hkind
      | more _ _ hok | event _ _ _ _ _ hok =>
        rw [hres] at hok
        cases hok
      | ended _ _ _ hall => exact hall
      | garbled payload je _ hcomp hs herror =>
        rw [hres] at herror
        rw [Except.error.inj herror, Disconnect.toIo_kind] at hkind
        have hcut := Disconnect.cutShort_iff.mpr ⟨hreads, payload, je, hcomp, hs, hkind⟩
        rw [World.loses, hcut, Bool.true_and, decide_eq_false_iff_not, Nat.not_lt] at hkeeps
        exact h.front.eq_of_length_le hkeeps
    have hquiet : receivedFrom .guest effects = [] := by
      have hstep' := hstep
      simp only [step, hphase, guestPhase, hopen, hidle, hg, hres, hkind, Bool.not_false,
        Bool.and_self, if_true, Option.some.injEq, Outcome.next.injEq] at hstep'
      rw [← hstep'.2]
      simp
    rw [receivedFrom_append, hquiet, List.append_nil, hall]

end RubyEngine.Supervisor.Death
