import RubyEngine.System.Agreement

/-!
# When nothing is on its way

The three processes do not wait for each other in a circle. Where the guest waits for a
frame and nothing is on its way between any two of them, the caller has read a call that it
has not answered, and only one.
-/
namespace RubyEngine.System

open Json (Number Value)
open Transition (Outcome Machine)
open Transition.Machine (Position At)
open Supervisor
open Supervisor.Capability (callsOf isCall)
open Guest.Process (front heard printed sent took)

variable {serde : SerdeJson} {target : Isolation.Target} {number : Isolation.Syscall → Int64}
  {request : Request} {f : UInt64 → Number} {σ : System}

/-! ## Streams that have been read -/

theorem decodedFrames_wire (hd : serde.Documented) (hf : Rereads serde f) {vs : List Value}
    (h : ∀ v ∈ vs, Carried serde v) :
    decodedFrames serde (wire serde vs) = vs.map (Value.reread f) := by
  have hback : decodedFrames serde (wire serde vs) <+: vs.map (Value.reread f) :=
    decodedFrames_front (stream_wire hd hf h) List.prefix_rfl
  have hdecoded : Decoded serde (vs.map (Value.reread f)) (wire serde vs) := by
    refine ⟨vs.map serde.toVec, [], decodes_printed hd hf h, ?_⟩
    rw [List.append_nil, wire_eq_concat fun v hv => (h v hv).bounded]
  exact hback.eq_of_length_le (hdecoded.prefix_of List.prefix_rfl).length_le

/-- A guest that waits behind all that was written for it has heard all of it. -/
theorem all_heard (hd : serde.Documented) (hf : Rereads serde f) {vs : List Value}
    (hcarried : ∀ v ∈ vs, Carried serde v) {s : Guest.Process.State}
    {history : List Guest.Process.Effect} (hinflow : Guest.Process.Inflow serde s history)
    (hall : took history = wire serde vs) (hmore : front serde s.input = .more) :
    (heard history).length = vs.length := by
  obtain ⟨ps, hps, htook⟩ := hinflow
  have hdecodes := decodes_printed hd hf hcarried
  have hwire := wire_eq_concat fun v hv => (hcarried v hv).bounded
  have hwhole : Framing.concat ps ++ s.input = Framing.concat (vs.map serde.toVec) := by
    rw [← htook, hall, hwire]
  have hfront : Framing.concat ps ++ s.input <+: Framing.concat (vs.map serde.toVec) ++ [] :=
    ⟨[], by rw [hwhole]⟩
  obtain ⟨later, hlater, -⟩ :=
    Framing.cut_concat maxFrame_lt_word hps.fits hdecodes.fits partial_nil hfront
  have hlength := congrArg List.length hlater
  rw [List.length_map, List.length_append, List.Forall₂.length_eq hps] at hlength
  cases later with
  | nil => exact hlength.symm
  | cons p rest =>
    -- a frame that is there would be read
    rw [hlater, Framing.concat_append, Framing.concat_cons] at hwhole
    have hinput := List.append_cancel_left hwhole
    have hmem : p ∈ vs.map serde.toVec := by
      rw [hlater]
      simp
    obtain ⟨v, hv, rfl⟩ := List.mem_map.mp hmem
    have hread := readFrame_frame serde (hd.fits (hcarried v hv).bounded) (Framing.concat rest)
    rw [hf v (hcarried v hv).nesting] at hread
    rw [front, hinput, hread] at hmore
    cases hmore

/-! ## The end of the guest -/

/-- What the loop takes for the end of the guest's output is the end of the pipe. -/
theorem Joined.end_of_guest (hd : serde.Documented) (hf : Rereads serde f)
    (hj : Joined serde target number request f σ) {s : Loop} {history : List Effect}
    (hrun : σ.loop = .running s history) {outcome : ReadOutcome} (hphase : s.phase = .guest)
    (hopen : s.guestClosed = false) {e : IoError}
    (herror : (s.guest.receive serde outcome).result = .error e) (hkind : e.kind = .unexpectedEof)
    (hreads : σ.LoopReads s (.read outcome)) : outcome = .data [] := by
  have hloop := hj.loop
  rw [hrun] at hloop
  obtain ⟨events, -, hstream, hout, hshow⟩ := hj.guest_shows hd hf hrun hphase hreads
  have hfault := receive_fault ((balanced_reaches hloop.reaches).guest hopen) hstream hout
    hshow herror
  cases hfault with
  | read => exact absurd hkind hreads
  | closed => rfl

/-- The supervisor meets the end of the guest's output when the guest has left. -/
theorem closed_reachable (hd : serde.Documented) (h : Reachable serde target number request σ) :
    ∀ s history, σ.loop = .running s history → s.guestClosed = true → σ.guest.result ≠ none := by
  induction h with
  | start hstart =>
    obtain ⟨s, henter, hloop⟩ := hstart.loop
    obtain ⟨-, -, hs⟩ := enter_cases henter
    intro t history hrun hclosed
    rw [hloop] at hrun
    cases hrun
    rw [hs] at hclosed
    cases hclosed
  | @step σ τ hreach hstep ih =>
    obtain ⟨f, hf⟩ := hd.numeric.rereads
    obtain ⟨ha, hjoined⟩ := joined_reachable hd hreach
    have hj := hjoined f hf
    cases hstep with
    | loop answer hreads =>
      have hadvances := Machine.advances (Supervisor.machine serde request) answer σ.loop
      generalize (Supervisor.machine serde request).advance σ.loop answer = p at hadvances
      intro t history hrun hclosed
      cases hadvances with
      | stays => exact ih t history hrun hclosed
      | exit => cases hrun
      | next hbefore hnext =>
        cases hrun
        have hc := step_cases hnext
        cases hc with
        | guestEof outcome e hphase _ _ hopen herror hkind =>
          have hreads := hreads _ _ hbefore
          obtain rfl := hj.end_of_guest hd hf hbefore hphase hopen herror hkind hreads
          have hshows := hreads.2 hphase
          rw [GuestShows, if_pos rfl] at hshows
          exact hshows.1
        | event _ _ _ _ _ _ _ _ _ _ hadmit =>
          cases hadmit <;> exact ih _ _ hbefore hclosed
        | _ => exact ih _ _ hbefore hclosed
    | guest answer hreads =>
      have hadvances := Machine.advances (Guest.Process.machine serde target number) answer σ.guest
      generalize (Guest.Process.machine serde target number).advance σ.guest answer = p
        at hadvances
      intro t history hrun hclosed
      cases hadvances with
      | stays => exact ih t history hrun hclosed
      | exit => exact Option.some_ne_none _
      | next hbefore =>
        have hended := ih t history hrun hclosed
        rw [hbefore] at hended
        exact absurd rfl hended
    | caller c hturn => exact ih

/-- A caller that has read all that a drained supervisor has sent has read all the calls. -/
theorem Joined.calls_read (hd : serde.Documented) (hf : Rereads serde f)
    (ha : Admitted serde request) (hj : Joined serde target number request f σ) {s : Loop}
    {history : List Effect} (hloop : σ.loop = .running s history)
    (hidle : s.toHost.pending = false) (hall : σ.caller.took = sentTo .host history) :
    σ.caller.calls serde = callsOf history := by
  have henqueued := hj.sendable_enqueued hd ha
  have hhistory : σ.loop.history = history := by
    rw [hloop]
    rfl
  rw [hhistory] at henqueued
  have hat := hj.loop
  rw [hloop] at hat
  have hsent := (balanced_reaches hat.reaches).toHost.total
  rw [(Writer.not_pending_iff _).mp hidle, List.append_nil] at hsent
  rw [Caller.calls, hall, hsent,
    decodedFrames_wire hd hf fun v hv => (henqueued v hv).carried hd, calls_reread henqueued]
  rfl

/-! ## Who owes what -/

/-- All that has been written has been read, no buffer holds anything, and the caller has written
all of its replies. -/
structure Quiet (σ : System) (s : Loop) (history : List Effect) : Prop where
  fromGuest : tookFrom .guest history = sent σ.guest.history
  fromHost : tookFrom .host history = σ.caller.sent
  toGuest : took σ.guest.history = sentTo .guest history
  toHost : σ.caller.took = sentTo .host history
  guestIdle : s.toGuest.pending = false
  hostIdle : s.toHost.pending = false
  written : σ.caller.sent = σ.caller.stream

/-- The guest is in a read that finds nothing. -/
structure Waits (serde : SerdeJson) (s : Guest.Process.State) : Prop where
  reads : s.phase = .starting ∨ ∃ r host, s.phase = .awaiting r host
  more : front serde s.input = .more

/-- Where the guest waits for a frame and nothing is on its way, the bytes of the replies that the
caller has given included (it has written all of them), the caller has read one call more than it
has answered. -/
theorem caller_owes (hd : serde.Documented) (h : Reachable serde target number request σ)
    {s : Loop} {history : List Effect} (hloop : σ.loop = .running s history)
    {g : Guest.Process.State} {told : List Guest.Process.Effect} (hguest : σ.guest = .running g told)
    (hquiet : Quiet σ s history) (hwaits : Waits serde g) :
    (σ.caller.calls serde).length = σ.caller.replies.length + 1 := by
  obtain ⟨f, hf⟩ := hd.numeric.rereads
  obtain ⟨ha, hjoined⟩ := joined_reachable hd h
  have hj := hjoined f hf
  have hopen : s.guestClosed = false := by
    cases hclosed : s.guestClosed with
    | false => rfl
    | true =>
      have hended := closed_reachable hd h s history hloop hclosed
      rw [hguest] at hended
      exact absurd rfl hended
  obtain ⟨hfromGuest, hfromHost, htoGuest, htoHost, hguestIdle, hhostIdle, hwritten⟩ := hquiet
  have hat := hj.loop
  have hrun := hj.guest
  have hclean := hj.clean (by rw [hloop]; rfl)
  have hoffered := hj.carried_offered hd ha
  have hsendable := hj.sendable hd
  have hhistory : σ.loop.history = history := by
    rw [hloop]
    rfl
  have htold : σ.guest.history = told := by
    rw [hguest]
    rfl
  rw [hloop] at hat
  rw [hguest] at hrun
  rw [hhistory] at hoffered
  rw [htold] at hclean hsendable hfromGuest htoGuest
  have hbalanced := balanced_reaches hat.reaches
  obtain ⟨hinflow, hpaced⟩ := Guest.Process.paced_reaches hd hrun.reaches hclean
  -- the guest has heard all that the supervisor had for it
  have hsentGuest := hbalanced.toGuest.total
  rw [(Writer.not_pending_iff _).mp hguestIdle, List.append_nil] at hsentGuest
  have hheard := all_heard hd hf hoffered hinflow (htoGuest.trans hsentGuest) hwaits.more
  have hreplies := Replies.received_replies hat.reaches
  rw [hreplies, List.length_cons] at hheard
  -- the supervisor has received all replies
  have hhost := (hbalanced.host.receive_end (by
    rw [hfromHost, hwritten]
    exact stream_concat hj.decodes)).2
  rw [hhost, List.length_map] at hheard
  -- the guest waits for a reply
  obtain ⟨r, host, hphase⟩ : ∃ r host, g.phase = .awaiting r host := by
    rcases hwaits.reads with hstarting | hawaiting
    · have htold := Guest.Process.told_reaches hd.standard hd.numeric hd.strict hrun.reaches
      rw [hstarting] at htold
      rw [htold.1] at hheard
      cases hheard
    · exact hawaiting
  obtain ⟨-, -, hcalls, hcount, -⟩ := hj.awaits hd hf ha hguest hphase hclean
  -- the supervisor has received all events, and the caller has read them
  have hwhole := (Guest.Process.output_reaches hrun.reaches).whole
    (Guest.Process.awaiting_sound hrun.reaches hphase)
  rw [hphase, Guest.Process.Phase.rest, List.append_nil] at hwhole
  have hevents := ((hbalanced.guest hopen).receive_end (by
    rw [hfromGuest, hwhole]
    exact stream_wire hd hf fun v hv => (hsendable v hv).carried hd)).2
  have hreceived := calls_received hat.reaches
  rw [hevents, calls_reread hsendable] at hreceived
  rw [hj.calls_read hd hf ha hloop hhostIdle htoHost, hreceived, hcalls, ← hcount, hheard]

/-- The guest has called, and the caller has read the call. -/
theorem caller_owes_sample : ∃ σ : System, resting SerdeJson.unicode σ = true ∧
    (σ.caller.calls SerdeJson.unicode).length = σ.caller.replies.length + 1 := by
  obtain ⟨σ, -, -, -, ⟨hrun, hresting⟩, -⟩ := sample_plays
  refine ⟨σ, hresting, ?_⟩
  unfold resting at hresting
  split at hresting
  · next s history g told hloop hguest =>
    simp only [Bool.and_eq_true, decide_eq_true_eq, Bool.not_eq_true'] at hresting
    obtain ⟨⟨⟨⟨⟨⟨⟨hfromGuest, hfromHost⟩, htoGuest⟩, htoHost⟩, hguestIdle⟩, hhostIdle⟩, hwritten⟩,
      hwaits⟩ := hresting
    split at hwaits
    · next r host hphase hmore =>
      exact caller_owes SerdeJson.unicode_documented (sample_reachable hrun) hloop hguest
        ⟨hfromGuest, hfromHost, htoGuest, htoHost, hguestIdle, hhostIdle, hwritten⟩
        ⟨Or.inr ⟨r, host, hphase⟩, hmore⟩
    · cases hwaits
  · cases hresting

end RubyEngine.System
