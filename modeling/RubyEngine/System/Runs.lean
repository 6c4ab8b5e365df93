import RubyEngine.System.Invariant
import RubyEngine.System.Schedule

/-!
# The three processes step by step

A turn of one party changes the pipes that it reads or writes and leaves the others as
they are. The one thing to see is that a guest never fails to read while the supervisor
goes on: what it finds are frames that the supervisor has printed.
-/
namespace RubyEngine.System

open Json (Number Value)
open Transition (Outcome Machine)
open Transition.Machine (Position At)
open Supervisor
open Supervisor.Capability (callsOf isCall)
open Guest.Process (Clean Intakes OnWire Sendable front heard printed sent took)

variable {serde : SerdeJson} {target : Isolation.Target} {number : Isolation.Syscall → Int64}
  {request : Request} {f : UInt64 → Number} {σ τ : System}

theorem joined_start (h : Start serde request σ) : Joined serde target number request f σ := by
  obtain ⟨s, henter, hloop⟩ := h.loop
  refine ⟨?_, ?_, ?_, ?_, ?_, ?_, ?_, ?_, ?_, ?_, ?_, ?_, ?_, ?_⟩ <;>
    simp only [hloop, h.guest, h.caller]
  · exact .running (.start ⟨henter, rfl⟩)
  · exact .running (.start ⟨rfl, rfl⟩)
  · simp [Position.history]
  · simp [Position.history]
  · exact List.nil_prefix
  · exact List.nil_prefix
  · exact List.nil_prefix
  · simp
  · simp [Position.history]
  · refine ⟨[], [], ?_, List.nil_prefix, Nat.zero_le _, by simp⟩
    simp [Position.history]
  · simp [Position.history]
  · exact ⟨[], [], .nil, rfl⟩
  · simp [Clean, Position.history]
  · rintro t history hrun
    cases hrun
    exact Or.inl (by simp [Clean])

/-! ## The supervisor -/

section

variable {s t : Loop} {history effects : List Effect} {answer : Supervisor.Answer}

/-- The terminal event of an execution comes in behind the replies to all of its calls. -/
theorem closing_reaches {G : List Guest.Process.Effect} {events : List Value}
    (hreach : (machine serde request).Reaches s history) (hwire : OnWire serde G events)
    (hsendable : ∀ v ∈ events, Sendable serde v)
    (hreceived : receivedFrom .guest history <+: events.map (Value.reread f))
    (hheard : (heard G).length ≤ (enqueuedTo .guest history).length) :
    ∀ v ∈ enqueuedTo .host history, Guest.Process.Reports v →
      (callsOf history).length < (enqueuedTo .guest history).length := by
  obtain ⟨synthesized, heq, -, hsynthesized, -⟩ := (Relay.inv_reaches hreach).relayed
  have hcalls := hreceived.filter isCall
  rw [calls_reread hsendable, ← calls_received hreach] at hcalls
  intro v hv hreports
  rw [heq, List.mem_append] at hv
  rcases hv with hv | hv
  · obtain ⟨u, hu, rfl⟩ := List.mem_map.mp (hreceived.subset hv)
    have hclosing := hwire.spaced.closing u hu ((Guest.Process.reports_reread f u).mp hreports)
    exact hcalls.length_le.trans_lt (hclosing.trans_le hheard)
  · cases hsynthesized v hv <;> exact absurd hreports (Guest.Process.not_reports_failure _ _ _)

theorem Joined.loop_next (hd : serde.Documented) (hf : Rereads serde f)
    (ha : Admitted serde request) (h : Joined serde target number request f σ) (hrun : σ.loop = .running s history)
    (hreads : σ.LoopReads s answer)
    (hstep : step serde request s answer = some (.next t effects)) :
    Joined serde target number request f { σ with loop := .running t (history ++ effects) } := by
  have hloop := h.loop
  have hguestOut := h.guestOut (by rw [hrun]; rfl)
  have hhostOut := h.hostOut (by rw [hrun]; rfl)
  have hclean := h.clean (by rw [hrun]; rfl)
  have hguestIn := h.guestIn
  have hcallerIn := h.callerIn
  have hheard := (h.heard_front hd hf ha).length_le
  rw [hrun] at hloop hguestOut hhostOut hguestIn hcallerIn hheard
  have hreach : (machine serde request).Reaches t (history ++ effects) := hloop.reaches.next hstep
  obtain ⟨htookHost, htookGuest⟩ := took_step (balanced_reaches hloop.reaches) hstep
  have hguestOut' : tookFrom .guest (history ++ effects) <+: sent σ.guest.history := by
    rw [tookFrom_append]
    rcases htookGuest with hnil | ⟨hphase, bytes, hne, rfl, hfront⟩
    · rwa [hnil, List.append_nil]
    · have hshows := hreads.2 hphase
      rw [GuestShows, if_neg hne, hrun] at hshows
      exact ((List.prefix_append_right_inj _).mpr hfront).trans hshows
  have hhostOut' : tookFrom .host (history ++ effects) <+: σ.caller.sent := by
    rw [tookFrom_append]
    rcases htookHost with hnil | ⟨hphase, bytes, hne, rfl, hfront⟩
    · rwa [hnil, List.append_nil]
    · have hshows := (hreads.1 hphase).resolve_left hne
      rw [hrun] at hshows
      exact ((List.prefix_append_right_inj _).mpr hfront).trans hshows
  have hhost : receivedFrom .host (history ++ effects) <+: σ.caller.replies.map Prod.snd :=
    decoded_front (balanced_reaches hreach).host.decoded (stream_concat h.decodes)
      (hhostOut'.trans h.callerOut)
  obtain ⟨events, hwire⟩ := h.spoken hd hclean
  have hguest : receivedFrom .guest (history ++ effects) <+: events.map (Value.reread f) :=
    decoded_front (balanced_reaches hreach).guestDecoded
      (stream_wire hd hf fun v hv => (h.sendable hd v (hwire.front.subset hv)).carried hd)
      (hguestOut'.trans hwire.stream)
  refine ⟨.running hreach, h.guest, fun _ => hguestOut', fun _ => hhostOut', ?_, ?_, h.callerOut,
    h.replies, ?_, ?_, ?_, h.read, fun _ => hclean, fun u past hu => ?_⟩
  · show took σ.guest.history <+: sentTo .guest (history ++ effects)
    rw [sentTo_append]
    exact hguestIn.trans (List.prefix_append _ _)
  · show σ.caller.took <+: sentTo .host (history ++ effects)
    rw [sentTo_append]
    exact hcallerIn.trans (List.prefix_append _ _)
  · show enqueuedTo .guest (history ++ effects) <+: _
    rw [Replies.received_replies hreach]
    exact (List.prefix_cons_inj _).mpr hhost
  · obtain ⟨synthesized, heq, hone, hsynthesized, -⟩ := (Relay.inv_reaches hreach).relayed
    obtain ⟨later, hlater⟩ := hguest
    refine ⟨events.take (receivedFrom .guest (history ++ effects)).length, synthesized, ?_,
      (List.take_prefix _ _).trans hwire.front, hone, hsynthesized⟩
    show enqueuedTo .host (history ++ effects) = _
    rw [heq, List.map_take, ← hlater, List.take_left]
  · refine closing_reaches hreach hwire (fun v hv => h.sendable hd v (hwire.front.subset hv))
      hguest ?_
    rw [List.length_map] at hheard
    show _ ≤ (enqueuedTo .guest (history ++ effects)).length
    rw [enqueuedTo_append, List.length_append]
    exact hheard.trans (Nat.le_add_right _ _)
  · rw [hu] at hclean
    exact Or.inl hclean

theorem Joined.loop_exit (h : Joined serde target number request f σ)
    (hrun : σ.loop = .running s history) {result : Except IoError Unit}
    (hstep : step serde request s answer = some (.exit result effects)) :
    Joined serde target number request f { σ with loop := .ended result (history ++ effects) } := by
  have hloop := h.loop
  have hclean := h.clean (by rw [hrun]; rfl)
  have hguestIn := h.guestIn
  have hcallerIn := h.callerIn
  have hhanded := h.handed
  have hrelayed := h.relayed
  have hclosing := h.closing
  rw [hrun] at hloop hguestIn hcallerIn hhanded hrelayed hclosing
  have hend : (machine serde request).Ends result (history ++ effects) :=
    .exit hloop.reaches hstep
  have hnone : (Position.ended result (history ++ effects) :
      Position Loop Effect (Except IoError Unit)).result ≠ none := Option.some_ne_none _
  refine ⟨.ended hend, h.guest, fun hr => absurd hr hnone, fun hr => absurd hr hnone, ?_, ?_,
    h.callerOut, h.replies, ?_, ?_, ?_, h.read, fun hr => absurd hr hnone, fun u past hu => ?_⟩
  · show took σ.guest.history <+: sentTo .guest (history ++ effects)
    rw [sentTo_append]
    exact hguestIn.trans (List.prefix_append _ _)
  · show σ.caller.took <+: sentTo .host (history ++ effects)
    rw [sentTo_append]
    exact hcallerIn.trans (List.prefix_append _ _)
  · show enqueuedTo .guest (history ++ effects) <+: _
    rwa [enqueuedTo_append, enqueuedTo_exit hstep, List.append_nil]
  · show Relays f request _ (enqueuedTo .host (history ++ effects))
    rwa [enqueuedTo_append, enqueuedTo_exit hstep, List.append_nil]
  · show ∀ v ∈ enqueuedTo .host (history ++ effects), _
    have hsame : callsOf (history ++ effects) = callsOf history := by
      rw [callsOf, enqueuedTo_append, enqueuedTo_exit hstep, List.append_nil, callsOf]
    show ∀ v ∈ _, _ → (callsOf (history ++ effects)).length < (enqueuedTo .guest (_ ++ _)).length
    rwa [hsame, enqueuedTo_append, enqueuedTo_append, enqueuedTo_exit hstep, enqueuedTo_exit hstep,
      List.append_nil, List.append_nil]
  · rw [hu] at hclean
    exact Or.inl hclean

end

/-! ## The guest -/

section

variable {s t : Guest.Process.State} {history effects : List Guest.Process.Effect}
  {answer : Guest.Process.Answer}

/-- What waits for the guest is the front of frames. -/
theorem Joined.not_failed (hd : serde.Documented) (hf : Rereads serde f)
    (ha : Admitted serde request) (h : Joined serde target number request f σ)
    (hrun : σ.guest = .running s history) (hclean : Clean history) (rest : Bytes) :
    front serde s.input ≠ .failed rest := by
  have hguest := h.guest
  have hin := h.guestIn.trans (sent_front h.loop .guest)
  rw [hrun] at hguest hin
  obtain ⟨ps, hps, htook⟩ := (Guest.Process.paced_reaches hd hguest.reaches hclean).1
  obtain ⟨qs, tail, hqs, htail, hstream⟩ := (stream_wire hd hf (h.carried_offered hd ha)).cut
  have hfront : Framing.concat ps ++ s.input <+: Framing.concat qs ++ tail := by
    rw [← hstream, ← htook]
    exact hin
  obtain ⟨later, rfl, hinput⟩ :=
    Framing.cut_concat maxFrame_lt_word hps.fits hqs.fits htail hfront
  obtain ⟨values, -, hlater⟩ := hps.split hqs
  exact Guest.Process.front_stream ⟨later, tail, hlater, htail, rfl⟩ hinput rest

/-- A read that fails has met the end of the supervisor's output. -/
theorem Joined.unreads (hd : serde.Documented) (hf : Rereads serde f)
    (ha : Admitted serde request) (h : Joined serde target number request f σ)
    (hrun : σ.guest = .running s history) (hclean : Clean history) (hreads : σ.GuestReads answer)
    {rest : Bytes} (hunreads : Guest.Process.Unreads serde s answer rest) :
    rest = [] ∧ took history = sentTo .guest σ.loop.history ∧ σ.loop.result ≠ none := by
  cases hunreads with
  | refused _ hfailed => exact absurd hfailed (h.not_failed hd hf ha hrun hclean rest)
  | ended _ =>
    obtain ⟨hresult, htook⟩ := hreads
    rw [hrun] at htook
    exact ⟨rfl, htook, hresult⟩
  | failed e _ hkind => exact absurd hreads hkind

theorem Joined.guest_next (hd : serde.Documented) (hf : Rereads serde f)
    (ha : Admitted serde request) (h : Joined serde target number request f σ)
    (hrun : σ.guest = .running s history) (hreads : σ.GuestReads answer)
    (hstep : Guest.Process.step serde target number s answer = some (.next t effects)) :
    Joined serde target number request f { σ with guest := .running t (history ++ effects) } := by
  have hguest := h.guest
  have hguestOut := h.guestOut
  have hguestIn := h.guestIn
  have hrelayed := h.relayed
  have hread := h.read
  have hclean := h.clean
  rw [hrun] at hguest hguestOut hguestIn hrelayed hread hclean
  have hreach : (Guest.Process.machine serde target number).Reaches t (history ++ effects) :=
    hguest.reaches.next hstep
  have hintakes := Guest.Process.intakes hstep
  have hin : took (history ++ effects) <+: sentTo .guest σ.loop.history := by
    rw [Guest.Process.took_append]
    cases hintakes with
    | quiet _ htook | heard _ _ _ _ htook | unread _ _ _ htook =>
      rw [htook, List.append_nil]
      exact hguestIn
    | took bytes hanswer hne _ htook =>
      subst hanswer
      simp only [GuestReads, if_neg hne, hrun] at hreads
      rw [htook]
      exact hreads
  -- where the input is spent, nothing more comes in and nothing more is heard
  have hspent : s.input = [] → took history = sentTo .guest σ.loop.history →
      heard effects = [] ∧ took effects = [] ∧ t.input = [] := by
    intro hinput hall
    have hmore : front serde s.input = .more := by
      rw [hinput]
      rfl
    cases hintakes with
    | quiet hheard htook _ hsame => exact ⟨hheard, htook, hsame.trans hinput⟩
    | took bytes hanswer hne _ _ _ _ =>
      subst hanswer
      simp only [GuestReads, if_neg hne, hrun] at hreads
      have hlength := hreads.length_le
      rw [← hall] at hlength
      have hpos := List.length_pos_of_ne_nil hne
      change (took history ++ bytes).length ≤ (took history).length at hlength
      rw [List.length_append] at hlength
      omega
    | heard v rest hfront =>
      rw [hmore] at hfront
      cases hfront
    | unread rest hunreads hheard htook _ hsame =>
      refine ⟨hheard, htook, hsame.trans ?_⟩
      cases hunreads with
      | refused _ hfailed =>
        rw [hmore] at hfailed
        cases hfailed
      | ended | failed => rfl
  have hnext : Clean (history ++ effects) ∨ t.input = [] ∧
      took (history ++ effects) = sentTo .guest σ.loop.history ∧ σ.loop.result ≠ none := by
    rcases h.spent s history hrun with hbefore | ⟨hinput, hall, hresult⟩
    · cases hintakes with
      | quiet _ _ hnow | heard _ _ _ _ _ hnow | took _ _ _ _ _ hnow =>
        refine Or.inl ?_
        simp only [Clean, List.mem_append, not_or]
        exact ⟨hbefore, hnow⟩
      | unread rest hunreads _ htook _ hinput =>
        obtain ⟨hrest, hall, hresult⟩ := h.unreads hd hf ha hrun hbefore hreads hunreads
        refine Or.inr ⟨hinput.trans hrest, ?_, hresult⟩
        rw [Guest.Process.took_append, htook, List.append_nil, hall]
    · obtain ⟨-, htook, hleft⟩ := hspent hinput hall
      refine Or.inr ⟨hleft, ?_, hresult⟩
      rw [Guest.Process.took_append, htook, List.append_nil, hall]
  refine ⟨h.loop, .running hreach, fun hr => ?_, h.hostOut, hin, h.callerIn, h.callerOut, h.replies,
    h.handed, ?_, h.closing, ?_, fun hr => ?_, fun u past hu => ?_⟩
  · show _ <+: sent (history ++ effects)
    rw [Guest.Process.sent_append]
    exact (hguestOut hr).trans (List.prefix_append _ _)
  · obtain ⟨relayed, synthesized, heq, hfront, hrest⟩ := hrelayed
    refine ⟨relayed, synthesized, heq, ?_, hrest⟩
    show relayed <+: printed (history ++ effects)
    rw [Guest.Process.printed_append]
    exact hfront.trans (List.prefix_append _ _)
  · show Decoded serde (heard (history ++ effects)) (took (history ++ effects))
    by_cases hcleaned : Clean (history ++ effects)
    · obtain ⟨ps, hps, htook⟩ := (Guest.Process.paced_reaches hd hreach hcleaned).1
      exact ⟨ps, t.input, hps, htook⟩
    · have hsame : heard effects = [] ∧ took effects = [] := by
        rcases h.spent s history hrun with hbefore | ⟨hinput, hall, -⟩
        · cases hintakes with
          | quiet _ _ hnow | heard _ _ _ _ _ hnow | took _ _ _ _ _ hnow =>
            refine absurd ?_ hcleaned
            simp only [Clean, List.mem_append, not_or]
            exact ⟨hbefore, hnow⟩
          | unread _ _ hheard htook => exact ⟨hheard, htook⟩
        · obtain ⟨hheard, htook, -⟩ := hspent hinput hall
          exact ⟨hheard, htook⟩
      rw [Guest.Process.heard_append, Guest.Process.took_append, hsame.1, hsame.2, List.append_nil,
        List.append_nil]
      exact hread
  · rcases hnext with hcleaned | ⟨-, -, hresult⟩
    · exact hcleaned
    · exact absurd hr hresult
  · cases hu
    exact hnext

/-- A process that leaves has nothing more to say. -/
theorem Joined.guest_exit (h : Joined serde target number request f σ)
    (hrun : σ.guest = .running s history) {status : ExitStatus}
    (hstep : Guest.Process.step serde target number s answer = some (.exit status effects)) :
    Joined serde target number request f { σ with guest := .ended status (history ++ effects) } := by
  have hguest := h.guest
  have hguestOut := h.guestOut
  have hguestIn := h.guestIn
  have hrelayed := h.relayed
  have hread := h.read
  have hclean := h.clean
  rw [hrun] at hguest hguestOut hguestIn hrelayed hread hclean
  have hend : (Guest.Process.machine serde target number).Ends status (history ++ effects) :=
    .exit hguest.reaches hstep
  obtain rfl := Guest.Process.effects_exit hstep
  rw [List.append_nil] at hend ⊢
  refine ⟨h.loop, .ended hend, hguestOut, h.hostOut, hguestIn, h.callerIn, h.callerOut, h.replies,
    h.handed, hrelayed, h.closing, hread, hclean, fun u past hu => ?_⟩
  cases hu

end

/-! ## The caller -/

theorem Caller.calls_grow (serde : SerdeJson) (c : Caller) (bytes : Bytes) :
    c.calls serde <+: ({ c with took := c.took ++ bytes } : Caller).calls serde :=
  (decodedFrames_grows (List.prefix_append _ _)).filter isCall

theorem Joined.caller_next (h : Joined serde target number request f σ) {c : Caller}
    (hstep : Caller.Step serde (sentTo .host σ.loop.history) σ.caller c) :
    Joined serde target number request f { σ with caller := c } := by
  cases hstep with
  | read bytes hfront =>
    refine ⟨h.loop, h.guest, h.guestOut, h.hostOut, h.guestIn, hfront, h.callerOut, ?_, h.handed,
      h.relayed, h.closing, h.read, h.clean, h.spent⟩
    intro i payload v hget
    obtain ⟨call, hcall, hreply⟩ := h.replies i payload v hget
    obtain ⟨later, hlater⟩ := Caller.calls_grow serde σ.caller bytes
    refine ⟨call, ?_, hreply⟩
    show (Caller.calls serde _)[i]? = some call
    rw [← hlater, List.getElem?_append_left (List.getElem?_eq_some_iff.mp hcall).1, hcall]
  | reply call payload v hcall hreply =>
    have hstream : ({ σ.caller with replies := σ.caller.replies ++ [(payload, v)] } : Caller).stream =
        σ.caller.stream ++ Framing.concat [payload] := by
      simp [Caller.stream, Framing.concat_append]
    refine ⟨h.loop, h.guest, h.guestOut, h.hostOut, h.guestIn, h.callerIn, ?_, ?_, ?_, h.relayed,
      h.closing, h.read, h.clean, h.spent⟩
    · show _ <+: Caller.stream _
      rw [hstream]
      exact h.callerOut.trans (List.prefix_append _ _)
    · intro i other w hget
      rcases Nat.lt_or_ge i σ.caller.replies.length with hlt | hge
      · rw [List.getElem?_append_left hlt] at hget
        exact h.replies i other w hget
      · rw [List.getElem?_append_right hge] at hget
        obtain ⟨hlast, hnew⟩ := List.getElem?_eq_some_iff.mp hget
        obtain rfl : i = σ.caller.replies.length := by
          rw [List.length_singleton] at hlast
          omega
        simp only [Nat.sub_self, List.getElem_cons_zero] at hnew
        cases hnew
        exact ⟨call, hcall, hreply⟩
    · show _ <+: request.toValue :: (σ.caller.replies ++ [(payload, v)]).map Prod.snd
      rw [List.map_append, ← List.cons_append]
      exact h.handed.trans (List.prefix_append _ _)
  | write n =>
    refine ⟨h.loop, h.guest, h.guestOut, fun hr => ?_, h.guestIn, h.callerIn, ?_, h.replies,
      h.handed, h.relayed, h.closing, h.read, h.clean, h.spent⟩
    · exact (h.hostOut hr).trans (List.prefix_append _ _)
    · show σ.caller.sent ++ (σ.caller.stream.drop σ.caller.sent.length).take n <+: σ.caller.stream
      obtain ⟨later, hlater⟩ := h.callerOut
      rw [← hlater, List.drop_left]
      exact (List.prefix_append_right_inj _).mpr (List.take_prefix _ _)

/-! ## All of them -/

theorem joined_step (hd : serde.Documented) (hf : Rereads serde f) (ha : Admitted serde request)
    (h : Joined serde target number request f σ) (hstep : Step serde target number request σ τ) :
    Joined serde target number request f τ := by
  cases hstep with
  | loop answer hreads =>
    have hadvances := Machine.advances (Supervisor.machine serde request) answer σ.loop
    generalize (Supervisor.machine serde request).advance σ.loop answer = p at hadvances
    cases hadvances with
    | stays => exact h
    | next hrun hnext => exact h.loop_next hd hf ha hrun (hreads _ _ hrun) hnext
    | exit hrun hexit => exact h.loop_exit hrun hexit
  | guest answer hreads =>
    have hadvances := Machine.advances (Guest.Process.machine serde target number) answer σ.guest
    generalize (Guest.Process.machine serde target number).advance σ.guest answer = p at hadvances
    cases hadvances with
    | stays => exact h
    | next hrun hnext => exact h.guest_next hd hf ha hrun hreads hnext
    | exit hrun hexit => exact h.guest_exit hrun hexit
  | caller c hturn => exact h.caller_next hturn

theorem joined_reachable (hd : serde.Documented) (h : Reachable serde target number request σ) :
    Admitted serde request ∧
      ∀ f, Rereads serde f → Joined serde target number request f σ := by
  induction h with
  | start hstart => exact ⟨admitted hd hstart, fun f _ => joined_start hstart⟩
  | step _ hstep ih =>
    obtain ⟨ha, hjoined⟩ := ih
    exact ⟨ha, fun f hf => joined_step hd hf ha (hjoined f hf) hstep⟩

end RubyEngine.System
