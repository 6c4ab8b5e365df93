import RubyEngine.Protocol.Delivery
import RubyEngine.Supervisor.Death.Progress
import RubyEngine.System.Streams

/-!
# What holds of the three processes

Each party is on a run of its own, so that all that is proved of it alone holds. What
joins them is said of the pipes: what has been taken is at the front of what has been put
in. The rest follows: what a party has heard are the first of the values that another has
said.
-/
namespace RubyEngine.System

open Json (Number Value)
open Transition (Outcome Machine)
open Transition.Machine (Position At)
open Supervisor
open Supervisor.Capability (Numbered Permitted callsOf isCall repliesOf sequenceOf)
open Guest (completedEvent)
open Guest.Process (Clean OnWire Sendable Story heard printed sent took)

/-- What the library reads of a printed value. -/
def Rereads (serde : SerdeJson) (f : UInt64 → Number) : Prop :=
  ∀ v : Value, v.doc.nesting < 128 → serde.fromSlice (serde.toVec v) = .ok (v.reread f)

/-- What the supervisor knows of its request. -/
structure Admitted (serde : SerdeJson) (request : Request) : Prop where
  valid : request.validate = .ok ()
  words : Delivery.Words request.limits
  carried : Carried serde request.toValue

/-- The values handed to the host: events of the guest as they are read, and at most one
terminal event in its place. -/
def Relays (f : UInt64 → Number) (request : Request) (events enqueued : List Value) : Prop :=
  ∃ relayed synthesized, enqueued = relayed.map (Value.reread f) ++ synthesized ∧
    relayed <+: events ∧ synthesized.length ≤ 1 ∧ ∀ v ∈ synthesized, Relay.Synthesized request v

structure Joined (serde : SerdeJson) (target : Isolation.Target)
    (number : Isolation.Syscall → Int64) (request : Request) (f : UInt64 → Number)
    (σ : System) : Prop where
  loop : (Supervisor.machine serde request).At σ.loop
  guest : (Guest.Process.machine serde target number).At σ.guest
  guestOut : σ.loop.result = none → tookFrom .guest σ.loop.history <+: sent σ.guest.history
  hostOut : σ.loop.result = none → tookFrom .host σ.loop.history <+: σ.caller.sent
  guestIn : took σ.guest.history <+: sentTo .guest σ.loop.history
  callerIn : σ.caller.took <+: sentTo .host σ.loop.history
  callerOut : σ.caller.sent <+: σ.caller.stream
  replies : ∀ (i : Nat) payload v, σ.caller.replies[i]? = some (payload, v) →
    ∃ call, (σ.caller.calls serde)[i]? = some call ∧ Replies serde call payload v
  handed : enqueuedTo .guest σ.loop.history <+:
    request.toValue :: σ.caller.replies.map Prod.snd
  relayed : Relays f request (printed σ.guest.history) (enqueuedTo .host σ.loop.history)
  /-- The terminal event of an execution is behind the replies to all of its calls. -/
  closing : ∀ v ∈ enqueuedTo .host σ.loop.history, Guest.Process.Reports v →
    (callsOf σ.loop.history).length < (enqueuedTo .guest σ.loop.history).length
  read : Decoded serde (heard σ.guest.history) (took σ.guest.history)
  clean : σ.loop.result = none → Clean σ.guest.history
  /-- A guest that has met the end of its input does not find any more. -/
  spent : ∀ s history, σ.guest = .running s history → Clean history ∨
    s.input = [] ∧ took history = sentTo .guest σ.loop.history ∧ σ.loop.result ≠ none

section

variable {serde : SerdeJson} {target : Isolation.Target} {number : Isolation.Syscall → Int64}
  {request : Request} {f : UInt64 → Number} {σ : System}

theorem admitted (hd : serde.Documented) (h : Start serde request σ) :
    Admitted serde request := by
  obtain ⟨payload, v, hread, hvalue⟩ := h.read
  obtain ⟨s, henter, -⟩ := h.loop
  obtain ⟨hvalid, hload, -⟩ := enter_cases henter
  obtain ⟨fields, hreads⟩ := Delivery.reads_of_ofValue hvalue
  exact ⟨hvalid, hreads.words v.canonical, hload.bounded,
    hreads.nesting v.canonical (hd.compact.limit _ _ hread)⟩

/-- The request that the guest reads is the one that the supervisor has admitted, up to the
floats of its globals. -/
theorem request_reread (hwords : Delivery.Words request.limits) (f : UInt64 → Number) :
    Request.ofValue (request.toValue.reread f) =
      some { request with globals := request.globals.reread f } := by
  have hcatalog : (Value.array (request.catalog.map Value.string)).doc.floatFree = true := by
    show (Json.Doc.array _).floatFree = true
    rw [Json.Doc.floatFree_array]
    intro d hd
    obtain ⟨v, hv, rfl⟩ := List.mem_map.mp hd
    obtain ⟨s, -, rfl⟩ := List.mem_map.mp hv
    rfl
  have hlimits : request.limits.toValue.doc.floatFree = true := by
    refine Value.floatFree_object ?_
    simp only [List.forall_mem_cons]
    exact ⟨rfl, rfl, rfl, rfl, rfl, rfl, rfl, rfl, by simp⟩
  have hsame : request.toValue.reread f =
      ({ request with globals := request.globals.reread f } : Request).toValue := by
    have hcatalog := reread_of_floatFree f hcatalog
    have hlimits := reread_of_floatFree f hlimits
    rw [Value.reread] at hcatalog hlimits
    simp only [Request.toValue, Value.reread, Value.mapNumbers_object, List.map_cons, List.map_nil,
      hcatalog, hlimits]
    rfl
  rw [hsame]
  exact Delivery.request_back hwords

/-! ## The parties alone -/

theorem guest_reaches (h : (Guest.Process.machine serde target number).At σ.guest) :
    ∃ s, (Guest.Process.machine serde target number).Reaches s σ.guest.history := by
  generalize σ.guest = p at h
  cases h with
  | running hreach => exact ⟨_, hreach⟩
  | ended hend =>
    cases hend with
    | exit hreach hstep =>
      have hnil := Guest.Process.effects_exit hstep
      subst hnil
      rw [List.append_nil]
      exact ⟨_, hreach⟩

theorem Joined.sendable (hd : serde.Documented) (h : Joined serde target number request f σ) :
    ∀ v ∈ printed σ.guest.history, Sendable serde v := by
  obtain ⟨s, hreach⟩ := guest_reaches h.guest
  exact Guest.Process.sendable_reaches hd hreach

theorem Joined.story (hd : serde.Documented) (h : Joined serde target number request f σ) :
    Story target number σ.guest.history := by
  obtain ⟨s, hreach⟩ := guest_reaches h.guest
  exact (Guest.Process.told_reaches hd.standard hd.numeric hd.strict hreach).story

/-- What the guest has said so that it can be on the wire. -/
theorem Joined.spoken (hd : serde.Documented) (h : Joined serde target number request f σ)
    (hclean : Clean σ.guest.history) : ∃ events, OnWire serde σ.guest.history events := by
  obtain ⟨s, hreach⟩ := guest_reaches h.guest
  obtain ⟨events, hwire, -⟩ := (Guest.Process.paced_reaches hd hreach hclean).2.wire
  exact ⟨events, hwire⟩

/-! ## What has been read -/

theorem isCall_reread (f : UInt64 → Number) (v : Value) : isCall (v.reread f) = isCall v := by
  rw [isCall, isCall, asStr_index_reread]

theorem filter_reread (f : UInt64 → Number) (vs : List Value) :
    (vs.map (Value.reread f)).filter isCall = (vs.filter isCall).map (Value.reread f) := by
  rw [List.filter_map]
  congr 2
  exact funext (isCall_reread f)

theorem calls_reread {vs : List Value} (h : ∀ v ∈ vs, Sendable serde v) (f : UInt64 → Number) :
    (vs.map (Value.reread f)).filter isCall = vs.filter isCall := by
  rw [filter_reread, List.map_congr_left (g := id), List.map_id]
  intro v hv
  obtain ⟨hmem, hcall⟩ := List.mem_filter.mp hv
  exact (h v hmem).reread_call hcall f

theorem Joined.decodes (h : Joined serde target number request f σ) :
    Decodes serde (σ.caller.replies.map Prod.fst) (σ.caller.replies.map Prod.snd) := by
  have hall : ∀ e ∈ σ.caller.replies, Framing.Fits MAX_FRAME e.1 ∧ serde.fromSlice e.1 = .ok e.2 := by
    rintro ⟨payload, v⟩ he
    obtain ⟨i, hi, hget⟩ := List.getElem_of_mem he
    obtain ⟨call, -, hreply⟩ := h.replies i payload v (by rw [List.getElem?_eq_getElem hi, hget])
    exact ⟨hreply.fits, hreply.parsed⟩
  generalize σ.caller.replies = l at hall
  induction l with
  | nil => exact .nil
  | cons e rest ih =>
    exact .cons (hall e (List.mem_cons_self ..))
      (ih fun e he => hall e (List.mem_cons_of_mem _ he))

theorem Joined.carried_replies (hd : serde.Documented) (h : Joined serde target number request f σ) :
    ∀ v ∈ σ.caller.replies.map Prod.snd, Carried serde v := by
  intro v hv
  obtain ⟨⟨payload, w⟩, hmem, rfl⟩ := List.mem_map.mp hv
  obtain ⟨i, hi, hget⟩ := List.getElem_of_mem hmem
  obtain ⟨call, -, hreply⟩ := h.replies i payload w (by rw [List.getElem?_eq_getElem hi, hget])
  exact ⟨hreply.forwarded, hd.compact.limit _ _ hreply.parsed⟩

theorem Joined.carried_offered (hd : serde.Documented) (ha : Admitted serde request)
    (h : Joined serde target number request f σ) :
    ∀ v ∈ enqueuedTo .guest σ.loop.history, Carried serde v := by
  intro v hv
  rcases List.mem_cons.mp (h.handed.subset hv) with rfl | hreply
  · exact ha.carried
  · exact h.carried_replies hd v hreply

/-- The guest hears the request and then the replies. -/
theorem Joined.heard_front (hd : serde.Documented) (hf : Rereads serde f)
    (ha : Admitted serde request) (h : Joined serde target number request f σ) :
    heard σ.guest.history <+: (enqueuedTo .guest σ.loop.history).map (Value.reread f) :=
  decoded_front h.read (stream_wire hd hf (h.carried_offered hd ha))
    (h.guestIn.trans (sent_front h.loop .guest))

/-- The supervisor receives the events of the guest. -/
theorem Joined.received_guest (hd : serde.Documented) (hf : Rereads serde f)
    (h : Joined serde target number request f σ) {s : Loop} {history : List Effect}
    (hrun : σ.loop = .running s history) : ∃ events, OnWire serde σ.guest.history events ∧
      receivedFrom .guest history <+: events.map (Value.reread f) := by
  have hloop := h.loop
  have hout := h.guestOut (by rw [hrun]; rfl)
  obtain ⟨events, hwire⟩ := h.spoken hd (h.clean (by rw [hrun]; rfl))
  rw [hrun] at hloop hout
  refine ⟨events, hwire, ?_⟩
  refine decoded_front (balanced_reaches hloop.reaches).guestDecoded (stream_wire hd hf ?_)
    (hout.trans hwire.stream)
  exact fun v hv => (h.sendable hd v (hwire.front.subset hv)).carried hd

theorem sendable_synthesized (hd : serde.Documented) (ha : Admitted serde request) {v : Value}
    (h : Relay.Synthesized request v) : Sendable serde v ∧ isCall v = false := by
  have hid := (Request.validate_iff.mp ha.valid).identity.2
  cases h with
  | wallTimeout | memoryLimit =>
    exact ⟨.plain _ (Guest.Process.plain_failure _ _ _)
      (Death.fits_failure hd.compact hid (by decide) (by decide)),
      Capability.isCall_failure _ _ _⟩
  | guestExit status =>
    exact ⟨.plain _ (Guest.Process.plain_failure _ _ _) (Death.fits_guestExit hd.compact hid status),
      Capability.isCall_failure _ _ _⟩

theorem Joined.sendable_enqueued (hd : serde.Documented) (ha : Admitted serde request)
    (h : Joined serde target number request f σ) :
    ∀ v ∈ enqueuedTo .host σ.loop.history, Sendable serde v := by
  obtain ⟨relayed, synthesized, heq, hrelayed, -, hsynthesized⟩ := h.relayed
  intro v hv
  rw [heq, List.mem_append] at hv
  rcases hv with hv | hv
  · obtain ⟨u, hu, rfl⟩ := List.mem_map.mp hv
    exact (h.sendable hd u (hrelayed.subset hu)).reread f
  · exact (sendable_synthesized hd ha (hsynthesized v hv)).1

/-- The caller reads what has been handed to it, and its calls are those of the guest. -/
theorem Joined.caller_frames (hd : serde.Documented) (hf : Rereads serde f)
    (ha : Admitted serde request) (h : Joined serde target number request f σ) :
    decodedFrames serde σ.caller.took <+:
      (enqueuedTo .host σ.loop.history).map (Value.reread f) :=
  decodedFrames_front
    (stream_wire hd hf fun v hv => (h.sendable_enqueued hd ha v hv).carried hd)
    (h.callerIn.trans (sent_front h.loop .host))

theorem Joined.caller_calls (hd : serde.Documented) (hf : Rereads serde f)
    (ha : Admitted serde request) (h : Joined serde target number request f σ) :
    σ.caller.calls serde <+: callsOf σ.loop.history := by
  have hcalls := (h.caller_frames hd hf ha).filter isCall
  rwa [calls_reread (h.sendable_enqueued hd ha)] at hcalls

/-- A diagnostic of the supervisor is no call. -/
theorem calls_enqueued (hd : serde.Documented) (ha : Admitted serde request)
    {relayed synthesized : List Value} (hsendable : ∀ v ∈ relayed, Sendable serde v)
    (hsynthesized : ∀ v ∈ synthesized, Relay.Synthesized request v) :
    (relayed.map (Value.reread f) ++ synthesized).filter isCall = relayed.filter isCall := by
  have hnone : synthesized.filter isCall = [] := by
    rw [List.filter_eq_nil_iff]
    intro v hv
    rw [(sendable_synthesized hd ha (hsynthesized v hv)).2]
    exact Bool.false_ne_true
  rw [List.filter_append, hnone, List.append_nil, calls_reread hsendable]

theorem Joined.loop_calls (hd : serde.Documented) (ha : Admitted serde request)
    (h : Joined serde target number request f σ) :
    callsOf σ.loop.history <+: (printed σ.guest.history).filter isCall := by
  obtain ⟨relayed, synthesized, heq, hrelayed, -, hsynthesized⟩ := h.relayed
  rw [callsOf, heq, calls_enqueued hd ha (fun v hv => h.sendable hd v (hrelayed.subset hv))
    hsynthesized]
  exact hrelayed.filter isCall

theorem Joined.replies_le (h : Joined serde target number request f σ) :
    σ.caller.replies.length ≤ (σ.caller.calls serde).length := by
  rcases List.eq_nil_or_concat σ.caller.replies with hnil | ⟨before, ⟨payload, v⟩, heq⟩
  · rw [hnil]
    exact Nat.zero_le _
  · obtain ⟨call, hcall, -⟩ := h.replies before.length payload v (by simp [heq])
    have hlt := (List.getElem?_eq_some_iff.mp hcall).1
    rw [heq, List.length_concat]
    exact hlt

/-! ## What the guest says -/

/-- The values of a guest that keeps to the protocol of this request. -/
structure Honest (request : Request) (values : List Value) : Prop where
  protocol : ∀ v ∈ values, (v.index "protocol").asStr = some PROTOCOL
  identity : ∀ v ∈ values, (v.index "execution_id").asStr = some request.executionId
  kind : ∀ v ∈ values, (v.index "kind").asStr = some "log" ∨ isCall v = true ∨
    (v.index "kind").asStr = some "completed"
  numbered : Numbered (values.filter isCall)
  permitted : ∀ v ∈ values.filter isCall, Permitted request v
  limit : (values.filter isCall).length ≤ request.limits.calls

/-- The first that the guest hears is the request. -/
theorem Joined.first_heard (hd : serde.Documented) (hf : Rereads serde f)
    (ha : Admitted serde request) (h : Joined serde target number request f σ) {v : Value}
    {rest : List Value} (hheard : heard σ.guest.history = v :: rest) :
    v = request.toValue.reread f := by
  obtain ⟨more, hmore⟩ := h.heard_front hd hf ha
  obtain ⟨later, hlater⟩ := h.handed
  rw [hheard, List.cons_append] at hmore
  cases hoffered : enqueuedTo .guest σ.loop.history with
  | nil =>
    rw [hoffered] at hmore
    cases hmore
  | cons first others =>
    rw [hoffered] at hmore hlater
    obtain rfl := (List.cons.inj hlater).1
    exact (List.cons.inj hmore).1

theorem asStr_failure (execution kind message : String) :
    ((failure execution kind message).index "protocol").asStr = some PROTOCOL ∧
      ((failure execution kind message).index "execution_id").asStr = some execution ∧
      ((failure execution kind message).index "kind").asStr = some "completed" := by
  simp [failure, SortedMap.lookup, Json.Doc.asStr]

theorem honest_failure {execution : String} (hid : execution = request.executionId)
    (kind message : String) : Honest request [failure execution kind message] := by
  obtain ⟨hprotocol, hidentity, hkind⟩ := asStr_failure execution kind message
  have hnone : [failure execution kind message].filter isCall = [] := by
    rw [List.filter_cons_of_neg (by simp [Capability.isCall_failure]), List.filter_nil]
  refine ⟨?_, ?_, ?_, by rw [hnone]; rfl, by simp [hnone], by simp [hnone]⟩ <;>
    simp only [List.mem_singleton, forall_eq]
  · exact hprotocol
  · rw [hidentity, hid]
  · exact Or.inr (Or.inr hkind)

/-- The terminal event of a program is no call and names its execution. -/
theorem honest_terminal {r : Request} {host : Guest.Host} {terminal : List Value}
    (h : Guest.Process.Terminal r host terminal) : Honest r terminal := by
  cases h with
  | none => exact ⟨by simp, by simp, by simp, rfl, by simp, Nat.zero_le _⟩
  | failed message => exact honest_failure rfl "engine_error" message
  | completed native result time =>
    obtain ⟨hprotocol, hid, hkind, -⟩ := Guest.index_completed r host native result time
    have hnone : [completedEvent r host native result time].filter isCall = [] := by
      rw [List.filter_cons_of_neg (by simp [Guest.Process.isCall_completed]), List.filter_nil]
    refine ⟨?_, ?_, ?_, by rw [hnone]; rfl, by simp [hnone], by simp [hnone]⟩ <;>
      simp only [List.mem_singleton, forall_eq]
    · rw [hprotocol]
      rfl
    · rw [hid]
      rfl
    · rw [hkind]
      exact Or.inr (Or.inr rfl)

theorem terminal_calls {r : Request} {host : Guest.Host} {terminal : List Value}
    (h : Guest.Process.Terminal r host terminal) : terminal.filter isCall = [] := by
  cases h with
  | none => rfl
  | failed message =>
    rw [List.filter_cons_of_neg (by simp [Capability.isCall_failure]), List.filter_nil]
  | completed native result time =>
    rw [List.filter_cons_of_neg (by simp [Guest.Process.isCall_completed]), List.filter_nil]

theorem Joined.honest (hd : serde.Documented) (hf : Rereads serde f)
    (ha : Admitted serde request) (h : Joined serde target number request f σ)
    (hclean : Clean σ.guest.history) : Honest request (printed σ.guest.history) := by
  cases h.story hd with
  | early hearly =>
    rcases hearly.wrote with hnone | ⟨execution, message, hone, hnames⟩
    · rw [hnone]
      exact ⟨by simp, by simp, by simp, rfl, by simp, Nat.zero_le _⟩
    · rw [hone]
      refine honest_failure ?_ "engine_error" message
      rcases hnames with hunread | ⟨v, hheard, hid⟩
      · exact absurd hunread hclean
      · rw [h.first_heard hd hf ha hheard] at hid
        have hexecution := hid _ (request_reread ha.words f)
        exact hexecution
  | program r host events terminal replies hprogram hterminal =>
    obtain ⟨v, hheard, hr⟩ := hprogram.begun
    rw [h.first_heard hd hf ha hheard, request_reread ha.words f] at hr
    have hrequest := (Option.some.inj hr).symm
    have hlast := honest_terminal hterminal
    have hspoken := hprogram.spoken
    have hcalls : (printed σ.guest.history).filter isCall = events.filter isCall := by
      rw [hprogram.wrote, List.filter_append, terminal_calls hterminal, List.append_nil]
    subst hrequest
    refine ⟨?_, ?_, ?_, ?_, ?_, ?_⟩
    · rw [hprogram.wrote, List.forall_mem_append]
      exact ⟨fun w hw => (hspoken.framed w hw).protocol, hlast.protocol⟩
    · rw [hprogram.wrote, List.forall_mem_append]
      exact ⟨fun w hw => (hspoken.framed w hw).identity, hlast.identity⟩
    · rw [hprogram.wrote, List.forall_mem_append]
      refine ⟨fun w hw => ?_, hlast.kind⟩
      rcases (hspoken.framed w hw).kind with hlog | hcall
      · exact Or.inl hlog
      · exact Or.inr (Or.inl hcall)
    · rw [hcalls]
      exact hspoken.numbered
    · rw [hcalls]
      intro w hw
      obtain ⟨hexecutes, hidentity, hpath⟩ := hspoken.permitted w hw
      exact ⟨hexecutes, hidentity, hpath⟩
    · rw [hcalls, hspoken.calls]
      exact hspoken.counted.calls

end

end RubyEngine.System
