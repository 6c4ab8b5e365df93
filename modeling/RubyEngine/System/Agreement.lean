import RubyEngine.System.Faults

/-!
# What the three processes agree on

Nothing is lost on the way, doubled, changed or put out of order: the guest hears the
request and the replies of the caller, the caller reads the events of the guest, and the
terminal event of an execution tells how many calls have been made and answered.
-/
namespace RubyEngine.System

open Json (Number Value)
open Transition (Outcome Machine)
open Transition.Machine (Position At)
open Supervisor
open Supervisor.Capability (callsOf isCall sequenceOf)
open Guest (completedEvent)
open Guest.Process (Reports front heard printed sent took)

variable {serde : SerdeJson} {target : Isolation.Target} {number : Isolation.Syscall → Int64}
  {request : Request} {f : UInt64 → Number} {σ τ : System}

/-! ## The guest -/

/-- What the guest has heard are the request and the first replies of the caller. -/
theorem guest_hears (hd : serde.Documented) (h : Reachable serde target number request σ) :
    ∃ f, Rereads serde f ∧ heard σ.guest.history <+:
      (request.toValue :: σ.caller.replies.map Prod.snd).map (Value.reread f) := by
  obtain ⟨f, hf⟩ := hd.numeric.rereads
  obtain ⟨ha, hjoined⟩ := joined_reachable hd h
  have hj := hjoined f hf
  exact ⟨f, hf, (hj.heard_front hd hf ha).trans (hj.handed.map _)⟩

theorem guest_hears_sample : ∃ σ : System, (heard σ.guest.history).length = 2 ∧
    ∃ f, Rereads SerdeJson.unicode f ∧ heard σ.guest.history <+:
      (Request.sample.toValue :: σ.caller.replies.map Prod.snd).map (Value.reread f) := by
  obtain ⟨-, -, -, σ, -, -, -, hrun, hheard, -⟩ := sample_plays
  exact ⟨σ, hheard, guest_hears SerdeJson.unicode_documented (sample_reachable hrun)⟩

/-- A value that waits for the guest is the next one that it was given. -/
theorem Joined.next_heard (hd : serde.Documented) (hf : Rereads serde f)
    (ha : Admitted serde request) (h : Joined serde target number request f σ)
    {s : Guest.Process.State} {history : List Guest.Process.Effect}
    (hrun : σ.guest = .running s history) {v : Value} {rest : Bytes}
    (hfront : front serde s.input = .value v rest) :
    Guest.Process.Clean history ∧ heard history ++ [v] <+:
      (request.toValue :: σ.caller.replies.map Prod.snd).map (Value.reread f) := by
  have hclean : Guest.Process.Clean history := by
    rcases h.spent s history hrun with hclean | ⟨hinput, -⟩
    · exact hclean
    · rw [hinput] at hfront
      cases hfront
  have hguest := h.guest
  have hguestIn := h.guestIn
  rw [hrun] at hguest hguestIn
  obtain ⟨ps, hps, htook⟩ := (Guest.Process.paced_reaches hd hguest.reaches hclean).1
  obtain ⟨p, hfits, hparsed, hinput⟩ := Guest.Process.front_value hfront
  have hdecoded : Decoded serde (heard history ++ [v]) (took history) := by
    refine ⟨ps ++ [p], rest, hps.append hfits hparsed, ?_⟩
    rw [htook, hinput, Framing.concat_append, Framing.concat_cons, Framing.concat_nil,
      List.append_nil, List.append_assoc]
  refine ⟨hclean, (decoded_front hdecoded (stream_wire hd hf (h.carried_offered hd ha)) ?_).trans
    (h.handed.map _)⟩
  exact hguestIn.trans (sent_front h.loop .guest)

/-- What a program that waits for a reply has done. -/
structure Awaits (request : Request) (host : Guest.Host)
    (history : List Guest.Process.Effect) : Prop where
  execution : host.execution = request.executionId
  sequence : host.sequence = host.calls
  calls : ((printed history).filter isCall).length = host.calls
  heard : (heard history).length = host.calls
  begun : 0 < host.calls

theorem Joined.awaits (hd : serde.Documented) (hf : Rereads serde f) (ha : Admitted serde request)
    (h : Joined serde target number request f σ) {s : Guest.Process.State}
    {history : List Guest.Process.Effect} (hrun : σ.guest = .running s history) {r : Request}
    {host : Guest.Host} (hphase : s.phase = .awaiting r host)
    (hclean : Guest.Process.Clean history) : Awaits request host history := by
  have hguest := h.guest
  rw [hrun] at hguest
  have htold := Guest.Process.told_reaches hd.standard hd.numeric hd.strict hguest.reaches
  rw [hphase] at htold
  obtain ⟨events, replies, hprogram, hroom⟩ := htold
  obtain ⟨v, hheard, hr⟩ := hprogram.begun
  have hbegins : heard σ.guest.history = v :: replies := by
    rw [hrun]
    exact hheard
  have hfirst := h.first_heard hd hf ha hbegins
  rw [hfirst, request_reread ha.words f] at hr
  obtain rfl := Option.some.inj hr
  have heven := (Guest.Process.paced_reaches hd hguest.reaches hclean).2.even
    (Guest.Process.awaiting_sound hguest.reaches hphase)
  rw [hphase] at heven
  refine ⟨hprogram.spoken.counted.execution, hprogram.spoken.counted.sequence, ?_, heven,
    Nat.lt_of_lt_of_le (Nat.succ_pos _) hroom⟩
  rw [hprogram.wrote, List.append_nil]
  exact hprogram.spoken.calls

/-- The reply to the call with this number, as the caller has given it. -/
structure Answered (serde : SerdeJson) (σ : System) (n : Nat) (v : Value) : Prop where
  called : ∃ call payload, (σ.caller.calls serde)[n]? = some call ∧
    sequenceOf call = some (n + 1) ∧ σ.caller.replies[n]? = some (payload, v) ∧
    Replies serde call payload v

/-- A value that waits for a program is the reply to its last call, and it passes every check. -/
theorem Joined.reply_heard (hd : serde.Documented) (hf : Rereads serde f)
    (ha : Admitted serde request) (hj : Joined serde target number request f σ)
    {s : Guest.Process.State} {history : List Guest.Process.Effect}
    (hrun : σ.guest = .running s history) {r : Request} {host : Guest.Host}
    (hphase : s.phase = .awaiting r host) {v : Value} {rest : Bytes}
    (hfront : front serde s.input = .value v rest) :
    host.accepts v = true ∧ ∃ n w, host.sequence = n + 1 ∧ Answered serde σ n w ∧
      v = w.reread f := by
  obtain ⟨hclean, hnext⟩ := hj.next_heard hd hf ha hrun hfront
  obtain ⟨hexecution, hsequence, -, hheard, hbegun⟩ := hj.awaits hd hf ha hrun hphase hclean
  -- the reply has the place behind the request and the replies to the calls before
  obtain ⟨k, hk⟩ := Nat.exists_eq_succ_of_ne_zero hbegun.ne'
  have hget : ((request.toValue :: σ.caller.replies.map Prod.snd).map (Value.reread f))[k + 1]? =
      some v := by
    obtain ⟨later, hlater⟩ := hnext
    rw [← hlater, List.append_assoc, List.getElem?_append_right (by omega)]
    simp [hheard, hk]
  simp only [List.map_cons, List.map_map, List.getElem?_cons_succ, List.getElem?_map,
    Option.map_eq_some_iff] at hget
  obtain ⟨⟨payload, w⟩, hget, rfl⟩ := hget
  obtain ⟨call, hcall, hreply⟩ := hj.replies k payload w hget
  have hcalls := (hj.caller_calls hd hf ha).trans (hj.loop_calls hd ha)
  have hgot : ((printed σ.guest.history).filter isCall)[k]? = some call := by
    obtain ⟨later, hlater⟩ := hcalls
    rw [← hlater, List.getElem?_append_left (List.getElem?_eq_some_iff.mp hcall).1, hcall]
  have hhonest := hj.honest hd hf ha (by rw [hrun]; exact hclean)
  have hnumber : sequenceOf call = some (k + 1) := numbered_get hhonest.numbered hgot
  have hid := (hhonest.permitted call (List.mem_of_getElem? hgot)).identity
  have hseq : ((w.reread f).index "sequence").asU64 = some host.sequence := by
    refine asU64_index_reread f w "sequence" ?_
    rw [hreply.sequence, hsequence, hk]
    exact hnumber
  have hname : (w.index "execution_id").asStr = some host.execution := by
    rw [hreply.identity, hexecution]
    exact hid
  constructor
  · simp [Guest.Host.accepts, hreply.protocol, hreply.kind, hreply.ok, hseq, hname]
  · exact ⟨k, w, hsequence.trans hk, ⟨call, payload, hcall, hnumber, hget, hreply⟩, rfl⟩

/-- No frame that waits for the guest is malformed. -/
theorem Joined.front_sound (hd : serde.Documented) (hf : Rereads serde f)
    (ha : Admitted serde request) (hj : Joined serde target number request f σ)
    {s : Guest.Process.State} {history : List Guest.Process.Effect}
    (hrun : σ.guest = .running s history) (rest : Bytes) : front serde s.input ≠ .failed rest := by
  intro hfailed
  rcases hj.spent s history hrun with hclean | ⟨hinput, -⟩
  · exact hj.not_failed hd hf ha hrun hclean rest hfailed
  · rw [hinput] at hfailed
    cases hfailed

/-- The guest accepts every reply that it reads, and no frame that waits for it is malformed. A read
of it fails only at the end of the supervisor's output, when the loop has ended and all that
it has written is read. -/
theorem replies_accepted (hd : serde.Documented) (h : Reachable serde target number request σ)
    {s : Guest.Process.State} {history : List Guest.Process.Effect}
    (hrun : σ.guest = .running s history) {r : Request} {host : Guest.Host}
    (hphase : s.phase = .awaiting r host) :
    (∀ rest, front serde s.input ≠ .failed rest) ∧
      (∀ v rest, front serde s.input = .value v rest → host.accepts v = true) ∧
      ∀ answer rest, σ.GuestReads answer → Guest.Process.Unreads serde s answer rest →
        took history = sentTo .guest σ.loop.history ∧ σ.loop.result ≠ none := by
  obtain ⟨f, hf⟩ := hd.numeric.rereads
  obtain ⟨ha, hjoined⟩ := joined_reachable hd h
  have hj := hjoined f hf
  refine ⟨hj.front_sound hd hf ha hrun, ?_, ?_⟩
  · intro v rest hfront
    exact (hj.reply_heard hd hf ha hrun hphase hfront).1
  · intro answer rest hreads hunreads
    rcases hj.spent s history hrun with hclean | ⟨-, hall, hresult⟩
    · exact (hj.unreads hd hf ha hrun hclean hreads hunreads).2
    · exact ⟨hall, hresult⟩

theorem replies_accepted_sample : ∃ (σ : System) (host : Guest.Host) (v : Value),
    waiting SerdeJson.unicode σ = some (host, v) ∧ host.accepts v = true := by
  obtain ⟨-, -, σ, -, -, -, ⟨hrun, hsome⟩, -⟩ := sample_plays
  obtain ⟨⟨host, v⟩, hwaiting⟩ := Option.isSome_iff_exists.mp hsome
  obtain ⟨s, history, r, rest, hguest, hphase, hfront⟩ := waiting_some hwaiting
  exact ⟨σ, host, v, hwaiting, (replies_accepted SerdeJson.unicode_documented
    (sample_reachable hrun) hguest hphase).2.1 v rest hfront⟩

/-! ## The caller -/

theorem calls_completed (r : Request) (host : Guest.Host) (native : Guest.NativeResult)
    (result time : Value) :
    ((completedEvent r host native result time).index "usage").index "calls" = .u64 host.calls := by
  have hindex : ∀ fields, (Value.object fields).doc.index "calls" =
      (Value.object fields).index "calls" := fun _ => rfl
  simp [completedEvent, SortedMap.lookup, hindex]

theorem calls_reported {v : Value} {n : Nat}
    (h : ((v.index "usage").index "calls").asU64 = some n) (f : UInt64 → Number) :
    (((v.reread f).index "usage").index "calls").asU64 = some n := by
  rw [Value.reread, Value.index_mapNumbers, Json.Doc.index_mapNumbers]
  exact asU64_reread f _ h

/-- Where the caller has read the terminal event of an execution, it has read every call of the
guest. -/
theorem Joined.counts (hd : serde.Documented) (hf : Rereads serde f)
    (ha : Admitted serde request) (hj : Joined serde target number request f σ) {v : Value}
    (hv : v ∈ decodedFrames serde σ.caller.took) (hreports : Reports v) :
    ((v.index "usage").index "calls").asU64 = some (σ.caller.calls serde).length ∧
      σ.caller.replies.length = (σ.caller.calls serde).length ∧
      σ.caller.calls serde = (printed σ.guest.history).filter isCall := by
  obtain ⟨w, hw, rfl⟩ := List.mem_map.mp ((hj.caller_frames hd hf ha).subset hv)
  rw [Guest.Process.reports_reread] at hreports
  have hclosing := hj.closing w hw hreports
  have hanswered := hj.handed.length_le
  have hread := (hj.caller_calls hd hf ha).length_le
  have hreplies := hj.replies_le
  rw [List.length_cons, List.length_map] at hanswered
  obtain ⟨relayed, synthesized, heq, hrelayed, -, hsynthesized⟩ := hj.relayed
  have hcalls : callsOf σ.loop.history = relayed.filter isCall := by
    rw [callsOf, heq]
    exact calls_enqueued hd ha (fun v hv => hj.sendable hd v (hrelayed.subset hv)) hsynthesized
  rw [heq, List.mem_append] at hw
  rcases hw with hw | hw
  · obtain ⟨u, hu, rfl⟩ := List.mem_map.mp hw
    rw [Guest.Process.reports_reread] at hreports
    cases hj.story hd with
    | early hearly =>
      rcases hearly.wrote with hnone | ⟨execution, message, hone, -⟩
      · rw [hnone, List.prefix_nil] at hrelayed
        rw [hrelayed] at hu
        cases hu
      · obtain rfl := List.mem_singleton.mp (hone ▸ hrelayed.subset hu)
        exact absurd hreports (Guest.Process.not_reports_failure _ _ _)
    | program r host events terminal replies hprogram hterminal =>
      have hspoken := hprogram.spoken
      have hopen : u ∉ events :=
        fun hu => Guest.Process.not_reports_event (hspoken.framed u hu) hreports
      have hmem := hrelayed.subset hu
      rw [hprogram.wrote] at hrelayed hmem
      have hlast := (List.mem_append.mp hmem).resolve_left hopen
      cases hterminal with
      | none => cases hlast
      | failed message =>
        rw [List.mem_singleton.mp hlast] at hreports
        exact absurd hreports (Guest.Process.not_reports_failure _ _ _)
      | completed native result time =>
        obtain rfl := List.mem_singleton.mp hlast
        -- what has been relayed goes as far as the terminal event
        have hall : relayed = events ++ [completedEvent r host native result time] :=
          (List.prefix_concat_iff.mp hrelayed).resolve_right
            fun hfront => hopen (hfront.subset hu)
        have hcount : (callsOf σ.loop.history).length = host.calls := by
          rw [hcalls, hall, List.filter_append,
            List.filter_cons_of_neg (by simp [Guest.Process.isCall_completed]), List.filter_nil,
            List.append_nil, hspoken.calls]
        have hword := Guest.Process.calls_lt_word hprogram.valid hspoken.counted
        have hreported : ((((completedEvent r host native result time)).index "usage").index
            "calls").asU64 = some host.calls := by
          rw [calls_completed]
          exact Json.Doc.asU64_u64 (by omega)
        have hsame : (σ.caller.calls serde).length = host.calls := by omega
        have hprinted : ((printed σ.guest.history).filter isCall).length = host.calls := by
          rw [hprogram.wrote, List.filter_append,
            List.filter_cons_of_neg (by simp [Guest.Process.isCall_completed]), List.filter_nil,
            List.append_nil, hspoken.calls]
        have hfront := (hj.caller_calls hd hf ha).trans (hj.loop_calls hd ha)
        refine ⟨?_, by omega, hfront.eq_of_length (by omega)⟩
        rw [hsame]
        exact calls_reported (calls_reported hreported f) f
  · cases hsynthesized w hw <;> exact absurd hreports (Guest.Process.not_reports_failure _ _ _)

/-- Where the caller has read the terminal event of an execution, the event tells how many calls
the caller has read, and the caller has answered all of them. -/
theorem completed_counts (hd : serde.Documented) (h : Reachable serde target number request σ)
    {v : Value} (hv : v ∈ decodedFrames serde σ.caller.took) (hreports : Reports v) :
    ((v.index "usage").index "calls").asU64 = some (σ.caller.calls serde).length ∧
      σ.caller.replies.length = (σ.caller.calls serde).length := by
  obtain ⟨f, hf⟩ := hd.numeric.rereads
  obtain ⟨ha, hjoined⟩ := joined_reachable hd h
  obtain ⟨husage, hanswered, -⟩ := (hjoined f hf).counts hd hf ha hv hreports
  exact ⟨husage, hanswered⟩

theorem completed_counts_sample : ∃ (σ : System) (v : Value),
    v ∈ decodedFrames SerdeJson.unicode σ.caller.took ∧
      ((v.index "usage").index "calls").asU64 =
        some (σ.caller.calls SerdeJson.unicode).length ∧
      σ.caller.replies.length = (σ.caller.calls SerdeJson.unicode).length := by
  obtain ⟨-, -, -, σ, -, -, -, hrun, -, v, hv, hreports⟩ := sample_plays
  exact ⟨σ, v, hv,
    completed_counts SerdeJson.unicode_documented (sample_reachable hrun) hv hreports⟩

end RubyEngine.System
