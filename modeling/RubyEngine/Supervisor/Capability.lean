import RubyEngine.Serde.Reference
import RubyEngine.Supervisor.Streams

/-!
# Capability safety

Whatever the guest and the host write, and however the kernel cuts it, the calls
that reach the host are the ones the request permits, numbered from one, and at
most one of them is unanswered.
-/
namespace RubyEngine.Supervisor.Capability

open Json (Value)
open Transition (Outcome Machine)

/-- The sequence number that an event or a reply carries. -/
def sequenceOf (v : Value) : Option Nat := (v.index "sequence").asU64

def isCall (v : Value) : Bool := (v.index "kind").asStr = some "call"

/-- The calls among the values handed to the host. -/
def callsOf (history : List Effect) : List Value := (enqueuedTo .host history).filter isCall

/-- The replies handed to the guest: everything after the request. -/
def repliesOf (history : List Effect) : List Value := (enqueuedTo .guest history).tail

/-- Values numbered one, two, and so on. -/
def Numbered (values : List Value) : Prop :=
  values.map sequenceOf = (List.range' 1 values.length).map some

/-- A call that this request permits. -/
structure Permitted (request : Request) (v : Value) : Prop where
  executes : request.validateOnly = false
  identity : (v.index "execution_id").asStr = some request.executionId
  path : ∃ path ∈ request.catalog, (v.index "path").asStr = some path

structure Safe (request : Request) (history : List Effect) : Prop where
  calls : Numbered (callsOf history)
  limit : (callsOf history).length ≤ request.limits.calls
  permitted : ∀ v ∈ callsOf history, Permitted request v
  toGuest : enqueuedTo .guest history = request.toValue :: repliesOf history
  replies : Numbered (repliesOf history)
  answered : (repliesOf history).length ≤ (callsOf history).length
  outstanding : (callsOf history).length ≤ (repliesOf history).length + 1

/-- The history is safe, and the loop knows the number of the last call and
whether it is answered. -/
structure Inv (request : Request) (s : Loop) (history : List Effect) : Prop where
  safe : Safe request history
  sequence : s.sequence = (callsOf history).length
  pending : ∀ n, s.pendingSequence = some n →
    n = (callsOf history).length ∧ (callsOf history).length = (repliesOf history).length + 1
  idle : s.pendingSequence = none → (callsOf history).length = (repliesOf history).length

theorem numbered_append {values : List Value} {v : Value} (h : Numbered values)
    (hv : sequenceOf v = some (values.length + 1)) : Numbered (values ++ [v]) := by
  rw [Numbered, List.map_append, h, List.length_append, List.length_singleton,
    ← List.range'_append_1, List.map_append]
  simp [hv, Nat.add_comm]

theorem callsOf_append (history effects : List Effect) :
    callsOf (history ++ effects) = callsOf history ++ callsOf effects := by
  simp [callsOf]

/-- A step that enqueues nothing changes neither list. -/
theorem safe_of_quiet {request : Request} {history effects : List Effect} (h : Safe request history)
    (hhost : callsOf effects = []) (hguest : enqueuedTo .guest effects = []) :
    Safe request (history ++ effects) := by
  have hcalls : callsOf (history ++ effects) = callsOf history := by
    rw [callsOf_append, hhost, List.append_nil]
  have hreplies : repliesOf (history ++ effects) = repliesOf history := by
    rw [repliesOf, repliesOf, enqueuedTo_append, hguest, List.append_nil]
  have hguests : enqueuedTo .guest (history ++ effects) = enqueuedTo .guest history := by
    rw [enqueuedTo_append, hguest, List.append_nil]
  constructor
  · rw [hcalls]; exact h.calls
  · rw [hcalls]; exact h.limit
  · rw [hcalls]; exact h.permitted
  · rw [hguests, hreplies]; exact h.toGuest
  · rw [hreplies]; exact h.replies
  · rw [hreplies, hcalls]; exact h.answered
  · rw [hreplies, hcalls]; exact h.outstanding

theorem inv_of_quiet {request : Request} {s t : Loop} {history effects : List Effect}
    (h : Inv request s history) (hhost : callsOf effects = [])
    (hguest : enqueuedTo .guest effects = []) (hs : t.sequence = s.sequence)
    (hp : t.pendingSequence = s.pendingSequence) : Inv request t (history ++ effects) := by
  have hcalls : callsOf (history ++ effects) = callsOf history := by
    rw [callsOf_append, hhost, List.append_nil]
  have hreplies : repliesOf (history ++ effects) = repliesOf history := by
    rw [repliesOf, repliesOf, enqueuedTo_append, hguest, List.append_nil]
  refine ⟨safe_of_quiet h.safe hhost hguest, ?_, ?_, ?_⟩
  · rw [hcalls, hs]; exact h.sequence
  · intro n hn
    rw [hcalls, hreplies]
    exact h.pending n (hp ▸ hn)
  · intro hn
    rw [hcalls, hreplies]
    exact h.idle (hp ▸ hn)

theorem callsOf_quiet {effects : List Effect} (h : ∀ x ∈ effects, x.quiet) :
    callsOf effects = [] := by
  rw [callsOf, enqueuedTo_quiet h, List.filter_nil]

theorem isCall_failure (execution kind message : String) :
    isCall (failure execution kind message) = false := by
  simp [isCall, failure, SortedMap.lookup, Json.Doc.asStr]

/-- A call that the loop admits extends the list of calls by the next one. -/
theorem inv_call {request : Request} {s : Loop} {history : List Effect} {v : Value}
    {effects : List Effect} (h : Inv request s history) (hid : (v.index "execution_id").asStr =
      some request.executionId) (hkind : (v.index "kind").asStr = some "call")
    (hc : Calls request s v) (hhost : enqueuedTo .host effects = [v])
    (hguest : enqueuedTo .guest effects = []) {t : Loop}
    (hs : t.sequence = s.sequence + 1) (hp : t.pendingSequence = some (s.sequence + 1)) :
    Inv request t (history ++ effects) := by
  have hone : callsOf effects = [v] := by simp [callsOf, hhost, isCall, hkind]
  have hcalls : callsOf (history ++ effects) = callsOf history ++ [v] := by
    rw [callsOf_append, hone]
  have hreplies : repliesOf (history ++ effects) = repliesOf history := by
    rw [repliesOf, repliesOf, enqueuedTo_append, hguest, List.append_nil]
  have hlen : (callsOf (history ++ effects)).length = (callsOf history).length + 1 := by
    rw [hcalls, List.length_append, List.length_singleton]
  have heq := h.idle hc.idle
  have hnext : sequenceOf v = some ((callsOf history).length + 1) := by
    rw [← h.sequence]; exact hc.sequence
  have hsafe : Safe request (history ++ effects) := by
    constructor
    · rw [hcalls]; exact numbered_append h.safe.calls hnext
    · rw [hlen, ← h.sequence]; exact hc.limit
    · rw [hcalls]
      intro w hw
      rcases List.mem_append.mp hw with hw | hw
      · exact h.safe.permitted w hw
      · rw [List.mem_singleton.mp hw]; exact ⟨hc.executes, hid, hc.path⟩
    · rw [hreplies, enqueuedTo_append, hguest, List.append_nil]; exact h.safe.toGuest
    · rw [hreplies]; exact h.safe.replies
    · rw [hreplies, hlen]; omega
    · rw [hreplies, hlen]; omega
  refine ⟨hsafe, by rw [hs, hlen, h.sequence], ?_, ?_⟩
  · intro n hn
    rw [hp] at hn
    obtain rfl := Option.some.inj hn
    rw [hreplies, hlen, h.sequence]
    omega
  · intro hn
    rw [hp] at hn
    cases hn

/-- A reply that the loop accepts has the number of the outstanding call. -/
theorem inv_reply {request : Request} {s : Loop} {history : List Effect} {v : Value}
    {effects : List Effect} (h : Inv request s history) (ha : Answers request s v)
    (hhost : callsOf effects = []) (hguest : enqueuedTo .guest effects = [v]) {t : Loop}
    (hs : t.sequence = s.sequence) (hp : t.pendingSequence = none) :
    Inv request t (history ++ effects) := by
  obtain ⟨n, hn, hseq⟩ := ha.outstanding
  obtain ⟨rfl, hout⟩ := h.pending n hn
  have hcalls : callsOf (history ++ effects) = callsOf history := by
    rw [callsOf_append, hhost, List.append_nil]
  have hreplies : repliesOf (history ++ effects) = repliesOf history ++ [v] := by
    rw [repliesOf, enqueuedTo_append, hguest, h.safe.toGuest, List.cons_append, List.tail_cons]
  have hlen : (repliesOf (history ++ effects)).length = (repliesOf history).length + 1 := by
    rw [hreplies, List.length_append, List.length_singleton]
  have hsafe : Safe request (history ++ effects) := by
    constructor
    · rw [hcalls]; exact h.safe.calls
    · rw [hcalls]; exact h.safe.limit
    · rw [hcalls]; exact h.safe.permitted
    · rw [hreplies, enqueuedTo_append, hguest, h.safe.toGuest, List.cons_append]
    · rw [hreplies]; exact numbered_append h.safe.replies (hout ▸ hseq)
    · rw [hcalls, hlen]; omega
    · rw [hcalls, hlen]; omega
  refine ⟨hsafe, by rw [hs, hcalls, h.sequence], ?_, ?_⟩
  · intro n hn
    rw [hp] at hn
    cases hn
  · intro _
    rw [hcalls, hlen]
    exact hout

theorem inv_start {serde : SerdeJson} {request : Request} {s : Loop}
    (h : enter serde request = .ok s) :
    Inv request s [.enqueued .guest request.toValue] := by
  obtain ⟨_, _, hs⟩ := enter_cases h
  have hcalls : callsOf [.enqueued .guest request.toValue] = [] := by simp [callsOf]
  have hreplies : repliesOf [.enqueued .guest request.toValue] = [] := by simp [repliesOf]
  refine ⟨?_, ?_, ?_, ?_⟩
  · constructor <;> simp [hcalls, hreplies, Numbered]
  · rw [hs, hcalls]; rfl
  · intro n hn
    rw [hs] at hn
    cases hn
  · intro _
    rw [hcalls, hreplies]

theorem inv_step {serde : SerdeJson} {request : Request} {s t : Loop} {answer : Answer}
    {history effects : List Effect} (h : Inv request s history)
    (hstep : step serde request s answer = some (.next t effects)) :
    Inv request t (history ++ effects) := by
  have hc := step_cases hstep
  cases hc with
  | idle => exact inv_of_quiet h rfl rfl rfl rfl
  | expired w _ _ =>
    exact inv_of_quiet h (by simp [callsOf, wallTimeout, isCall_failure]) (by simp) rfl rfl
  | ceiling bytes w _ _ _ =>
    exact inv_of_quiet h (by simp [callsOf, memoryLimit, isCall_failure]) (by simp) rfl rfl
  | hostTook | guestSent | hostSent | guestTook | guestEof =>
    exact inv_of_quiet h (by simp [callsOf]) (by simp) rfl rfl
  | reply outcome v w _ _ ha _ =>
    exact inv_reply h ha (by simp [callsOf]) (by simp) rfl rfl
  | event outcome v s' w _ _ _ _ _ hid hadmit _ =>
    cases hadmit with
    | completed hk | log hk =>
      exact inv_of_quiet h (by simp [callsOf, isCall, hk]) (by simp) rfl rfl
    | call hk hc =>
      have hc' : Calls request s v := ⟨hc.executes, hc.idle, hc.sequence, hc.limit, hc.path⟩
      exact inv_call h hid hk hc' (by simp) (by simp) rfl rfl
  | childExited status w _ _ _ _ =>
    exact inv_of_quiet h (by simp [callsOf, guestExit, isCall_failure]) (by simp) rfl rfl

theorem inv_reaches {serde : SerdeJson} {request : Request} {s : Loop} {history : List Effect}
    (h : (machine serde request).Reaches s history) : Inv request s history := by
  refine h.invariant ?_ ?_
  · rintro s history ⟨hs, rfl⟩
    exact inv_start hs
  · intro s answer t history effects hi hstep
    exact inv_step hi hstep

theorem safe_exit {serde : SerdeJson} {request : Request} {s : Loop} {answer : Answer}
    {result : Except IoError Unit} {history effects : List Effect} (h : Inv request s history)
    (hstep : step serde request s answer = some (.exit result effects)) :
    Safe request (history ++ effects) := by
  have hc := step_cases hstep
  cases hc with
  | expiredPending | lastSent | done => exact safe_of_quiet h.safe (by simp [callsOf]) (by simp)
  | failed _ e _ _ hquiet _ =>
    exact safe_of_quiet h.safe (callsOf_quiet hquiet) (enqueuedTo_quiet hquiet .guest)

/-- Capability safety of the supervisor against any guest and any host: at every
point of every run, finished or not. -/
theorem capability_safety (serde : SerdeJson) (request : Request) (history : List Effect)
    (h : (machine serde request).Observes history) : Safe request history :=
  h.of_invariant (fun _ _ hr => inv_reaches hr) (fun _ _ hi => hi.safe)
    (fun _ _ _ _ _ hi hstep => safe_exit hi hstep)

/-- One iteration without a kill, with room for whatever is pending. -/
def iteration (host guest : ReadOutcome) : List Answer :=
  [.clock false, .resident none, .read host, .write (.room CHUNK), .write (.room CHUNK),
    .read guest, .waited (.ok none), .polled (.ok ())]

def nothing : ReadOutcome := .failed ⟨.wouldBlock, ""⟩

def sampleCall : Value :=
  Value.object [("protocol", .string PROTOCOL), ("execution_id", .string "e"),
    ("kind", .string "call"), ("sequence", .u64 1), ("path", .string "a"), ("args", .array [])]

def sampleReply : Value :=
  Value.object [("protocol", .string PROTOCOL), ("execution_id", .string "e"),
    ("kind", .string "reply"), ("sequence", .u64 1), ("ok", .bool true), ("value", .null)]

/-- The guest calls, and the host answers. -/
def sampleRun : List Answer :=
  let event := Framing.frame (SerdeJson.reference.toVec sampleCall)
  let reply := Framing.frame (SerdeJson.reference.toVec sampleReply)
  iteration nothing (.data event) ++ iteration nothing (.data (event.drop 4)) ++
    iteration nothing nothing ++ iteration (.data reply) nothing ++
    iteration (.data (reply.drop 4)) nothing

theorem capability_safety_sample : ∃ history, Safe Request.sample history ∧
    callsOf history = [sampleCall] ∧ repliesOf history = [sampleReply] := by
  have hstart : (machine SerdeJson.reference Request.sample).Reaches
      { toGuest := fresh SerdeJson.reference Request.sample.toValue }
      [.enqueued .guest Request.sample.toValue] :=
    .start ⟨enter_of_fits (by decide) (by decide +kernel), rfl⟩
  have hplay : ((machine SerdeJson.reference Request.sample).play
      { toGuest := fresh SerdeJson.reference Request.sample.toValue }
      [.enqueued .guest Request.sample.toValue] sampleRun).map
        (fun history => (callsOf history, repliesOf history)) =
      some ([sampleCall], [sampleReply]) := by decide +kernel
  obtain ⟨history, hrun, hlists⟩ := Option.map_eq_some_iff.mp hplay
  have hsafe := capability_safety SerdeJson.reference Request.sample history
    (hstart.observes_of_play hrun)
  exact ⟨history, hsafe, congrArg Prod.fst hlists, congrArg Prod.snd hlists⟩

end RubyEngine.Supervisor.Capability
