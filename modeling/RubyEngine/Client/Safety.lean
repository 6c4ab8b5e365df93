import RubyEngine.Client.Privacy
import RubyEngine.Client.Turns
import RubyEngine.Transition.Liveness

/-!
# The client against any engine

The engine may send any bytes in any pieces, and the closures may return or throw
anything. Each closure that runs was asked for by an event of its own, in the order
of the sequence numbers; each answer is sent as one frame before the client reads on;
and whatever goes wrong ends up in an `Execution`.
-/
namespace RubyEngine.Client.Execute

open Json (Doc Integer)
open Transition (Outcome Machine Move)

variable {php : Php} {inv : Invocation}

/-! ## What a history shows -/

/-- The bytes that have been read. -/
def heard (history : List Effect) : Bytes :=
  history.flatMap fun
    | .read bytes => bytes
    | _ => []

/-- The bytes that have been written. -/
def sent (history : List Effect) : Bytes :=
  history.flatMap fun
    | .wrote bytes => bytes
    | _ => []

def invoked : Effect → Option (String × List Doc)
  | .invoked path args => some (path, args)
  | _ => none

/-- The closures that ran, with their arguments. -/
def invocations (history : List Effect) : List (String × List Doc) := history.filterMap invoked

@[simp] theorem heard_append (history more : List Effect) :
    heard (history ++ more) = heard history ++ heard more := List.flatMap_append

@[simp] theorem sent_append (history more : List Effect) :
    sent (history ++ more) = sent history ++ sent more := List.flatMap_append

@[simp] theorem invocations_append (history more : List Effect) :
    invocations (history ++ more) = invocations history ++ invocations more :=
  List.filterMap_append

@[simp] theorem heard_nil : heard [] = [] := rfl
@[simp] theorem sent_nil : sent [] = [] := rfl
@[simp] theorem invocations_nil : invocations [] = [] := rfl
@[simp] theorem heard_read (bytes : Bytes) : heard [.read bytes] = bytes := List.append_nil bytes
@[simp] theorem heard_wrote (bytes : Bytes) : heard [.wrote bytes] = [] := rfl
@[simp] theorem heard_invoked (path : String) (args : List Doc) : heard [.invoked path args] = [] := rfl
@[simp] theorem sent_wrote (bytes : Bytes) : sent [.wrote bytes] = bytes := List.append_nil bytes
@[simp] theorem invocations_read (bytes : Bytes) : invocations [.read bytes] = [] := rfl
@[simp] theorem invocations_wrote (bytes : Bytes) : invocations [.wrote bytes] = [] := rfl
@[simp] theorem invocations_invoked (path : String) (args : List Doc) :
    invocations [.invoked path args] = [(path, args)] := rfl

/-! ## Events that ask for a closure -/

/-- The event is a call of a registered closure, within the limits, and the `n`th one. -/
structure Requests (inv : Invocation) (event : Doc) (n : Nat) (path : String) (args : List Doc) :
    Prop where
  identity : event.index "execution_id" = .string inv.executionId
  kind : event.index "kind" = .string "call"
  sequence : (event.index "sequence").asU64 = some n
  within : (n : Int) ≤ inv.limit "calls"
  named : event.index "path" = .string path
  passed : event.index "args" = .array args
  registered : utf8 path ∈ inv.capabilities
  executes : inv.validateOnly = false

/-- The closures that some events ask for: the first event that asks has the sequence number
one, and each of the others the next number. -/
inductive Asked (inv : Invocation) : List Doc → List (String × List Doc) → Prop where
  | nil : Asked inv [] []
  | other {events : List Doc} {calls : List (String × List Doc)} (event : Doc) :
      Asked inv events calls → Asked inv (events ++ [event]) calls
  | call {events : List Doc} {calls : List (String × List Doc)} {event : Doc} {path : String}
      {args : List Doc} : Asked inv events calls →
      Requests inv event (calls.length + 1) path args →
      Asked inv (events ++ [event]) (calls ++ [(path, args)])

theorem Asked.bounded {events : List Doc} {calls : List (String × List Doc)}
    (h : Asked inv events calls) :
    calls = [] ∨ (calls.length : Int) ≤ inv.limit "calls" ∧ inv.validateOnly = false := by
  induction h with
  | nil => exact Or.inl rfl
  | other event _ ih => exact ih
  | call _ hrequests _ =>
    right
    rw [List.length_append, List.length_singleton]
    exact ⟨hrequests.within, hrequests.executes⟩

theorem Invocation.limit_lt (inv : Invocation) (name : String) : inv.limit name < 2 ^ 64 := by
  rw [Invocation.limit]
  cases SortedMap.lookup name inv.allLimits with
  | none => decide
  | some i => exact i.2.2

theorem asStr_eq_some {d : Doc} {s : String} (h : d.asStr = some s) : d = .string s := by
  cases d with
  | string t => exact congrArg Doc.string (Option.some.inj h)
  | null | bool | number | array | object => cases h

theorem isCase_iff {kind : Doc} {label : String} :
    isCase kind label = true ↔ kind = .string label ∨ kind = .bool true := by
  rw [isCase, Bool.or_eq_true, decide_eq_true_eq, decide_eq_true_eq]

theorem onLogEvent_ok {vars : Vars} {event : Doc} {after : After}
    (h : onLogEvent php inv vars event = .ok after) :
    ∃ vars', after = .listen vars' ∧ vars'.sequence = vars.sequence := by
  unfold onLogEvent at h
  split at h
  · next values _ =>
    cases hjson : php.encodeRead (.array values) with
    | error e =>
      rw [hjson] at h
      cases h
    | ok json =>
      rw [hjson] at h
      simp only [bind, Except.bind] at h
      split at h
      · cases h
      · cases h
        exact ⟨_, rfl, rfl⟩
  · cases h

theorem onCallEvent_ok {vars : Vars} {event : Doc} {after : After}
    (hid : event.index "execution_id" = .string inv.executionId)
    (hkind : event.index "kind" = .string "call") (h : onCallEvent inv vars event = .ok after) :
    ∃ path args, after = .call { vars with sequence := vars.sequence + 1 } path args ∧
      Requests inv event (vars.sequence + 1) path args := by
  unfold onCallEvent at h
  dsimp only at h
  split at h
  · cases h
  next hguard =>
  obtain ⟨hexecutes, hsequence, hwithin⟩ := (not_or.mp hguard).imp_right not_or.mp
  split at h
  · next path args hpath hargs =>
    split at h
    · next hregistered =>
      cases h
      exact ⟨path, args, rfl, hid, hkind, not_not.mp hsequence, Int.not_lt.mp hwithin, hpath, hargs,
        hregistered, Bool.eq_false_of_not_eq_true hexecutes⟩
    · cases h
  · cases h

theorem onCompleted_ok {vars : Vars} {event : Doc} {after : After}
    (h : onCompleted inv vars event = .ok after) :
    ∃ result, after = .finish result := by
  unfold onCompleted at h
  split at h
  · cases h
    exact ⟨_, rfl⟩
  · cases h
    exact ⟨_, rfl⟩
  · cases h

/-- What an event that passes every check leads to. -/
inductive Takes (inv : Invocation) (vars : Vars) (event : Doc) : After → Prop where
  | listen {vars' : Vars} : vars'.sequence = vars.sequence → Takes inv vars event (.listen vars')
  | call {vars' : Vars} {path : String} {args : List Doc} :
      vars'.sequence = vars.sequence + 1 → Requests inv event (vars.sequence + 1) path args →
      Takes inv vars event (.call vars' path args)
  | finish {result : Execution} : onCompleted inv vars event = .ok (.finish result) →
      Takes inv vars event (.finish result)

theorem onEvent_takes {vars : Vars} {event : Doc} {after : After}
    (h : onEvent php inv vars event = .ok after) : Takes inv vars event after := by
  unfold onEvent at h
  split at h
  · cases h
  next hidentity =>
  have hid := asStr_eq_some (not_not.mp (not_or.mp hidentity).2)
  split at h
  · obtain ⟨vars', rfl, hsequence⟩ := onLogEvent_ok h
    exact .listen hsequence
  next hlog =>
  split at h
  · next hcall =>
    -- the loose comparison takes `true` for a log event, which comes first
    have hkind : event.index "kind" = .string "call" := by
      rcases isCase_iff.mp hcall with heq | heq
      · exact heq
      · exact absurd (isCase_iff.mpr (Or.inr heq)) hlog
    obtain ⟨path, args, rfl, hrequests⟩ := onCallEvent_ok hid hkind h
    exact .call rfl hrequests
  · split at h
    · obtain ⟨result, rfl⟩ := onCompleted_ok h
      exact .finish h
    · cases h

/-! ## The calls so far -/

/-- The part of a frame that has been read at a place. -/
def Place.tail : Place → Bytes → Prop
  | .header got, rest => rest = got ∧ got.length < 4
  | .payload length got, rest => ∃ head : Bytes, head.length = 4 ∧ fromBe32 head = length ∧
      rest = head ++ got ∧ got.length < length
  | _, rest => rest = []

/-- How the closures that ran stand to the events so far. At the checkpoint before a closure the
last event still waits for it. -/
def Counted (inv : Invocation) (s : State) (events : List Doc) (calls : List (String × List Doc)) :
    Prop :=
  match s.place with
  | .checking path args => s.vars.sequence = calls.length + 1 ∧ ∃ before event,
      events = before ++ [event] ∧ Asked inv before calls ∧
        Requests inv event (calls.length + 1) path args
  | _ => s.vars.sequence = calls.length ∧ Asked inv events calls

/-- The client has read some frames and a part of one more. -/
structure Follows (php : Php) (inv : Invocation) (s : State) (history : List Effect)
    (payloads : List Bytes) (events : List Doc) (rest : Bytes) : Prop where
  decoded : payloads.map (incoming php) = events.map Except.ok
  heard : heard history = Framing.concat payloads ++ rest
  tail : s.place.tail rest
  counted : Counted inv s events (invocations history)

/-- The last bytes of a payload complete a frame. -/
theorem frame_of_tail {head got : Bytes} (hhead : head.length = 4)
    (hsize : got.length = fromBe32 head) : head ++ got = Framing.frame got := by
  have hstream : fromBe32 (head ++ got) = got.length := by
    rw [fromBe32_append (Nat.le_of_eq hhead.symm), hsize]
  have hframe := Framing.frame_take hstream (by rw [List.length_append]; omega)
  have hdrop : (head ++ got).drop 4 = got := List.drop_left' hhead
  have hall : (head ++ got).drop (got.length + 4) = [] :=
    List.drop_of_length_le (by rw [List.length_append]; omega)
  rw [hdrop, hall, List.append_nil, List.take_of_length_le (Nat.le_refl _)] at hframe
  exact hframe.symm

theorem follows_frame {length : Nat} {got bytes rest : Bytes} {history : List Effect}
    {payloads : List Bytes} {events : List Doc} {event : Doc}
    (hdecoded : payloads.map (incoming php) = events.map Except.ok)
    (hheard : heard history = Framing.concat payloads ++ rest)
    (htail : (Place.payload length got).tail rest) (hsize : bytes.length ≤ length - got.length)
    (hfull : length ≤ (got ++ bytes).length) (hincoming : incoming php (got ++ bytes) = .ok event) :
    heard history ++ bytes = Framing.concat (payloads ++ [got ++ bytes]) ∧
      (payloads ++ [got ++ bytes]).map (incoming php) = (events ++ [event]).map Except.ok := by
  obtain ⟨head, hhead, hlength, rfl, hgot⟩ := htail
  constructor
  · have hframe := @frame_of_tail head (got ++ bytes) hhead (by
      rw [List.length_append] at hfull ⊢
      omega)
    rw [hheard, Framing.concat_append, Framing.concat_cons, Framing.concat_nil, List.append_nil,
      ← hframe]
    simp only [List.append_assoc]
  · rw [List.map_append, List.map_append, hdecoded, List.map_singleton, List.map_singleton, hincoming]

theorem follows_start : Follows php inv initial [] [] [] [] where
  decoded := rfl
  heard := rfl
  tail := rfl
  counted := ⟨rfl, .nil⟩

/-- One turn of the loop, from the frames so far to the frames after it. -/
theorem follows_next {s t : State} {answer : Answer} {history effects : List Effect}
    {payloads : List Bytes} {events : List Doc} {rest : Bytes}
    (hinv : Follows php inv s history payloads events rest)
    (hturn : Turn php inv s answer (.next t effects)) :
    ∃ payloads events rest, Follows php inv t (history ++ effects) payloads events rest := by
  obtain ⟨hdecoded, hheard, htail, hcounted⟩ := hinv
  cases hturn with
  | opened hbytes =>
    refine ⟨payloads, events, rest, hdecoded, ?_, htail, ?_⟩
    · rw [List.append_nil, hheard]
    · rw [List.append_nil]
      exact hcounted
  | wrote hcheck hlast =>
    obtain rfl : rest = [] := htail
    refine ⟨payloads, events, [], hdecoded, ?_, ⟨rfl, by decide⟩, ?_⟩
    · rw [heard_append, heard_wrote, List.append_nil, hheard]
    · rw [invocations_append, invocations_wrote, List.append_nil]
      exact hcounted
  | writes hcheck hmore =>
    refine ⟨payloads, events, rest, hdecoded, ?_, htail, ?_⟩
    · rw [heard_append, heard_wrote, List.append_nil, hheard]
    · rw [invocations_append, invocations_wrote, List.append_nil]
      exact hcounted
  | @header vars got bytes check ended hcheck hshort =>
    obtain ⟨rfl, -⟩ := htail
    refine ⟨payloads, events, rest ++ bytes, hdecoded, ?_, ⟨rfl, hshort⟩, ?_⟩
    · rw [heard_append, heard_read, hheard, List.append_assoc]
    · rw [invocations_append, invocations_read, List.append_nil]
      exact hcounted
  | @announced vars got bytes check ended hcheck hsize hfull hlength =>
    obtain ⟨rfl, hgot⟩ := htail
    have hfour : (rest ++ bytes).length = 4 := by
      rw [List.length_append] at hfull ⊢
      omega
    refine ⟨payloads, events, rest ++ bytes, hdecoded, ?_,
      ⟨rest ++ bytes, hfour, rfl, (List.append_nil _).symm, hlength⟩, ?_⟩
    · rw [heard_append, heard_read, hheard, List.append_assoc]
    · rw [invocations_append, invocations_read, List.append_nil]
      exact hcounted
  | @payload vars length got bytes check ended hcheck hshort =>
    obtain ⟨head, hhead, hlength, rfl, -⟩ := htail
    refine ⟨payloads, events, head ++ (got ++ bytes), hdecoded, ?_,
      ⟨head, hhead, hlength, rfl, hshort⟩, ?_⟩
    · rw [heard_append, heard_read, hheard]
      simp only [List.append_assoc]
    · rw [invocations_append, invocations_read, List.append_nil]
      exact hcounted
  | @listens vars vars' length got bytes check ended event hcheck hsize hfull hincoming hevent =>
    obtain ⟨hheard', hdecoded'⟩ := follows_frame hdecoded hheard htail hsize hfull hincoming
    obtain ⟨hsequence, hasked⟩ := hcounted
    refine ⟨payloads ++ [got ++ bytes], events ++ [event], [], hdecoded', ?_, ⟨rfl, by decide⟩, ?_⟩
    · rw [heard_append, heard_read, hheard', List.append_nil]
    · rw [invocations_append, invocations_read, List.append_nil]
      cases onEvent_takes hevent with
      | listen hsame => exact ⟨hsame.trans hsequence, hasked.other event⟩
  | @asks vars vars' length got bytes check ended event path args hcheck hsize hfull hincoming hevent =>
    obtain ⟨hheard', hdecoded'⟩ := follows_frame hdecoded hheard htail hsize hfull hincoming
    obtain ⟨hsequence, hasked⟩ := hcounted
    refine ⟨payloads ++ [got ++ bytes], events ++ [event], [], hdecoded', ?_, rfl, ?_⟩
    · rw [heard_append, heard_read, hheard', List.append_nil]
    · rw [invocations_append, invocations_read, List.append_nil]
      cases onEvent_takes hevent with
      | call hnext hrequests =>
        have hcount : vars.sequence = (invocations history).length := hsequence
        rw [hcount] at hnext hrequests
        exact ⟨hnext, events, event, rfl, hasked, hrequests⟩
  | invokes hcheck =>
    obtain rfl : rest = [] := htail
    obtain ⟨hsequence, before, event, rfl, hasked, hrequests⟩ := hcounted
    refine ⟨payloads, before ++ [event], [], hdecoded, ?_, rfl, ?_⟩
    · rw [heard_append, heard_invoked, List.append_nil, hheard]
    · rw [invocations_append, invocations_invoked]
      refine ⟨?_, hasked.call hrequests⟩
      rw [List.length_append, List.length_singleton]
      exact hsequence
  | replies hsettles hbytes =>
    refine ⟨payloads, events, rest, hdecoded, ?_, htail, ?_⟩
    · rw [List.append_nil, hheard]
    · rw [List.append_nil]
      exact hcounted

/-! ## The text of a reply -/

/-- What a reply says: which call of which execution it answers, and what became of the closure. -/
structure Says (inv : Invocation) (n : Nat) (outcome : Except Thrown Provided) (d : Doc) : Prop where
  protocol : d.index "protocol" = .string PROTOCOL
  identity : d.index "execution_id" = .string inv.executionId
  kind : d.index "kind" = .string "reply"
  sequence : (d.index "sequence").asU64 = some n
  ok : d.index "ok" = .bool outcome.isOk
  value : ∀ v, outcome = .ok v → encode 1 v = .ok (d.index "value")

/-- The bytes are one frame that holds the reply to the `n`th call. -/
def IsReply (php : Php) (inv : Invocation) (n : Nat) (outcome : Except Thrown Provided)
    (bytes : Bytes) : Prop :=
  ∃ d : Doc, Says inv n outcome d ∧ Framing.Fits MAX_FRAME (php.frameStyle.render d) ∧
    bytes = Framing.frame (php.frameStyle.render d)

theorem encodeEntries_member {depth : Nat} {name : String} {value : Provided}
    {rest : List (Bytes × Provided)} {members : List (String × Doc)}
    (h : encodeEntries depth (member name value :: rest) = .ok members) :
    ∃ d more, encode depth value = .ok d ∧ encodeEntries depth rest = .ok more ∧
      members = (name, d) :: more := by
  rw [member, encodeEntries, encodeString_utf8] at h
  cases hd : encode depth value with
  | error e =>
    rw [hd] at h
    cases h
  | ok d =>
    cases hmore : encodeEntries depth rest with
    | error e =>
      rw [hd, hmore] at h
      cases h
    | ok more =>
      rw [hd, hmore] at h
      cases h
      exact ⟨d, more, rfl, rfl, rfl⟩

theorem encode_text {depth : Nat} {s : String} {d : Doc} (h : encode depth (text s) = .ok d) :
    d = .string s := by
  rw [text, encode, encodeString_utf8] at h
  exact (Except.ok.inj h).symm

/-- What the closure did is told by the members behind the number of the call. -/
theorem encode_replyFields {outcome : Except Thrown Provided} {members : List (String × Doc)}
    (h : encodeEntries 1 (replyFields outcome) = .ok members) :
    ∃ more, members = ("ok", .bool outcome.isOk) :: more ∧
      ∀ v, outcome = .ok v → ∃ d, encode 1 v = .ok d ∧ more = [("value", d)] := by
  cases outcome with
  | ok v =>
    obtain ⟨ok, rest, hok, hrest, rfl⟩ := encodeEntries_member h
    obtain ⟨d, none, hd, hnone, rfl⟩ := encodeEntries_member hrest
    cases hok
    cases hnone
    refine ⟨_, rfl, ?_⟩
    rintro v ⟨rfl⟩
    exact ⟨d, hd, rfl⟩
  | error e =>
    obtain ⟨fields, hfields⟩ : ∃ fields, replyFields (.error e) =
        member "ok" (.bool false) :: fields := by
      cases e with
      | capability failure => exact ⟨_, rfl⟩
      | json message => exact ⟨_, rfl⟩
      | other message => exact ⟨_, rfl⟩
    rw [hfields] at h
    obtain ⟨ok, rest, hok, hrest, rfl⟩ := encodeEntries_member h
    cases hok
    exact ⟨rest, rfl, fun v hv => by cases hv⟩

theorem spoken_of_encode {n : Nat} {outcome : Except Thrown Provided} {d : Doc} (hn : n < 2 ^ 64)
    (h : encode 0 (reply inv n (replyFields outcome)) = .ok d) : Says inv n outcome d := by
  rw [reply, encode] at h
  cases hmembers : encodeEntries (0 + 1) ([member "protocol" (text PROTOCOL),
      member "execution_id" (text inv.executionId), member "kind" (text "reply"),
      member "sequence" (.int (Integer.wrap n))] ++ replyFields outcome) with
  | error e =>
    rw [hmembers] at h
    cases h
  | ok members =>
    rw [hmembers] at h
    obtain rfl : Doc.object members = d := Except.ok.inj h
    obtain ⟨protocol, behind, hprotocol, hbehind, rfl⟩ := encodeEntries_member hmembers
    obtain ⟨identity, named, hidentity, hnamed, rfl⟩ := encodeEntries_member hbehind
    obtain ⟨kind, counted, hkind, hcounted, rfl⟩ := encodeEntries_member hnamed
    obtain ⟨sequence, fields, hsequence, hfields, rfl⟩ := encodeEntries_member hcounted
    obtain ⟨more, rfl, hvalue⟩ := encode_replyFields hfields
    obtain rfl := encode_text hprotocol
    obtain rfl := encode_text hidentity
    obtain rfl := encode_text hkind
    cases hsequence
    refine ⟨rfl, rfl, rfl, Json.Doc.asU64_u64 hn, rfl, ?_⟩
    intro v hv
    obtain ⟨d, hd, rfl⟩ := hvalue v hv
    exact hd

theorem Says.render_pos {n : Nat} {outcome : Except Thrown Provided} {d : Doc}
    (h : Says inv n outcome d) (style : Json.Style) : 0 < (style.render d).length := by
  have hprotocol := h.protocol
  cases d with
  | object entries =>
    rw [Json.Style.render]
    exact Nat.succ_pos _
  | null | bool | number | string | array => cases hprotocol

/-- The bytes that go out for a closure are the frame of its reply. -/
theorem isReply_of_outgoing {n : Nat} {outcome : Except Thrown Provided} {bytes : Bytes}
    (hn : n < 2 ^ 64) (h : outgoing php (reply inv n (replyFields outcome)) = .ok bytes) :
    IsReply php inv n outcome bytes := by
  rw [outgoing] at h
  cases hd : encode 0 (reply inv n (replyFields outcome)) with
  | error e =>
    rw [hd] at h
    cases h
  | ok d =>
    rw [hd] at h
    simp only [bind, Except.bind] at h
    split at h
    · cases h
    · next hsize =>
      have hspoken := spoken_of_encode hn hd
      refine ⟨d, hspoken, ⟨hspoken.render_pos php.frameStyle, Nat.not_lt.mp hsize⟩,
        (Except.ok.inj h).symm⟩

/-! ## The answer to a call -/

abbrev Moved := Move State Answer Effect Execution

/-- The frame was written whole, and nothing else before the next read. -/
def Answered (bytes : Bytes) (after : List Moved) : Prop :=
  ∃ writes others, after = writes ++ others ∧ (∀ move ∈ writes, move.answer.writes = true) ∧
    sent (Machine.effects writes) = bytes ∧ ∀ move ∈ others.head?, move.answer.reads = true

/-- The frame is being written. If the call is over, the last write was cut off. -/
def Unfinished (bytes : Bytes) (after : List Moved) : Prop :=
  (∀ move ∈ after, move.answer.writes = true) ∧ sent (Machine.effects after) <+: bytes ∧
    ∀ move ∈ after, move.outcome.result.isSome = true → move.answer.broken

/-- Where an answer of the client stands in a state, with the moves since the closure. -/
inductive Serves (bytes : Bytes) (s : State) : List Moved → Prop where
  | writing {rest : Bytes} {after : List Moved} : s.place = .writing rest →
      (∀ move ∈ after, move.answer.writes = true) → sent (Machine.effects after) ++ rest = bytes →
      Serves bytes s after
  | written {writes : List Moved} : s.place = .header [] →
      (∀ move ∈ writes, move.answer.writes = true) → sent (Machine.effects writes) = bytes →
      Serves bytes s writes
  | past {writes others : List Moved} {move : Moved} :
      (∀ move ∈ writes, move.answer.writes = true) → sent (Machine.effects writes) = bytes →
      move.answer.reads = true → Serves bytes s (writes ++ move :: others)

theorem effects_concat (moves : List Moved) (move : Moved) :
    Machine.effects (moves ++ [move]) = Machine.effects moves ++ move.outcome.effects := by
  rw [Machine.effects, List.flatMap_append]
  exact congrArg _ (List.append_nil _)

theorem writes_concat {moves : List Moved} {last : Moved}
    (h : ∀ move ∈ moves, move.answer.writes = true) (hlast : last.answer.writes = true) :
    ∀ move ∈ moves ++ [last], move.answer.writes = true := by
  intro move hmove
  rcases List.mem_append.mp hmove with hold | hnew
  · exact h move hold
  · rw [List.mem_singleton.mp hnew]
    exact hlast

theorem serves_next {bytes : Bytes} {s t : State} {answer : Answer} {effects : List Effect}
    {after : List Moved} (h : Serves bytes s after) (hturn : Turn php inv s answer (.next t effects)) :
    Serves bytes t (after ++ [⟨s, answer, .next t effects⟩]) := by
  cases h with
  | writing hplace hwrites hsent =>
    obtain ⟨place, vars⟩ := s
    obtain rfl : place = .writing _ := hplace
    cases hturn with
    | wrote hcheck hlast =>
      refine .written rfl (writes_concat hwrites rfl) ?_
      rw [effects_concat, sent_append]
      exact (congrArg _ (sent_wrote _)).trans hsent
    | writes hcheck hmore =>
      refine .writing rfl (writes_concat hwrites rfl) ?_
      rw [effects_concat, sent_append, ← hsent, List.append_assoc]
      refine congrArg _ ?_
      show sent [.wrote _] ++ _ = _
      rw [sent_wrote, List.take_append_drop]
  | written hplace hwrites hsent =>
    obtain ⟨place, vars⟩ := s
    obtain rfl : place = .header [] := hplace
    cases hturn with
    | header hcheck hshort => exact .past hwrites hsent rfl
    | announced hcheck hsize hfull hlength => exact .past hwrites hsent rfl
  | past hwrites hsent hread =>
    rw [List.append_assoc, List.cons_append]
    exact .past hwrites hsent hread

theorem serves_exit {bytes : Bytes} {s : State} {answer : Answer} {effects : List Effect}
    {result : Execution} {after : List Moved} (h : Serves bytes s after)
    (hnext : ∀ move ∈ after, move.outcome.result = none)
    (hturn : Turn php inv s answer (.exit result effects)) :
    Answered bytes (after ++ [⟨s, answer, .exit result effects⟩]) ∨
      Unfinished bytes (after ++ [⟨s, answer, .exit result effects⟩]) := by
  cases h with
  | @writing rest after hplace hwrites hsent =>
    obtain ⟨place, vars⟩ := s
    obtain rfl : place = .writing rest := hplace
    cases hturn with
    | breaks hbroken heffects =>
      right
      refine ⟨writes_concat hwrites rfl, ?_, ?_⟩
      · rw [effects_concat, sent_append, ← hsent]
        rcases heffects with rfl | ⟨n, rfl⟩
        · show _ ++ sent [] <+: _
          rw [sent_nil, List.append_nil]
          exact List.prefix_append _ _
        · show _ ++ sent [.wrote (rest.take n)] <+: _
          rw [sent_wrote]
          exact (List.prefix_append_right_inj _).mpr (List.take_prefix n rest)
      · intro move hmove hexit
        rcases List.mem_append.mp hmove with hold | hnew
        · rw [hnext move hold] at hexit
          cases hexit
        · rw [List.mem_singleton.mp hnew]
          exact hbroken
    | throws hlistens hreads heffects => cases hlistens
  | written hplace hwrites hsent =>
    obtain ⟨place, vars⟩ := s
    obtain rfl : place = .header [] := hplace
    left
    refine ⟨after, _, rfl, hwrites, hsent, ?_⟩
    intro move hmove
    obtain rfl := Option.mem_some.mp hmove
    cases hturn with
    | throws hlistens hreads heffects => exact hreads
  | @past writes others move hwrites hsent hread =>
    left
    refine ⟨writes, move :: others ++ [_], by rw [List.append_assoc], hwrites, hsent, ?_⟩
    intro first hfirst
    obtain rfl := Option.mem_some.mp hfirst
    exact hread

/-- The answers to the closures so far, in a state that the run goes on from. -/
structure Replying (php : Php) (inv : Invocation) (s : State) (moves : List Moved) : Prop where
  running : ∀ move ∈ moves, move.outcome.result = none
  answers : ∀ before call after outcome, moves = before ++ call :: after →
    call.answer.settles = some outcome → ∃ bytes,
      outgoing php (reply inv (invocations (Machine.effects before)).length
        (replyFields outcome)) = .ok bytes ∧
      IsReply php inv (invocations (Machine.effects before)).length outcome bytes ∧
      call.outcome = .next ⟨.writing bytes, call.source.vars⟩ [] ∧ Serves bytes s after

/-- The number of the closures that have run is a machine word. -/
theorem invocations_word {s : State} {history : List Effect}
    (h : ∃ payloads events rest, Follows php inv s history payloads events rest)
    {path : String} {args : List Doc} (hplace : s.place = .calling path args) :
    (invocations history).length < 2 ^ 64 := by
  obtain ⟨payloads, events, rest, hinv⟩ := h
  have hcounted := hinv.counted
  rw [Counted, hplace] at hcounted
  rcases hcounted.2.bounded with hnone | ⟨hwithin, -⟩
  · rw [hnone]
    decide
  · have hlimit := inv.limit_lt "calls"
    omega

/-- A closure that has been invoked stands behind the last of the sequence numbers. -/
theorem sequence_of_follows {s : State} {history : List Effect}
    (h : ∃ payloads events rest, Follows php inv s history payloads events rest)
    {path : String} {args : List Doc} (hplace : s.place = .calling path args) :
    s.vars.sequence = (invocations history).length := by
  obtain ⟨payloads, events, rest, hinv⟩ := h
  have hcounted := hinv.counted
  rw [Counted, hplace] at hcounted
  exact hcounted.1

theorem calling_of_settles {s : State} {answer : Answer} {out : Outcome State Effect Execution}
    {outcome : Except Thrown Provided} (hstep : step php inv s answer = some out)
    (h : answer.settles = some outcome) :
    (∃ path args, s.place = .calling path args) ∧ out = onOutcome php inv s.vars outcome := by
  obtain ⟨place, vars⟩ := s
  cases answer with
  | returned value =>
    cases h
    cases place with
    | calling path args => exact ⟨⟨path, args, rfl⟩, (Option.some.inj hstep).symm⟩
    | opening | writing | header | payload | checking => cases hstep
  | threw e =>
    cases h
    cases place with
    | calling path args => exact ⟨⟨path, args, rfl⟩, (Option.some.inj hstep).symm⟩
    | opening | writing | header | payload | checking => cases hstep
  | opened | wrote | read | checked => cases h

theorem replying_next {s t : State} {answer : Answer} {effects : List Effect} {moves : List Moved}
    (hinv : Replying php inv s moves)
    (hfollows : ∃ payloads events rest,
      Follows php inv s (Machine.effects moves) payloads events rest)
    (hstep : step php inv s answer = some (.next t effects)) :
    Replying php inv t (moves ++ [⟨s, answer, .next t effects⟩]) := by
  refine ⟨?_, ?_⟩
  · intro move hmove
    rcases List.mem_append.mp hmove with hold | hnew
    · exact hinv.running move hold
    · rw [List.mem_singleton.mp hnew]
      rfl
  · intro before call after outcome hsplit hsettles
    rcases Machine.split_concat hsplit with ⟨rfl, rfl, rfl⟩ | ⟨less, rfl, hmoves⟩
    · -- the closure has come back with this move
      obtain ⟨⟨path, args, hplace⟩, hout⟩ := calling_of_settles hstep hsettles
      have hword := invocations_word hfollows hplace
      rw [← sequence_of_follows hfollows hplace] at hword ⊢
      rw [onOutcome] at hout
      cases hbytes : outgoing php (reply inv s.vars.sequence (replyFields outcome)) with
      | ok bytes =>
        rw [hbytes] at hout
        cases hout
        exact ⟨bytes, rfl, isReply_of_outgoing hword hbytes, rfl,
          .writing rfl (fun move hmove => absurd hmove List.not_mem_nil) rfl⟩
      | error e =>
        rw [hbytes] at hout
        cases hout
    · obtain ⟨bytes, hbytes, hreply, hcall, hserves⟩ :=
        hinv.answers before call less outcome hmoves hsettles
      exact ⟨bytes, hbytes, hreply, hcall, serves_next hserves (turn_of_step hstep)⟩

/-! ## Every run -/

/-- An answer that finds the deadline passed, where it looks at the clock. -/
def Answer.late : Answer → Prop
  | .wrote check _ _ | .read check _ _ | .checked check => check.expired = true
  | _ => True

theorem checkpoint_expired {check : Check} (h : check.expired = true) :
    ∃ e, checkpoint check = .error e := by
  unfold checkpoint
  split
  · exact ⟨_, rfl⟩
  · exact ⟨_, rfl⟩
  · rw [if_pos h]
    exact ⟨_, rfl⟩

/-- The call ended with what a completed event says, or with the report of an exception. -/
def Concluded (inv : Invocation) (result : Execution) : Prop :=
  (∃ vars e, result = execution inv vars e) ∨
    ∃ vars event, onCompleted inv vars event = .ok (.finish result)

theorem start_empty (s : State) (history : List Effect) (h : (machine php inv).start s history) :
    history = [] := h.2

theorem follows_of_reaches {s : State} {history : List Effect}
    (h : (machine php inv).Reaches s history) :
    ∃ payloads events rest, Follows php inv s history payloads events rest := by
  refine h.invariant (I := fun s history => ∃ payloads events rest,
    Follows php inv s history payloads events rest) ?_ ?_
  · rintro s history ⟨rfl, rfl⟩
    exact ⟨[], [], [], follows_start⟩
  · rintro s answer t history effects ⟨payloads, events, rest, hinv⟩ hstep
    exact follows_next hinv (turn_of_step hstep)

theorem replying_of_reaches {s : State} {moves : List Moved}
    (h : (machine php inv).recorded.Reaches s moves) : Replying php inv s moves := by
  induction h with
  | start hstart =>
    obtain ⟨-, rfl⟩ := hstart
    refine ⟨fun move hmove => absurd hmove List.not_mem_nil, ?_⟩
    intro before call after outcome hsplit
    cases before <;> cases hsplit
  | next hreach hstep ih =>
    obtain ⟨real, hreal, ⟨t, effects, rfl, hout⟩ | ⟨_, _, _, hout⟩⟩ := Machine.step_recorded hstep
    · cases hout
      exact replying_next ih (follows_of_reaches (hreach.of_recorded start_empty)) hreal
    · cases hout

/-- The closures that ran were asked for by events that were read whole. -/
def Justified (php : Php) (inv : Invocation) (history : List Effect) : Prop :=
  ∃ payloads events rest, payloads.map (incoming php) = events.map Except.ok ∧
    heard history = Framing.concat payloads ++ rest ∧ Asked inv events (invocations history)

theorem Follows.justified {s : State} {history : List Effect} {payloads : List Bytes}
    {events : List Doc} {rest : Bytes} (h : Follows php inv s history payloads events rest) :
    Justified php inv history := by
  refine ⟨payloads, events, rest, h.decoded, h.heard, ?_⟩
  have hcounted := h.counted
  obtain ⟨place, vars⟩ := s
  cases place with
  | checking path args =>
    obtain ⟨-, before, event, rfl, hasked, -⟩ := hcounted
    exact hasked.other event
  | opening | writing | header | payload | calling => exact hcounted.2

theorem Justified.concat {history more : List Effect} (h : Justified php inv history)
    (hnone : invocations more = []) : Justified php inv (history ++ more) := by
  obtain ⟨payloads, events, rest, hdecoded, hheard, hasked⟩ := h
  refine ⟨payloads, events, rest ++ heard more, hdecoded, ?_, ?_⟩
  · rw [heard_append, hheard, List.append_assoc]
  · rwa [invocations_append, hnone, List.append_nil]

/-- A call that ends invokes nothing with its last turn, and ends in one of two ways. -/
theorem exit_of_turn {s : State} {answer : Answer} {effects : List Effect} {result : Execution}
    (h : Turn php inv s answer (.exit result effects)) :
    invocations effects = [] ∧ Concluded inv result := by
  cases h with
  | breaks hbroken heffects =>
    rcases heffects with rfl | ⟨n, rfl⟩
    · exact ⟨rfl, Or.inl ⟨_, _, rfl⟩⟩
    · exact ⟨rfl, Or.inl ⟨_, _, rfl⟩⟩
  | finishes hevent =>
    cases onEvent_takes hevent with
    | finish hcompleted => exact ⟨rfl, Or.inr ⟨_, _, hcompleted⟩⟩
  | mute hsettles hbytes => exact ⟨rfl, Or.inl ⟨_, _, rfl⟩⟩
  | throws hlistens hreads heffects =>
    rcases heffects with rfl | ⟨bytes, rfl⟩
    · exact ⟨rfl, Or.inl ⟨_, _, rfl⟩⟩
    · exact ⟨rfl, Or.inl ⟨_, _, rfl⟩⟩

/-- The reply to each closure, against what it returned or threw: where it can be sent, the client
goes on to write it, and where it cannot, the call is over. -/
def Replied (php : Php) (inv : Invocation) (moves : List Moved) : Prop :=
  ∀ before call after outcome, moves = before ++ call :: after →
    call.answer.settles = some outcome →
      match outgoing php (reply inv (invocations (Machine.effects before)).length
        (replyFields outcome)) with
      | .error e => call.outcome = .exit (execution inv call.source.vars e) [] ∧ after = []
      | .ok bytes => IsReply php inv (invocations (Machine.effects before)).length outcome bytes ∧
          call.outcome = .next ⟨.writing bytes, call.source.vars⟩ [] ∧
          (Answered bytes after ∨ Unfinished bytes after)

theorem replied_of_serves {bytes : Bytes} {s : State} {after : List Moved}
    (hrunning : ∀ move ∈ after, move.outcome.result = none) (h : Serves bytes s after) :
    Answered bytes after ∨ Unfinished bytes after := by
  cases h with
  | writing hplace hwrites hsent =>
    refine Or.inr ⟨hwrites, ⟨_, hsent⟩, ?_⟩
    intro move hmove hexit
    rw [hrunning move hmove] at hexit
    cases hexit
  | written hplace hwrites hsent =>
    exact Or.inl ⟨after, [], (List.append_nil _).symm, hwrites, hsent,
      fun move hmove => absurd hmove (Option.not_mem_none move)⟩
  | @past writes others move hwrites hsent hread =>
    refine Or.inl ⟨writes, move :: others, rfl, hwrites, hsent, ?_⟩
    intro first hfirst
    obtain rfl := Option.mem_some.mp hfirst
    exact hread

theorem Replying.replied {s : State} {moves : List Moved} (h : Replying php inv s moves) :
    Replied php inv moves := by
  intro before call after outcome hsplit hsettles
  obtain ⟨bytes, hbytes, hreply, hcall, hserves⟩ :=
    h.answers before call after outcome hsplit hsettles
  rw [hbytes]
  refine ⟨hreply, hcall, replied_of_serves (fun move hmove => h.running move ?_) hserves⟩
  rw [hsplit]
  exact List.mem_append_right _ (List.mem_cons_of_mem _ hmove)

theorem replied_exit {s : State} {answer : Answer} {effects : List Effect} {result : Execution}
    {moves : List Moved} (h : Replying php inv s moves)
    (hstep : step php inv s answer = some (.exit result effects))
    (hfollows : ∃ payloads events rest,
      Follows php inv s (Machine.effects moves) payloads events rest) :
    Replied php inv (moves ++ [⟨s, answer, .exit result effects⟩]) := by
  intro before call after outcome hsplit hsettles
  rcases Machine.split_concat hsplit with ⟨rfl, rfl, rfl⟩ | ⟨less, rfl, hmoves⟩
  · obtain ⟨⟨path, args, hplace⟩, hout⟩ := calling_of_settles hstep hsettles
    rw [← sequence_of_follows hfollows hplace]
    rw [onOutcome] at hout
    cases hbytes : outgoing php (reply inv s.vars.sequence (replyFields outcome)) with
    | ok bytes =>
      rw [hbytes] at hout
      cases hout
    | error e =>
      rw [hbytes] at hout
      exact ⟨hout, rfl⟩
  · obtain ⟨bytes, hbytes, hreply, hcall, hserves⟩ :=
      h.answers before call less outcome hmoves hsettles
    rw [hbytes]
    refine ⟨hreply, hcall, serves_exit hserves (fun move hmove => h.running move ?_)
      (turn_of_step hstep)⟩
    rw [hmoves]
    exact List.mem_append_right _ (List.mem_cons_of_mem _ hmove)

/-- What a late answer leads to: the end, or a frame that is still to be written. -/
theorem late_turn {s t : State} {answer : Answer} {effects : List Effect}
    (h : Turn php inv s answer (.next t effects)) (hlate : answer.late) :
    (∀ rest, s.place ≠ .writing rest) ∧ ∃ rest, t.place = .writing rest := by
  have hnever : ∀ {check : Check}, check.expired = true → checkpoint check = .ok () → False := by
    intro check hexpired hcheck
    obtain ⟨e, he⟩ := checkpoint_expired hexpired
    rw [he] at hcheck
    cases hcheck
  cases h with
  | opened hbytes => exact ⟨fun rest => nofun, _, rfl⟩
  | replies hsettles hbytes => exact ⟨fun rest => nofun, _, rfl⟩
  | wrote hcheck | writes hcheck | header hcheck | announced hcheck | payload hcheck
  | listens hcheck | asks hcheck | invokes hcheck => exact (hnever hlate hcheck).elim

/-- Past the deadline a call ends within two turns. -/
theorem ends_late {answers : Nat → Answer}
    (hanswers : ∀ n t past, (machine php inv).trace initial [] answers n = .running t past →
      (step php inv t (answers n)).isSome = true)
    {n : Nat} (hlate : ∀ k, n ≤ k → (answers k).late) :
    ∃ k result history, (machine php inv).trace initial [] answers k = .ended result history := by
  have hturn : ∀ k t past, n ≤ k → (machine php inv).trace initial [] answers k =
        .running t past →
      (∃ result history, (machine php inv).trace initial [] answers (k + 1) =
        .ended result history) ∨ ∃ u more, (machine php inv).trace initial [] answers (k + 1) =
          .running u more ∧ (∀ rest, t.place ≠ .writing rest) ∧ ∃ rest, u.place = .writing rest := by
    intro k t past hk ht
    obtain ⟨out, hout⟩ := Option.isSome_iff_exists.mp (hanswers k t past ht)
    cases out with
    | exit result effects => exact Or.inl ⟨_, _, Machine.trace_exit ht hout⟩
    | next u effects =>
      exact Or.inr ⟨u, _, Machine.trace_next ht hout, late_turn (turn_of_step hout) (hlate k hk)⟩
  cases hn : (machine php inv).trace initial [] answers n with
  | ended result history => exact ⟨n, result, history, hn⟩
  | running t past =>
    rcases hturn n t past (Nat.le_refl n) hn with ⟨result, history, hend⟩ | ⟨u, more, hu, -, rest, hwriting⟩
    · exact ⟨_, _, _, hend⟩
    · rcases hturn (n + 1) u more (Nat.le_succ n) hu with ⟨result, history, hend⟩ | ⟨_, _, _, hnot, -⟩
      · exact ⟨_, _, _, hend⟩
      · exact absurd hwriting (hnot rest)

/-- Whatever the engine sends and the closures do: the closures that run were asked for in order
and within the limits, each of their answers is sent as one frame before the client reads on, and
the call ends in an `Execution`, at the latest when the deadline has passed. -/
theorem client_safe (php : Php) (inv : Invocation) :
    (∀ moves : List Moved, (machine php inv).recorded.Observes moves →
      Justified php inv (Machine.effects moves) ∧
      (invocations (Machine.effects moves) ≠ [] →
        ((invocations (Machine.effects moves)).length : Int) ≤ inv.limit "calls" ∧
          inv.validateOnly = false) ∧
      Replied php inv moves ∧
      ∀ move ∈ moves, ∀ result, move.outcome.result = some result → Concluded inv result) ∧
    ∀ answers : Nat → Answer,
      (∀ n t past, (machine php inv).trace initial [] answers n = .running t past →
        (step php inv t (answers n)).isSome = true) →
      (∃ n, ∀ k, n ≤ k → (answers k).late) →
      ∃ n result history, (machine php inv).trace initial [] answers n = .ended result history := by
  have hbounded : ∀ history : List Effect, Justified php inv history → invocations history ≠ [] →
      ((invocations history).length : Int) ≤ inv.limit "calls" ∧ inv.validateOnly = false := by
    rintro history ⟨payloads, events, rest, -, -, hasked⟩ hne
    exact hasked.bounded.resolve_left hne
  refine ⟨?_, fun answers hanswers ⟨n, hlate⟩ => ends_late hanswers hlate⟩
  rintro moves (⟨s, hreach⟩ | ⟨result, hend⟩)
  · obtain ⟨payloads, events, rest, hfollows⟩ :=
      follows_of_reaches (hreach.of_recorded start_empty)
    have hreplying := replying_of_reaches hreach
    refine ⟨hfollows.justified, hbounded _ hfollows.justified, hreplying.replied, ?_⟩
    intro move hmove result hresult
    rw [hreplying.running move hmove] at hresult
    cases hresult
  · cases hend with
    | @exit s answer _ history effects hreach hstep =>
      obtain ⟨real, hreal, ⟨_, _, _, hout⟩ | ⟨_, more, rfl, hout⟩⟩ := Machine.step_recorded hstep
      · cases hout
      · cases hout
        have hfollows := follows_of_reaches (hreach.of_recorded start_empty)
        have hreplying := replying_of_reaches hreach
        obtain ⟨hnone, hconcluded⟩ := exit_of_turn (turn_of_step hreal)
        have hjustified : Justified php inv (Machine.effects (history ++
            [⟨s, answer, .exit result more⟩])) := by
          obtain ⟨payloads, events, rest, hinv⟩ := hfollows
          rw [effects_concat]
          exact hinv.justified.concat hnone
        refine ⟨hjustified, hbounded _ hjustified, replied_exit hreplying hreal hfollows, ?_⟩
        intro move hmove other hother
        rcases List.mem_append.mp hmove with hold | hnew
        · rw [hreplying.running move hold] at hother
          cases hother
        · rw [List.mem_singleton.mp hnew] at hother
          obtain rfl := Option.some.inj hother
          exact hconcluded

/-- A run with one call, after which the engine is gone. -/
def sampleAnswers : List Answer :=
  (List.range 5).map (fun n => sampleWorld .null n []) ++
    [.returned .null, .wrote {} ((outgoing .reference
      (reply sample 1 (replyFields (.ok .null)))).toOption.map List.length) false,
      .read {} none true]

def sampleMoves : Option (List Moved) :=
  (machine .reference sample).recorded.play initial [] sampleAnswers

theorem client_safe_sample :
    (∃ moves : List Moved, sampleMoves = some moves ∧
      invocations (Machine.effects moves) = [("a", [])] ∧
      Justified .reference sample (Machine.effects moves) ∧
      ((invocations (Machine.effects moves)).length : Int) ≤ sample.limit "calls" ∧
      Replied .reference sample moves) ∧
    ∃ n result history, (machine .reference sample).trace initial [] (fun _ => .opened false) n =
      .ended result history := by
  constructor
  · have hplay : sampleMoves.map (fun moves => invocations (Machine.effects moves)) =
        some [("a", [])] := by decide +kernel
    obtain ⟨moves, hmoves, hcalls⟩ := Option.map_eq_some_iff.mp hplay
    have hstart : (machine .reference sample).recorded.Reaches initial [] :=
      .start ⟨⟨[], rfl, rfl⟩, rfl⟩
    have hsafe := (client_safe .reference sample).1 moves (hstart.observes_of_play hmoves)
    exact ⟨moves, hmoves, hcalls, hsafe.1, (hsafe.2.1 (by simp [hcalls])).1, hsafe.2.2.1⟩
  · refine (client_safe .reference sample).2 (fun _ => .opened false) ?_ ⟨0, fun _ _ => trivial⟩
    intro n t past ht
    cases n with
    | zero =>
      cases ht
      rfl
    | succ n =>
      have hone : (machine .reference sample).trace initial [] (fun _ => .opened false) 1 =
        .ended (execution sample {} (.runtime "Unable to start the Ruby engine.")) [] := rfl
      rw [Machine.trace_stays hone (Nat.le_add_left 1 n)] at ht
      cases ht

end RubyEngine.Client.Execute
