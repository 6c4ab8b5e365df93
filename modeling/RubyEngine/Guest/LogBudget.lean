import Mathlib.Algebra.Order.BigOperators.Group.List
import RubyEngine.Client
import RubyEngine.Json.Length
import RubyEngine.Serde.Reference
import RubyEngine.Guest.EncodeCorrect
import RubyEngine.Guest.HostCall

/-!
# Two meters for one log

The guest charges a log with the bytes of its own encoding, the client with those
of `json_encode`. The two encodings differ in length on single characters.
-/
namespace RubyEngine.Guest

open Json

/-! ## Logging -/

/-- A call of `puts` or `p` with arguments that are structured values. -/
structure LogCall where
  heap : Heap
  args : MrbValue
  items : List Doc
  unfolds : Unfolds heap (.array items) args

def LogCall.doc (call : LogCall) : Doc := .array call.items

/-- `capture` up to the response, with the event that it has written. -/
def capture (serde : SerdeJson) (limit : Nat) (host : Host) (call : LogCall) :
    Host × Option Value :=
  match exchangeBytes call.heap limit [] call.args with
  | .error _ => (host, none)
  | .ok json =>
      match host.turn serde .log [] json with
      | (host, .log event) => (host, some event)
      | (host, _) => (host, none)

/-- A sequence of calls, with the events that are written. -/
def captures (serde : SerdeJson) (limit : Nat) : Host → List LogCall → Host × List Value
  | host, [] => (host, [])
  | host, call :: rest =>
      let (host, event) := capture serde limit host call
      let (host, events) := captures serde limit host rest
      (host, event.toList ++ events)

/-! ## Characters -/

/-- The bytes by which `json_encode` spells a character longer than the guest. -/
def extra (c : Char) : Int :=
  if c = '/' then 1
  else if c ∈ ['\x08', '\t', '\n', '\x0c', '\r'] then -4
  else if c.toNat < 0x80 then 0
  else if c.toNat < 0x800 then 4
  else if c.toNat < 0x10000 then 3
  else 8

theorem excess_ascii : ∀ n < 128,
    Client.encoder.excess style (Char.ofNat n) = extra (Char.ofNat n) := by decide

theorem length_charEscape (c : Char) :
    (charEscape c).length = if c.toNat < 0x10000 then 6 else 12 := by
  unfold charEscape
  split <;> rfl

theorem excess_eq (c : Char) : Client.encoder.excess style c = extra c := by
  by_cases h : c.toNat < 128
  · have hascii := excess_ascii c.toNat h
    rwa [Char.ofNat_toNat] at hascii
  · -- no character with a short escape is this far up
    have hne : ∀ d : Char, d.toNat < 128 → c ≠ d := by
      intro d hd heq
      exact h (heq ▸ hd)
    have hguest : (style.spell c).length = (String.utf8EncodeChar c).length := by
      show ((String.utf8EncodeChar c).flatMap byteEscape).length = _
      rw [flatMap_byteEscape_high (encode_high h)]
    have hclient : (Client.encoder.spell c).length = (charEscape c).length := by
      show (Client.spell c).length = _
      rw [Client.spell, if_neg (hne _ (by decide)), if_neg (hne _ (by decide)),
        if_neg (hne _ (by decide)), if_neg (hne _ (by decide)), if_neg (hne _ (by decide)),
        if_neg (hne _ (by decide)), if_neg (hne _ (by decide)), if_neg (hne _ (by decide)),
        if_pos (.inr (by omega))]
    have hshort : c ∉ ['\x08', '\t', '\n', '\x0c', '\r'] := by
      simp only [List.mem_cons, List.not_mem_nil, or_false, not_or]
      exact ⟨hne _ (by decide), hne _ (by decide), hne _ (by decide), hne _ (by decide),
        hne _ (by decide)⟩
    rw [Style.excess, hguest, hclient, length_charEscape, length_encode_high h, extra,
      if_neg (hne _ (by decide)), if_neg hshort, if_neg h]
    by_cases h2 : c.toNat < 0x800
    · rw [if_pos (show c.toNat < 0x10000 by omega), if_pos h2, if_pos h2]
      rfl
    · rw [if_neg h2, if_neg h2]
      by_cases h3 : c.toNat < 0x10000
      · rw [if_pos h3, if_pos h3, if_pos h3]
        rfl
      · rw [if_neg h3, if_neg h3, if_neg h3]
        rfl

/-- The bytes that `json_encode` prints for a value beyond those of the guest. -/
def extraBytes (d : Doc) : Int := (d.chars.map extra).sum

/-- The length of a value in the text of `json_encode`, from its text in the guest. -/
def clientLength (d : Doc) : Int := (style.render d).length + extraBytes d

theorem length_encoder {d : Doc} (hfloat : d.floatFree = true) (hdistinct : d.distinct = true) :
    ((Client.encoder.render d.canon).length : Int) = clientLength d := by
  have hextra : Client.encoder.surplus style d.chars = extraBytes d := by
    rw [Style.surplus, extraBytes, funext excess_eq]
  rw [Style.length_canon hdistinct, Style.length_render (t := style) hfloat, hextra, clientLength]

namespace LogCall

theorem distinct (call : LogCall) : call.doc.distinct = true := unfolds_distinct call.unfolds

theorem length_encoder (call : LogCall) :
    ((Client.encoder.render call.doc.canon).length : Int) = clientLength call.doc :=
  Guest.length_encoder (unfolds_floatFree call.unfolds) call.distinct

def event (execution : String) (call : LogCall) : Value :=
  logEvent execution (Value.ofDoc call.doc)

end LogCall

/-! ## The events of the guest -/

theorem capture_execution (serde : SerdeJson) (limit : Nat) (host : Host) (call : LogCall) :
    (capture serde limit host call).1.execution = host.execution := by
  unfold capture
  split
  · rfl
  · next json _ =>
    have hturn := host.turn_cases serde .log [] json
    generalize host.turn serde .log [] json = out at hturn
    cases hturn <;> rfl

/-- The only event that a call writes has its arguments for values. -/
theorem capture_event {serde : SerdeJson} (hserde : serde.Standard) {limit : Nat} {host : Host}
    {call : LogCall} {event : Value} (h : (capture serde limit host call).2 = some event) :
    event = call.event host.execution := by
  unfold capture at h
  split at h
  · cases h
  · next json hjson =>
    have hturn := host.turn_cases serde .log [] json
    generalize host.turn serde .log [] json = out at hturn h
    cases hturn with
    | failed | spent => cases h
    | log value hvalue _ =>
      obtain rfl := Option.some.inj h
      have hencode : encode call.heap limit [] call.args 0 = .ok json := by
        cases hrun : encode call.heap limit [] call.args 0 with
        | error e => simp [exchangeBytes, hrun, bind, Except.bind] at hjson
        | ok out =>
          simp [exchangeBytes, hrun, bind, Except.bind] at hjson
          rw [hjson]
      obtain ⟨hheight, rfl, _⟩ := encode_ok_of_unfolds call.unfolds hencode
      have hread := hserde.parses _ _ (style_lawful.element (unfolds_floatFree call.unfolds)).text
        ((Doc.nesting_le_height_succ _).trans_lt (by omega))
      rw [hread] at hvalue
      obtain rfl := Except.ok.inj hvalue
      rfl

/-- When no call is refused the client gets one event for each. -/
theorem captures_events {serde : SerdeJson} (hserde : serde.Standard) {limit : Nat} {host : Host}
    {calls : List LogCall} (h : (captures serde limit host calls).2.length = calls.length) :
    (captures serde limit host calls).2 = calls.map (LogCall.event host.execution) := by
  have hbound : ∀ host calls, (captures serde limit host calls).2.length ≤ calls.length := by
    intro host calls
    induction calls generalizing host with
    | nil => exact Nat.le_refl 0
    | cons call rest ih =>
      have htail := ih (capture serde limit host call).1
      cases hevent : (capture serde limit host call).2 <;>
        simp [captures, hevent] <;> omega
  induction calls generalizing host with
  | nil => rfl
  | cons call rest ih =>
    have htail := hbound (capture serde limit host call).1 rest
    cases hevent : (capture serde limit host call).2 with
    | none =>
      simp [captures, hevent] at h
      omega
    | some event =>
      simp [captures, hevent] at h
      have hrest := ih h
      rw [capture_execution] at hrest
      simp only [captures, hevent, hrest, Option.toList_some, List.singleton_append, List.map_cons,
        capture_event hserde hevent]

/-! ## The events in the client -/

namespace LogCall

variable (execution : String) (call : LogCall)

theorem index_protocol : ((call.event execution).index "protocol").asStr = some PROTOCOL := by
  simp [event, logEvent, SortedMap.lookup, Doc.asStr]

theorem index_execution : ((call.event execution).index "execution_id").asStr = some execution := by
  simp [event, logEvent, SortedMap.lookup, Doc.asStr]

theorem index_values : (call.event execution).index "values" = .array (Doc.canonItems call.items) := by
  simp [event, logEvent, SortedMap.lookup, Value.ofDoc, doc, Doc.canon]

theorem readable_event :
    Client.readable (call.event execution).doc = Client.readable call.doc := by
  have hleaf : ∀ text, Client.readable (.string text) = true := fun _ => rfl
  have hvalues : (Value.ofDoc call.doc).doc = call.doc.canon := rfl
  rw [Bool.eq_iff_iff, ← Client.readable_canon call.distinct, event, logEvent,
    Client.readable_valueObject (by simp)]
  simp [hleaf, hvalues]

end LogCall

/-! ## The two meters -/

theorem onLog_event (execution : String) (limit : Nat) (logs : Client.Logs) (call : LogCall) :
    Client.onLog execution limit logs (call.event execution) =
      if Client.readable call.doc then
        if limit < logs.bytes + (Client.encoder.render call.doc.canon).length then .error .budget
        else .ok ⟨logs.bytes + (Client.encoder.render call.doc.canon).length,
          logs.values ++ [Doc.canonItems call.items]⟩
      else .error .json := by
  unfold Client.onLog
  rw [call.readable_event, call.index_protocol, call.index_execution, call.index_values]
  by_cases h : Client.readable call.doc = true
  · rw [if_pos h]
    simp only [h, ne_eq, not_true_eq_false, or_self, Bool.not_true, if_false]
    rfl
  · rw [if_neg h]
    simp [h]

theorem clientLength_nonneg (call : LogCall) : 0 ≤ clientLength call.doc := by
  rw [← call.length_encoder]
  exact Int.natCast_nonneg _

/-- The values that the client comes to meter, and the bytes it counts for them. -/
def metered (calls : List LogCall) : Int :=
  (((calls.map LogCall.doc).takeWhile Client.readable).map clientLength).sum

theorem metered_nonneg (calls : List LogCall) : 0 ≤ metered calls := by
  refine List.sum_nonneg ?_
  intro n hn
  obtain ⟨d, hd, rfl⟩ := List.mem_map.mp hn
  obtain ⟨call, _, rfl⟩ := List.mem_map.mp (List.takeWhile_subset _ hd)
  exact clientLength_nonneg call

theorem onLogs_budget (execution : String) (limit : Nat) (calls : List LogCall)
    (logs : Client.Logs) (hlogs : logs.bytes ≤ limit) :
    Client.onLogs execution limit logs (calls.map (LogCall.event execution)) ≠ .error .budget ↔
      logs.bytes + metered calls ≤ limit := by
  induction calls generalizing logs with
  | nil =>
    refine iff_of_true (by simp [Client.onLogs]) ?_
    simpa [metered] using hlogs
  | cons call rest ih =>
    rw [List.map_cons, Client.onLogs, onLog_event]
    by_cases hread : Client.readable call.doc = true
    · have hmetered : metered (call :: rest) = clientLength call.doc + metered rest := by
        simp only [metered, List.map_cons, List.takeWhile_cons, hread, if_true, List.sum_cons]
      have hlength := call.length_encoder
      have hrest := metered_nonneg rest
      rw [if_pos hread, hmetered]
      by_cases hover : limit < logs.bytes + (Client.encoder.render call.doc.canon).length
      · rw [if_pos hover]
        refine iff_of_false (fun h => h rfl) ?_
        omega
      · rw [if_neg hover]
        have hnext := ih ⟨logs.bytes + (Client.encoder.render call.doc.canon).length,
          logs.values ++ [Doc.canonItems call.items]⟩ (Nat.not_lt.mp hover)
        refine hnext.trans ?_
        dsimp only
        omega
    · have hmetered : metered (call :: rest) = 0 := by
        simp [metered, hread]
      rw [if_neg hread, hmetered]
      refine iff_of_true ?_ (by omega)
      simp [Client.Failure.budget]

/-- The client takes every log that the guest has admitted exactly when its own text of
the logged values fits: the bytes of the guest, one more for a slash, four less for a
control with a short escape, and four, three or eight more for a character of two, three
or four bytes. It meters up to a value that it cannot read. -/
theorem log_budgets (serde : SerdeJson) (hserde : serde.Standard) (request : Request)
    (calls : List LogCall)
    (hadmitted : (captures serde request.limits.resultBytes (.new request) calls).2.length =
      calls.length) :
    Client.onLogs request.executionId request.limits.logBytes {}
        (captures serde request.limits.resultBytes (.new request) calls).2 ≠ .error .budget ↔
      metered calls ≤ request.limits.logBytes := by
  rw [captures_events hserde hadmitted]
  have hmeter := onLogs_budget request.executionId request.limits.logBytes calls {} (Nat.zero_le _)
  rwa [Int.natCast_zero, Int.zero_add] at hmeter

/-- `puts` with one string. -/
def putsCall (s : String) : LogCall where
  heap _ := .array [.string (utf8 s)]
  args := .object 0
  items := [.string s]
  unfolds := ⟨[.string (utf8 s)], rfl, .string (utf8 s), [], rfl, rfl, rfl⟩

def logLimited (n : Nat) : Request :=
  { Request.sample with limits := { Limits.default with logBytes := n } }

theorem log_budgets_puts :
    Client.onLogs "e" 10 {}
        (captures .reference (1024 * 1024) (.new (logLimited 10)) [putsCall "é"]).2 ≠
        .error .budget ↔ metered [putsCall "é"] ≤ 10 :=
  log_budgets .reference SerdeJson.reference_standard (logLimited 10) [putsCall "é"]
    (by decide)

/-- The guest counts six bytes for `["é"]`, the client ten. -/
theorem admitted_log_aborts :
    SerdeJson.reference.Standard ∧
      (captures .reference (1024 * 1024) (.new (logLimited 6)) [putsCall "é"]).2.length = 1 ∧
      Client.onLogs "e" 6 {}
        (captures .reference (1024 * 1024) (.new (logLimited 6)) [putsCall "é"]).2 =
          .error .budget :=
  ⟨SerdeJson.reference_standard, by decide, by decide⟩

end RubyEngine.Guest
