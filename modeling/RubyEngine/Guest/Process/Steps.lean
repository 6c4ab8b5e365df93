import RubyEngine.Guest.Process

/-!
# What one step of the guest process can do

The cases of a step by the phase they happen in, with their guards and their effects, and
the parts of a history that the invariants are about.
-/
namespace RubyEngine.Guest.Process

open Json (Value)
open Transition (Outcome Machine)
open Isolation (Target Syscall Call Response)

/-! ## Histories -/

/-- The bytes taken from standard input. -/
def took (history : List Effect) : Bytes :=
  history.flatMap fun
    | .took bytes => bytes
    | _ => []

/-- The bytes that standard output has accepted. -/
def sent (history : List Effect) : Bytes :=
  history.flatMap fun
    | .sent bytes => bytes
    | _ => []

def printed (history : List Effect) : List Value :=
  history.filterMap fun
    | .printed v => some v
    | _ => none

def heard (history : List Effect) : List Value :=
  history.filterMap fun
    | .heard v => some v
    | _ => none

def called (history : List Effect) : List (Call × Response) :=
  history.filterMap fun
    | .called call response => some (call, response)
    | _ => none

/-- What native methods have returned to the program. -/
def returned (history : List Effect) : List (Except Trap Ruby) :=
  history.filterMap fun
    | .returned result => some result
    | _ => none

@[simp] theorem took_append (a b : List Effect) : took (a ++ b) = took a ++ took b :=
  List.flatMap_append

@[simp] theorem sent_append (a b : List Effect) : sent (a ++ b) = sent a ++ sent b :=
  List.flatMap_append

@[simp] theorem printed_append (a b : List Effect) : printed (a ++ b) = printed a ++ printed b :=
  List.filterMap_append

@[simp] theorem heard_append (a b : List Effect) : heard (a ++ b) = heard a ++ heard b :=
  List.filterMap_append

@[simp] theorem called_append (a b : List Effect) : called (a ++ b) = called a ++ called b :=
  List.filterMap_append

@[simp] theorem returned_append (a b : List Effect) :
    returned (a ++ b) = returned a ++ returned b := List.filterMap_append

@[simp] theorem took_nil : took [] = [] := rfl
@[simp] theorem sent_nil : sent [] = [] := rfl
@[simp] theorem printed_nil : printed [] = [] := rfl
@[simp] theorem heard_nil : heard [] = [] := rfl
@[simp] theorem called_nil : called [] = [] := rfl
@[simp] theorem returned_nil : returned [] = [] := rfl

@[simp] theorem took_cons (e : Effect) (h : List Effect) :
    took (e :: h) = (match e with | .took bytes => bytes | _ => []) ++ took h := by
  cases e <;> rfl

@[simp] theorem sent_cons (e : Effect) (h : List Effect) :
    sent (e :: h) = (match e with | .sent bytes => bytes | _ => []) ++ sent h := by
  cases e <;> rfl

@[simp] theorem printed_cons (e : Effect) (h : List Effect) :
    printed (e :: h) = (match e with | .printed v => [v] | _ => []) ++ printed h := by
  cases e <;> rfl

@[simp] theorem heard_cons (e : Effect) (h : List Effect) :
    heard (e :: h) = (match e with | .heard v => [v] | _ => []) ++ heard h := by
  cases e <;> rfl

@[simp] theorem called_cons (e : Effect) (h : List Effect) :
    called (e :: h) =
      (match e with | .called call response => [(call, response)] | _ => []) ++ called h := by
  cases e <;> rfl

@[simp] theorem returned_cons (e : Effect) (h : List Effect) :
    returned (e :: h) = (match e with | .returned result => [result] | _ => []) ++ returned h := by
  cases e <;> rfl

/-! ## Steps -/

/-- A terminal event goes out, if it fits. -/
inductive Finishes (serde : SerdeJson) (s : State) (execution : String) (completed : Bool)
    (value : Value) (effects : List Effect) : Next → Prop where
  | whole : (serde.toVec value).length ≤ MAX_FRAME →
      Finishes serde s execution completed value effects
        (.next { s with phase := .finishing execution completed
                                  (Framing.frame (serde.toVec value)) }
          (effects ++ [.printed value]))
  | none : Finishes serde s execution completed value effects
      (.next { s with phase := .finishing execution completed [] } effects)

/-- A failure goes out, behind some other effects. -/
def Fails (serde : SerdeJson) (s : State) (execution : String) (effects : List Effect)
    (out : Next) : Prop :=
  ∃ message, Finishes serde s execution false (failure execution "engine_error" message) effects out

section

variable (serde : SerdeJson) (target : Target) (number : Syscall → Int64) (s : State)

/-- A frame cannot be read: it is refused, or the input ends or fails ahead of its end. -/
inductive Unreads : Answer → Bytes → Prop where
  | refused (rest : Bytes) : front serde s.input = .failed rest → Unreads .goes rest
  | ended : front serde s.input = .more → Unreads (.read (.data [])) []
  | failed (e : IoError) : front serde s.input = .more → e.kind ≠ .interrupted →
      Unreads (.read (.failed e)) []

inductive Step : Answer → Next → Prop where
  | died (status : ExitStatus) : Step (.dies status) (.exit status [])
  | retried (answer : Answer) : Step answer (.next s [])
  | took (bytes : Bytes) : bytes ≠ [] → front serde s.input = .more →
      (s.phase = .starting ∨ ∃ request host, s.phase = .awaiting request host) →
      Step (.read (.data bytes)) (.next { s with input := s.input ++ bytes } [.took bytes])
  | admitted (v : Value) (rest : Bytes) (request : Request) : s.phase = .starting →
      front serde s.input = .value v rest → Request.ofValue v = some request →
      request.validate = .ok () →
      Step .goes (.next { s with phase := .entering request
                                  (Isolation.policy target number request.limits.wallMs
                                    request.limits.cpuMs),
                                 input := rest } [.heard v])
  | refused (answer : Answer) (input : Bytes) (execution : String) (effects : List Effect)
      (out : Next) : s.phase = .starting →
      (effects = [.unread] ∧ Unreads serde s answer input ∨
        ∃ v, effects = [.heard v] ∧ front serde s.input = .value v input ∧
        ∀ request, Request.ofValue v = some request → execution = request.executionId) →
      Fails serde { s with input := input } execution effects out → Step answer out
  | called (request : Request) (call : Call) (rest calls : List Call) (response : Response) :
      s.phase = .entering request (call :: rest) →
      Isolation.respond call rest response = some (.ok calls) →
      Step (.system response)
        (.next { s with phase := .entering request calls } [.called call response])
  | started (request : Request) : s.phase = .entering request [] → prepare request = .ok () →
      Step .goes (.next { s with phase := .running request (.new request) } [])
  | unready (answer : Answer) (request : Request) (calls : List Call) (effects : List Effect)
      (out : Next) : s.phase = .entering request calls →
      (effects = [] ∨ ∃ call response, effects = [.called call response]) →
      Fails serde s request.executionId effects out → Step answer out
  | raised (answer : Answer) (request : Request) (host : Host) (e : Exception) :
      s.phase = .running request host → request.validateOnly = false →
      Step answer
        (.next { s with phase := .running request host } [.returned (.error (.raised e))])
  | answered (answer : Answer) (request : Request) (host next : Host) (sent : Callback)
      (turn : Turn) (result : Except Trap Ruby) : s.phase = .running request host →
      request.validateOnly = false → Crosses request sent →
      host.turn serde sent.kind sent.path sent.json = (next, turn) →
      (turn.event = none ∨ ∃ event, turn.event = some event ∧
        MAX_FRAME < (serde.toVec event).length) →
      Step answer (.next { s with phase := .running request next } [.returned result])
  | printed (answer : Answer) (request : Request) (host next : Host) (sent : Callback)
      (turn : Turn) (event : Value) : s.phase = .running request host →
      request.validateOnly = false → Crosses request sent →
      host.turn serde sent.kind sent.path sent.json = (next, turn) → turn.event = some event →
      (serde.toVec event).length ≤ MAX_FRAME →
      Step answer
        (.next { s with phase := .printing request next (turn = .call event)
                          (Framing.frame (serde.toVec event)) } [.printed event])
  | concluded (answer : Answer) (request : Request) (host : Host) (native : NativeResult)
      (cpuMs : Option UInt64) (event : Value) : s.phase = .running request host →
      native.Left request → conclusion serde request host native cpuMs = .ok event →
      (serde.toVec event).length ≤ MAX_FRAME →
      Step answer
        (.next { s with phase := .finishing request.executionId true
                          (Framing.frame (serde.toVec event)) } [.printed event])
  | inconclusive (answer : Answer) (request : Request) (host : Host) (out : Next) :
      s.phase = .running request host → Fails serde s request.executionId [] out →
      Step answer out
  | sent (request : Request) (host : Host) (call : Bool) (rest : Bytes) (n : Nat) :
      s.phase = .printing request host call rest → s.broken = false → rest.drop n ≠ [] →
      Step (.write (.room n))
        (.next { s with phase := .printing request host call (rest.drop n) }
          [.sent (rest.take n)])
  | sentLog (request : Request) (host : Host) (rest : Bytes) (n : Nat) :
      s.phase = .printing request host false rest → s.broken = false → rest.drop n = [] →
      Step (.write (.room n))
        (.next { s with phase := .running request host }
          [.sent (rest.take n), .returned (conclude logged)])
  | sentCall (request : Request) (host : Host) (rest : Bytes) (n : Nat) :
      s.phase = .printing request host true rest → s.broken = false → rest.drop n = [] →
      Step (.write (.room n))
        (.next { s with phase := .awaiting request host } [.sent (rest.take n)])
  | cut (answer : Answer) (request : Request) (host : Host) (call : Bool) (rest : Bytes) :
      s.phase = .printing request host call rest →
      (s.broken = true ∨ answer = .write (.room 0) ∨ ∃ e, answer = .write (.failed e)) →
      Step answer (.next { s with phase := .running request host, broken := true }
        [.returned hostProtocol])
  | replied (request : Request) (host : Host) (v : Value) (rest : Bytes) :
      s.phase = .awaiting request host → front serde s.input = .value v rest →
      Step .goes (.next { s with phase := .running request host, input := rest }
        [.heard v, .returned (if host.accepts v then conclude v else hostProtocol)])
  | unreplied (answer : Answer) (request : Request) (host : Host) (rest : Bytes) :
      s.phase = .awaiting request host → Unreads serde s answer rest →
      Step answer (.next { s with phase := .running request host, input := rest }
        [.unread, .returned hostProtocol])
  | sentLast (execution : String) (completed : Bool) (rest : Bytes) (n : Nat) :
      s.phase = .finishing execution completed rest → s.broken = false →
      Step (.write (.room n))
        (.next { s with phase := .finishing execution completed (rest.drop n) }
          [.sent (rest.take n)])
  | exited (execution : String) (completed : Bool) : s.phase = .finishing execution completed [] →
      Step .goes (.exit (exitCode completed) [])
  | cutLast (answer : Answer) (execution : String) (completed : Bool) (rest : Bytes) :
      s.phase = .finishing execution completed rest →
      (s.broken = true ∨ answer = .write (.room 0) ∨ ∃ e, answer = .write (.failed e)) →
      Step answer (.exit (exitCode false) [])

end

variable {serde : SerdeJson} {target : Target} {number : Syscall → Int64} {s : State}

theorem writeFrame_cases (serde : SerdeJson) (value : Value) :
    ((serde.toVec value).length ≤ MAX_FRAME ∧
      writeFrame serde value = .ok (Framing.frame (serde.toVec value))) ∨
    (MAX_FRAME < (serde.toVec value).length ∧ writeFrame serde value = .error sizeLimit) := by
  rcases Nat.lt_or_ge MAX_FRAME (serde.toVec value).length with hlarge | hfits
  · exact Or.inr ⟨hlarge, by rw [writeFrame, if_pos hlarge]⟩
  · refine Or.inl ⟨hfits, ?_⟩
    rw [writeFrame, if_neg (Nat.not_lt.mpr hfits)]
    rfl

theorem finishes (s : State) (execution : String) (completed : Bool) (value : Value)
    (effects : List Effect) :
    Finishes serde s execution completed value effects
      (finish serde s execution completed value effects) := by
  unfold finish
  rcases writeFrame_cases serde value with ⟨hfits, hwrite⟩ | ⟨_, hwrite⟩
  · rw [hwrite]
    exact .whole hfits
  · rw [hwrite]
    exact .none

theorem fails (s : State) (execution message : String) (effects : List Effect) :
    Fails serde s execution effects (fail serde s execution message effects) :=
  ⟨message, finishes s execution false _ effects⟩

/-- What the C code makes crosses as the methods of the guest do. -/
theorem crosses_of_invoked {request : Request} {heap : Heap} {invocation : Invocation}
    {sent : Callback} (h : invocation.invoked request heap = some (.exchanged (.ok sent))) :
    Crosses request sent := by
  have harray : ∀ {address items}, argumentsAt heap address = some items →
      heap address = .array items := by
    intro address items hitems
    unfold argumentsAt at hitems
    split at hitems
    · next heq => rw [heq, Option.some.inj hitems]
    · cases hitems
  cases invocation with
  | dispatch before name args =>
    obtain ⟨items, hitems, hsent⟩ := Option.bind_eq_some_iff.mp h
    split at hsent
    · next exchanged hdispatch =>
      obtain rfl := Invoked.exchanged.inj (Option.some.inj hsent)
      exact .dispatch (harray hitems) hdispatch
    · cases hsent
  | call path args =>
    obtain ⟨items, hitems, hsent⟩ := Option.bind_eq_some_iff.mp h
    exact .call (harray hitems) (Invoked.exchanged.inj (Option.some.inj hsent))
  | capture args =>
    obtain ⟨items, hitems, hsent⟩ := Option.bind_eq_some_iff.mp h
    exact .capture (harray hitems) (Invoked.exchanged.inj (Option.some.inj hsent))
  | parse text => exact .parse (Invoked.exchanged.inj (Option.some.inj h))

/-! ## Inversion, phase by phase -/

variable {answer : Answer} {out : Next}

theorem step_starting (hphase : s.phase = .starting)
    (h : starting serde target number s answer = some out) :
    Step serde target number s answer out := by
  unfold starting at h
  split at h
  · next v rest hfront =>
    obtain rfl := Option.some.inj h
    unfold begin
    split
    · next hnone =>
      refine .refused _ rest "" _ _ hphase (Or.inr ⟨v, rfl, hfront, fun request hrequest => ?_⟩)
        (fails _ _ _ _)
      rw [hnone] at hrequest
      cases hrequest
    · next request hrequest =>
      split
      · refine .refused _ rest _ _ _ hphase (Or.inr ⟨v, rfl, hfront, fun other hother => ?_⟩)
          (fails _ _ _ _)
        rw [Option.some.inj (hrequest.symm.trans hother)]
      · next hvalid => exact .admitted v rest request hphase hfront hrequest hvalid
  · next rest hfront =>
    obtain rfl := Option.some.inj h
    exact .refused _ rest _ _ _ hphase (Or.inl ⟨rfl, .refused rest hfront⟩) (fails _ _ _ _)
  · next outcome hfront =>
    obtain rfl := Option.some.inj h
    unfold received
    split
    · exact .refused _ [] _ _ _ hphase (Or.inl ⟨rfl, .ended hfront⟩) (fails _ _ _ _)
    · next bytes hne => exact .took bytes (fun hnil => hne hnil) hfront (Or.inl hphase)
    · next e =>
      split
      · exact .retried _
      · next hkind =>
        exact .refused _ [] _ _ _ hphase (Or.inl ⟨rfl, .failed e hfront hkind⟩) (fails _ _ _ _)
  · cases h

theorem step_entering {request : Request} {calls : List Call}
    (hphase : s.phase = .entering request calls)
    (h : entering serde s request calls answer = some out) :
    Step serde target number s answer out := by
  unfold entering at h
  split at h
  · split at h
    · obtain rfl := Option.some.inj h
      exact .unready _ request [] _ _ hphase (Or.inl rfl) (fails _ _ _ _)
    · next hready =>
      obtain rfl := Option.some.inj h
      exact .started request hphase hready
  · next call rest response =>
    obtain ⟨result, hrespond, rfl⟩ := Option.map_eq_some_iff.mp h
    cases result with
    | error e =>
      exact .unready _ request _ _ _ hphase (Or.inr ⟨call, response, rfl⟩) (fails _ _ _ _)
    | ok calls => exact .called request call rest calls response hphase hrespond
  · cases h

/-- An event is written if it fits, and not reported as written otherwise. -/
theorem step_print {request : Request} {host next : Host} {sent : Callback} {turn : Turn}
    {event : Value} (hphase : s.phase = .running request host)
    (hexecutes : request.validateOnly = false) (hcrosses : Crosses request sent)
    (hturn : host.turn serde sent.kind sent.path sent.json = (next, turn))
    (hevent : turn.event = some event) :
    Step serde target number s answer
      (print serde s request next (turn = .call event) event) := by
  unfold print
  rcases writeFrame_cases serde event with ⟨hfits, hwrite⟩ | ⟨hlarge, hwrite⟩
  · rw [hwrite]
    exact .printed _ request host next sent turn event hphase hexecutes hcrosses hturn hevent hfits
  · rw [hwrite]
    exact .answered _ request host next sent turn _ hphase hexecutes hcrosses hturn
      (Or.inr ⟨event, hevent, hlarge⟩)

theorem step_callback {request : Request} {host : Host} {sent : Callback}
    (hphase : s.phase = .running request host) (hexecutes : request.validateOnly = false)
    (hcrosses : Crosses request sent) :
    Step serde target number s answer (callback serde s request host sent) := by
  unfold callback
  cases hturn : host.turn serde sent.kind sent.path sent.json with
  | mk next turn =>
    cases turn with
    | failed | answer response =>
      exact .answered _ request host next sent _ _ hphase hexecutes hcrosses hturn (Or.inl rfl)
    | log event =>
      have hprint : Step serde target number s answer (print serde s request next _ event) :=
        step_print hphase hexecutes hcrosses hturn rfl
      simpa using hprint
    | call event =>
      have hprint : Step serde target number s answer (print serde s request next _ event) :=
        step_print hphase hexecutes hcrosses hturn rfl
      simpa using hprint

theorem step_running {request : Request} {host : Host} (hphase : s.phase = .running request host)
    (h : running serde s request host answer = some out) :
    Step serde target number s answer out := by
  unfold running at h
  split at h
  · next heap invocation =>
    split at h
    · cases h
    · next hexecutes =>
      obtain ⟨invoked, hinvoked, rfl⟩ := Option.map_eq_some_iff.mp h
      have hvalidate := Bool.eq_false_of_not_eq_true hexecutes
      cases invoked with
      | path path => exact .retried _
      | exchanged sent =>
        cases sent with
        | error e => exact .raised _ request host e hphase hvalidate
        | ok sent => exact step_callback hphase hvalidate (crosses_of_invoked hinvoked)
  · next heap trace peakMemory instructions ended cpuMs =>
    split at h
    · obtain rfl := Option.some.inj h
      unfold conclusive
      have hleft := @rubyExecute_left request heap trace peakMemory instructions ended
      split
      · exact .inconclusive _ request host _ hphase (fails _ _ _ _)
      · next event hevent =>
        rcases writeFrame_cases serde event with ⟨hfits, hwrite⟩ | ⟨hlarge, hwrite⟩
        · rw [hwrite]
          exact .concluded _ request host _ cpuMs event hphase hleft hevent hfits
        · rw [hwrite]
          exact .inconclusive _ request host _ hphase (fails _ _ _ _)
    · cases h
  · cases h

/-- A write takes some bytes, asks for another try or fails. -/
theorem wrote_cases {rest : Bytes} {going : State → Bytes → List Effect → Next}
    {failed : State → Next} (h : wrote s rest going failed answer = some out) :
    (∃ n, answer = .write (.room n) ∧ s.broken = false ∧
      out = going s (rest.drop n) [.sent (rest.take n)]) ∨
    out = .next s [] ∨
    ((s.broken = true ∨ answer = .write (.room 0) ∨ ∃ e, answer = .write (.failed e)) ∧
      out = failed { s with broken := true }) := by
  unfold wrote at h
  split at h
  · split at h
    · next hbroken =>
      have hs : { s with broken := true } = s := by
        rw [← hbroken]
      exact Or.inr (Or.inr ⟨Or.inl hbroken, (hs ▸ Option.some.inj h).symm⟩)
    · cases h
  · next n =>
    split at h
    · cases h
    · next hbroken =>
      split at h
      · next hzero =>
        exact Or.inr (Or.inr ⟨Or.inr (Or.inl (by rw [hzero])), (Option.some.inj h).symm⟩)
      · exact Or.inl ⟨n, rfl, Bool.eq_false_of_not_eq_true hbroken, (Option.some.inj h).symm⟩
  · next e =>
    split at h
    · cases h
    · split at h
      · exact Or.inr (Or.inl (Option.some.inj h).symm)
      · exact Or.inr (Or.inr ⟨Or.inr (Or.inr ⟨e, rfl⟩), (Option.some.inj h).symm⟩)
  · cases h

theorem step_printing {request : Request} {host : Host} {call : Bool} {rest : Bytes}
    (hphase : s.phase = .printing request host call rest)
    (h : printing s request host call rest answer = some out) :
    Step serde target number s answer out := by
  rcases wrote_cases h with ⟨n, rfl, hbroken, rfl⟩ | rfl | ⟨hcut, rfl⟩
  · split
    · next hleft => exact .sent request host call rest n hphase hbroken hleft
    · next hleft =>
      have hnil := not_not.mp hleft
      cases call with
      | true => exact .sentCall request host rest n hphase hbroken hnil
      | false => exact .sentLog request host rest n hphase hbroken hnil
  · exact .retried _
  · exact .cut _ request host call rest hphase hcut

theorem step_awaiting {request : Request} {host : Host} (hphase : s.phase = .awaiting request host)
    (h : awaiting serde s request host answer = some out) :
    Step serde target number s answer out := by
  unfold awaiting at h
  split at h
  · next v rest hfront =>
    obtain rfl := Option.some.inj h
    exact .replied request host v rest hphase hfront
  · next rest hfront =>
    obtain rfl := Option.some.inj h
    exact .unreplied _ request host rest hphase (.refused rest hfront)
  · next outcome hfront =>
    obtain rfl := Option.some.inj h
    unfold received
    split
    · exact .unreplied _ request host [] hphase (.ended hfront)
    · next bytes hne =>
      exact .took bytes (fun hnil => hne hnil) hfront (Or.inr ⟨request, host, hphase⟩)
    · next e =>
      split
      · exact .retried _
      · next hkind =>
        exact .unreplied _ request host [] hphase (.failed e hfront hkind)
  · cases h

theorem step_finishing {execution : String} {completed : Bool} {rest : Bytes}
    (hphase : s.phase = .finishing execution completed rest)
    (h : finishing s execution completed rest answer = some out) :
    Step serde target number s answer out := by
  unfold finishing at h
  split at h
  · next hnil =>
    subst hnil
    split at h
    · obtain rfl := Option.some.inj h
      exact .exited execution completed hphase
    · cases h
  · rcases wrote_cases h with ⟨n, rfl, hbroken, rfl⟩ | rfl | ⟨hcut, rfl⟩
    · exact .sentLast execution completed rest n hphase hbroken
    · exact .retried _
    · exact .cutLast _ execution completed rest hphase hcut

theorem step_cases (h : step serde target number s answer = some out) :
    Step serde target number s answer out := by
  unfold step at h
  split at h
  · next status =>
    obtain rfl := Option.some.inj h
    exact .died status
  · split at h
    · next hphase => exact step_starting hphase h
    · next hphase => exact step_entering hphase h
    · next hphase => exact step_running hphase h
    · next hphase => exact step_printing hphase h
    · next hphase => exact step_awaiting hphase h
    · next hphase => exact step_finishing hphase h

end RubyEngine.Guest.Process
