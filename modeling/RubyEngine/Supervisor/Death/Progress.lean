import Mathlib.Data.Prod.Lex
import RubyEngine.Supervisor.Death.Invariant

/-!
# Where a step fails, and what it leaves to do

A step fails where it meets bytes that the dead guest has not taken, or a frame of a peer
that it refuses, and nowhere else. No other step adds to what is left to do.
-/
namespace RubyEngine.Supervisor.Death

open Transition (Outcome)
open Disconnect (badLength completes cutShort readsGuest)
open Json (Value)

variable {serde : SerdeJson} {request : Request} {w : World serde request} {n : Nat} {s : Loop}
  {past : List Effect} {answer : Answer}

/-! ## What is left to do -/

/-- Nothing is left to learn about the guest, or its status, or that and its output. -/
def stage (w : World serde request) (s : Loop) (past : List Effect) : Nat :=
  if s.completed then 0
  else if s.guestClosed then 1
  else w.output.length - (tookFrom .guest past).length + 2

/-- First what is left to learn, then what is owed to the host. -/
def rank (w : World serde request) (s : Loop) (past : List Effect) : ℕ ×ₗ ℕ :=
  toLex (stage w s past, s.toHost.owed.length)

/-- The stage tells what is known of the guest. -/
theorem stage_eq {t : Loop} {last : List Effect} (hopen : s.completed = false)
    (h : stage w t last = stage w s past) : t.completed = false ∧ t.guestClosed = s.guestClosed := by
  cases hc : t.completed <;> cases hg : t.guestClosed <;> cases hs : s.guestClosed <;>
    simp [stage, hopen, hc, hg, hs] at h ⊢

theorem rank_lt_of_stage {t : Loop} {last : List Effect} (h : stage w t last < stage w s past) :
    rank w t last < rank w s past :=
  Prod.Lex.toLex_lt_toLex.mpr (Or.inl h)

/-- A byte of the output that is taken leaves less of it. -/
theorem remaining_lt {took chunk output : Bytes} (hne : chunk ≠ []) (h : took ++ chunk <+: output) :
    output.length - (took ++ chunk).length < output.length - took.length := by
  have hle := h.length_le
  have hpos := List.length_pos_of_ne_nil hne
  rw [List.length_append] at hle ⊢
  omega

theorem owed_le (writer : Writer) (outcome : WriteOutcome) :
    (writer.send outcome).writer.owed.length ≤ writer.owed.length := by
  have hlen := congrArg List.length (Writer.send_owed writer outcome)
  rw [List.length_append] at hlen
  omega

theorem owed_lt {writer : Writer} (hp : writer.pending = true) {room : Nat} (hroom : 0 < room) :
    (writer.send (.room room)).writer.owed.length < writer.owed.length := by
  have howed := Writer.send_owed writer (.room room)
  have hpos := List.length_pos_of_ne_nil ((Writer.pending_iff writer).mp hp)
  have haccepted : (writer.send (.room room)).accepted ≠ [] := by
    have hchunk : 0 < CHUNK := by decide
    have hsent : min room (min writer.owed.length CHUNK) ≠ 0 := by omega
    simp only [Writer.send, hp, if_true, if_neg hsent, ne_eq, List.take_eq_nil_iff]
    rintro (hzero | hnil)
    · exact hsent hzero
    · rw [hnil] at hpos
      cases hpos
  have hlen := congrArg List.length howed
  have htaken := List.length_pos_of_ne_nil haccepted
  rw [List.length_append] at hlen
  omega

/-- No step adds to what is left to do. -/
theorem Inv.rank_le (h : Inv w s past) (ha : w.allows n s past answer = true) {t : Loop}
    {effects : List Effect} (hstep : step serde request s answer = some (.next t effects)) :
    rank w t (past ++ effects) ≤ rank w s past := by
  have hc := step_cases hstep
  cases hc with
  | idle => simp [rank, stage]
  | expired _ hphase _ => simp [World.allows, hphase] at ha
  | ceiling bytes _ hphase _ _ =>
    rw [step_memory_allowed hphase ha] at hstep
    simp at hstep
  | hostTook | reply | guestSent => simp [rank, stage]
  | hostSent outcome _ _ _ =>
    refine Prod.Lex.toLex_le_toLex.mpr (Or.inr ⟨by simp [stage], ?_⟩)
    exact owed_le s.toHost outcome
  | guestTook outcome hphase hopen hidle hg hres =>
    refine Prod.Lex.toLex_le_toLex'.mpr ⟨?_, fun _ => Nat.le_refl _⟩
    simp only [stage, hopen, hg, Bool.false_eq_true, if_false, tookFrom_append, List.length_append]
    omega
  | event outcome v s' _ hphase hopen hg hres _ _ hadmit hload =>
    have hshow : w.guestShows past outcome = true := by
      simpa [World.allows, hphase, readsGuest, hopen, hload.drained, hg] using ha
    have hconsumed := consumed_of_value (h.balanced.guest hg).within hres
    have hless := remaining_lt hconsumed (h.grows hg hshow)
    refine (rank_lt_of_stage ?_).le
    cases hadmit with
    | completed => simp [stage, hopen, hg]
    | log | call => simpa [stage, hopen, hg] using hless
  | guestEof outcome e _ hopen _ hg _ _ =>
    refine (rank_lt_of_stage ?_).le
    simp [stage, hopen, hg]
  | childExited status _ _ hclose hopen _ =>
    refine (rank_lt_of_stage ?_).le
    simp [stage, hopen, hclose]

/-! ## Where a step fails -/

theorem send_takes {outcome : WriteOutcome} (h : takes outcome = true) (writer : Writer) :
    (writer.send outcome).result = .ok () := by
  unfold Writer.send
  split
  · next hp =>
    cases outcome with
    | failed e => simp only [takes] at h; simp only [h, if_true]
    | room room =>
      have hpos := List.length_pos_of_ne_nil ((Writer.pending_iff writer).mp hp)
      have hchunk : 0 < CHUNK := by decide
      have hroom : room ≠ 0 := of_decide_eq_true h
      have hsent : min room (min writer.owed.length CHUNK) ≠ 0 := by omega
      simp only [if_neg hsent]
  · rfl

/-- A value goes into an empty buffer if it fits into a frame. -/
theorem enqueue_idle {writer : Writer} (hp : writer.pending = false) (v : Value) :
    (MAX_FRAME < (serde.toVec v).length ∧ ∃ writer' e,
      writer.enqueue serde v = (writer', .error e)) ∨
    ((serde.toVec v).length ≤ MAX_FRAME ∧ ∃ writer', writer.enqueue serde v = (writer', .ok ())) := by
  rcases Writer.enqueue_cases serde writer v with ⟨hpending, _⟩ | ⟨_, hlen, he⟩ | ⟨_, hlen, he⟩
  · rw [hp] at hpending
    cases hpending
  · exact Or.inl ⟨hlen, _, _, he⟩
  · exact Or.inr ⟨hlen, _, he⟩

/-! Where a step can fail, by the place of the loop. -/

theorem fails_host (hphase : s.phase = .host) : w.fails n s answer = blocked serde s answer := by
  cases answer <;> simp [World.fails, World.stranded, flawed, readsGuest, hphase]

theorem fails_guest (hphase : s.phase = .guest) :
    w.fails n s answer = flawed serde request s answer := by
  cases answer <;> simp [World.fails, World.stranded, blocked, hphase]

theorem fails_toGuest (hphase : s.phase = .toGuest) :
    w.fails n s answer = (decide (w.death ≤ n) && s.toGuest.pending) := by
  cases answer <;> simp [World.fails, World.stranded, blocked, flawed, readsGuest, hphase]

theorem fails_elsewhere (h : s.phase ≠ .host ∧ s.phase ≠ .guest ∧ s.phase ≠ .toGuest) :
    w.fails n s answer = false := by
  cases answer <;> simp [World.fails, World.stranded, blocked, flawed, readsGuest, h]

/-- A read of the host fails if the reply cannot be passed on, and only then. -/
theorem Inv.host_turn (h : Inv w s past) (hphase : s.phase = .host) {outcome : ReadOutcome}
    (hshow : w.hostShows past outcome = true) :
    (blocked serde s (.read outcome) = true ∧ ∃ e effects,
      step serde request s (.read outcome) = some (.exit (.error e) effects)) ∨
    (blocked serde s (.read outcome) = false ∧ ∃ t effects,
      step serde request s (.read outcome) = some (.next t effects)) := by
  obtain ⟨out, hres, hanswers, _⟩ := h.read_host hshow
  have hwithin := h.balanced.host.within
  have hstep : step serde request s (.read outcome) = some (hostPhase serde request s outcome) := by
    simp only [step, hphase]
  rw [hstep]
  simp only [hostPhase, hres]
  cases out with
  | none =>
    have hcomp : completes s.host outcome = none := by
      cases hcomp : completes s.host outcome with
      | none => rfl
      | some payload =>
        have hother := Disconnect.receive_completes serde hwithin hcomp
        rw [hres] at hother
        cases hs : serde.fromSlice payload <;>
        · rw [hs] at hother
          cases hother
    exact Or.inr ⟨by simp [blocked, hcomp], _, _, rfl⟩
  | some v =>
    obtain ⟨⟨hprotocol, hid⟩, hkind, k, hk, hseq⟩ := hanswers v rfl
    obtain ⟨payload, hcomp, hs⟩ := completes_of_value hwithin hres
    have hblocked : blocked serde s (.read outcome) =
        (s.toGuest.pending || decide (MAX_FRAME < (serde.toVec v).length)) := by
      simp [blocked, hphase, hcomp, hs]
    simp only [acceptReply, hprotocol, hid, hkind, hk, hseq, ne_eq, not_true_eq_false, or_self,
      if_false, Option.some.injEq, String.reduceEq, Option.isNone_some, Bool.false_eq_true]
    rw [hblocked]
    rcases Writer.enqueue_cases serde s.toGuest v with
      ⟨hpending, he⟩ | ⟨-, hlen, he⟩ | ⟨hpending, hlen, he⟩
    · rw [he]
      exact Or.inl ⟨by rw [hpending, Bool.true_or], _, _, rfl⟩
    · rw [he]
      exact Or.inl ⟨by rw [decide_eq_true hlen, Bool.or_true], _, _, rfl⟩
    · rw [he]
      exact Or.inr ⟨by rw [hpending, decide_eq_false (Nat.not_lt.mpr hlen), Bool.false_or], _, _, rfl⟩

theorem conforms_iff {v : Value} : conforms request s v = true ↔
    ((v.index "protocol").asStr = some PROTOCOL ∧
      (v.index "execution_id").asStr = some request.executionId) ∧
    ((v.index "kind").asStr = some "log" ∨
      (v.index "kind").asStr = some "call" ∧ mayCall request s v = true) := by
  simp only [conforms, Bool.and_eq_true, Bool.or_eq_true, decide_eq_true_eq]

/-- An event is admitted exactly if it conforms. -/
theorem accept_turn {v : Value} (r : Reader) (effects : List Effect)
    (hidle : s.toHost.pending = false) (hkind : (v.index "kind").asStr ≠ some "completed") :
    ((!conforms request s v || decide (MAX_FRAME < (serde.toVec v).length)) = true ∧ ∃ e,
      acceptEvent serde request { s with guest := r } v effects = .exit (.error e) effects) ∨
    ((!conforms request s v || decide (MAX_FRAME < (serde.toVec v).length)) = false ∧ ∃ t,
      acceptEvent serde request { s with guest := r } v effects =
        .next t (effects ++ [.enqueued .host v]) ∧
      t.completed = s.completed ∧ t.guestClosed = s.guestClosed) := by
  have hrefused : ∀ e, (conforms request s v = true → False) →
      acceptEvent serde request { s with guest := r } v effects = .exit (.error e) effects →
      (!conforms request s v || decide (MAX_FRAME < (serde.toVec v).length)) = true ∧ ∃ e,
        acceptEvent serde request { s with guest := r } v effects = .exit (.error e) effects := by
    intro e hnot he
    rw [Bool.eq_false_of_not_eq_true hnot]
    exact ⟨rfl, e, he⟩
  by_cases hid : (v.index "protocol").asStr ≠ some PROTOCOL ∨
      (v.index "execution_id").asStr ≠ some request.executionId
  · refine Or.inl (hrefused _ ?_ (by rw [acceptEvent, if_pos hid]; rfl))
    intro hc
    rcases hid with hprotocol | hexecution
    · exact hprotocol (conforms_iff.mp hc).1.1
    · exact hexecution (conforms_iff.mp hc).1.2
  · cases hadmit : admitEvent request { s with guest := r } v with
    | error e =>
      refine Or.inl (hrefused e ?_ (by rw [acceptEvent, if_neg hid, hadmit]))
      intro hc
      rcases (conforms_iff.mp hc).2 with hlog | ⟨hcall, hmay⟩
      · simp [admitEvent, hlog] at hadmit
      · have hmay' : mayCall request { s with guest := r } v = true := hmay
        simp [admitEvent, hcall, hmay'] at hadmit
    | ok s' =>
      have hadmits := admits_of_ok hadmit
      have hconforms : conforms request s v = true := by
        refine conforms_iff.mpr ⟨by simpa [not_or] using hid, ?_⟩
        cases hadmits with
        | completed hk => exact absurd hk hkind
        | log hk => exact Or.inl hk
        | call hk hcalls =>
          have hmay : mayCall request { s with guest := r } v = true := mayCall_iff.mpr hcalls
          exact Or.inr ⟨hk, hmay⟩
      have hsame : s'.toHost = s.toHost ∧ s'.completed = s.completed ∧
          s'.guestClosed = s.guestClosed := by
        cases hadmits with
        | completed hk => exact absurd hk hkind
        | log | call => exact ⟨rfl, rfl, rfl⟩
      rw [hconforms, Bool.not_true, Bool.false_or, acceptEvent, if_neg hid, hadmit]
      dsimp only
      rw [hsame.1]
      rcases enqueue_idle hidle v with ⟨hlen, writer', e, he⟩ | ⟨hlen, writer', he⟩
      · rw [he]
        exact Or.inl ⟨decide_eq_true hlen, _, rfl⟩
      · rw [he]
        exact Or.inr ⟨decide_eq_false (Nat.not_lt.mpr hlen), _, rfl, hsame.2⟩

/-- A read of the guest fails if what it finds is flawed, and only then. Otherwise, with
something to read, there is less to learn afterwards. -/
theorem Inv.guest_turn (h : Inv w s past) (hreads : readsGuest s = true)
    {outcome : ReadOutcome} (hshow : w.guestShows past outcome = true) :
    (flawed serde request s (.read outcome) = true ∧ ∃ e effects,
      step serde request s (.read outcome) = some (.exit (.error e) effects)) ∨
    (flawed serde request s (.read outcome) = false ∧ ∃ t effects,
      step serde request s (.read outcome) = some (.next t effects) ∧
      ((∃ waiting, outcome = .data waiting) → stage w t (past ++ effects) < stage w s past)) := by
  have hall := hreads
  simp only [readsGuest, Bool.and_eq_true, decide_eq_true_eq, Bool.not_eq_true'] at hall
  obtain ⟨⟨⟨hphase, hopen⟩, hidle⟩, hg⟩ := hall
  have hstep : step serde request s (.read outcome) = some (guestPhase serde request s outcome) := by
    simp only [step, hphase]
  have hgrows := h.grows hg hshow
  rw [hstep, guestPhase, if_pos (by rw [hopen, hidle, hg]; rfl)]
  dsimp only
  cases h.read_guest hg hshow with
  | header hbad hres =>
    rw [hres]
    exact Or.inl ⟨by simp [flawed, hreads, hbad], _, _, rfl⟩
  | more hbad hcomp hres hdata =>
    rw [hres]
    refine Or.inr ⟨by simp [flawed, hbad, hcomp], _, _, rfl, ?_⟩
    intro hwaiting
    simpa [stage, hopen, hg] using remaining_lt (hdata hwaiting) hgrows
  | ended hbad hcomp hres _ =>
    rw [hres]
    refine Or.inr ⟨by simp [flawed, hbad, hcomp], _, _, rfl, ?_⟩
    intro _
    simp [stage, hopen, hg]
  | garbled payload e hbad hcomp hs hres =>
    have hflawed : flawed serde request s (.read outcome) = decide (e.category ≠ .eof) := by
      simp [flawed, hreads, hbad, hcomp, hs]
    rw [hres, hflawed]
    dsimp only
    by_cases hcategory : e.category = .eof
    · rw [if_pos ((Disconnect.toIo_kind e).mpr hcategory)]
      refine Or.inr ⟨decide_eq_false (not_not.mpr hcategory), _, _, rfl, ?_⟩
      intro _
      simp [stage, hopen, hg]
    · rw [if_neg (mt (Disconnect.toIo_kind e).mp hcategory)]
      exact Or.inl ⟨decide_eq_true hcategory, _, _, rfl⟩
  | event payload v hbad hcomp hs hres hconsumed hnext =>
    have hflawed : flawed serde request s (.read outcome) =
        (!conforms request s v || decide (MAX_FRAME < (serde.toVec v).length)) := by
      simp [flawed, hreads, hbad, hcomp, hs]
    rw [hres, hflawed]
    dsimp only
    rcases accept_turn (s.guest.receive serde outcome).reader
      [.took .guest (s.guest.receive serde outcome).consumed, .received .guest v] hidle
      (h.unfinished hg hshow hres) with ⟨hrefused, e, he⟩ | ⟨hfine, t, ht, hc, hclosed⟩
    · exact Or.inl ⟨hrefused, e, _, congrArg some he⟩
    · refine Or.inr ⟨hfine, t, _, congrArg some ht, ?_⟩
      intro _
      simpa [stage, hopen, hg, hc, hclosed] using remaining_lt hconsumed hgrows

/-- A write to the guest fails if the guest is dead and bytes are pending, and only then. -/
theorem guest_send (hphase : s.phase = .toGuest) {outcome : WriteOutcome}
    (ha : w.allows n s past (.write outcome) = true) :
    (w.fails n s (.write outcome) = true ∧ ∃ e effects,
      step serde request s (.write outcome) = some (.exit (.error e) effects)) ∨
    (w.fails n s (.write outcome) = false ∧ ∃ t effects,
      step serde request s (.write outcome) = some (.next t effects)) := by
  have hstep : step serde request s (.write outcome) = some (toGuestPhase s outcome) := by
    simp only [step, hphase]
  have hsent : (s.toGuest.send outcome).result = .ok () →
      ∃ t effects, toGuestPhase s outcome = .next t effects := by
    intro hok
    simp only [toGuestPhase, hok]
    exact ⟨_, _, rfl⟩
  simp only [World.allows, hphase, Bool.or_eq_true, Bool.not_eq_true'] at ha
  rw [fails_toGuest hphase, hstep]
  cases hp : s.toGuest.pending with
  | false =>
    obtain ⟨t, effects, hnext⟩ := hsent (by rw [Writer.send_of_not_pending hp])
    exact Or.inr ⟨Bool.and_false _, t, effects, by rw [hnext]⟩
  | true =>
    have ha' := ha.resolve_left (by rw [hp]; decide)
    split at ha'
    · next hdead =>
      obtain rfl : outcome = .failed brokenPipe := of_decide_eq_true ha'
      have hfail : (s.toGuest.send (.failed brokenPipe)).result = .error brokenPipe := by
        simp only [Writer.send, hp, if_true]
        exact if_neg (by decide)
      refine Or.inl ⟨by simp [hdead], brokenPipe,
        [.sent .guest (s.toGuest.send (.failed brokenPipe)).accepted], ?_⟩
      simp only [toGuestPhase, hfail]
    · next halive =>
      obtain ⟨t, effects, hnext⟩ := hsent (send_takes ha' _)
      exact Or.inr ⟨by simp [halive], t, effects, by rw [hnext]⟩

theorem host_send (hphase : s.phase = .toHost) {outcome : WriteOutcome}
    (ha : w.allows n s past (.write outcome) = true) :
    ∃ out, step serde request s (.write outcome) = some out ∧ ∀ e, out.result ≠ some (.error e) := by
  have hok : (s.toHost.send outcome).result = .ok () := by
    simp only [World.allows, hphase, Bool.or_eq_true, Bool.not_eq_true'] at ha
    rcases ha with hidle | htakes
    · rw [Writer.send_of_not_pending hidle]
    · exact send_takes htakes _
  refine ⟨toHostPhase s outcome, by simp only [step, hphase], ?_⟩
  intro e
  simp only [toHostPhase, hok]
  split <;> simp [Outcome.result]

theorem Inv.collects (h : Inv w s past) (hphase : s.phase = .childExit)
    (hfits : (serde.toVec (guestExit request w.status)).length ≤ MAX_FRAME)
    {status : Except IoError (Option ExitStatus)}
    (ha : w.allows n s past (.waited status) = true) :
    ∃ out, step serde request s (.waited status) = some out ∧ ∀ e, out.result ≠ some (.error e) := by
  refine ⟨childExitPhase serde request s status, by simp only [step, hphase], ?_⟩
  intro e
  unfold childExitPhase
  split
  · next hopen =>
    rw [Bool.and_eq_true, Bool.not_eq_true'] at hopen
    rcases status with _ | _ | status
    · simp [World.allows, hphase] at ha
    · simp [Outcome.result]
    · have hdead : w.death ≤ n ∧ status = w.status := by simpa [World.allows, hphase] using ha
      obtain rfl := hdead.2
      have hidle := h.idle hopen.2 hopen.1
      rcases @enqueue_idle serde _ hidle (guestExit request w.status) with
        ⟨hlen, _⟩ | ⟨_, writer', he⟩
      · exact absurd hfits (Nat.not_le.mpr hlen)
      · simp only [he]
        simp [Outcome.result]
  · simp [Outcome.result]

/-- Where a step fails, the loop ends with an error, and nowhere else. -/
theorem Inv.turn (h : Inv w s past)
    (hfits : (serde.toVec (guestExit request w.status)).length ≤ MAX_FRAME)
    (ha : w.allows n s past answer = true) :
    (w.fails n s answer = true ∧ ∃ e effects,
      step serde request s answer = some (.exit (.error e) effects)) ∨
    (w.fails n s answer = false ∧ ∃ out, step serde request s answer = some out ∧
      ∀ e, out.result ≠ some (.error e)) := by
  have hnext : ∀ {t effects}, step serde request s answer = some (.next t effects) →
      ∃ out, step serde request s answer = some out ∧ ∀ e, out.result ≠ some (.error e) :=
    fun hstep => ⟨_, hstep, by simp [Outcome.result]⟩
  have hidle : ∀ phase, step serde request s answer = some (.next { s with phase := phase } []) →
      ∃ out, step serde request s answer = some out ∧ ∀ e, out.result ≠ some (.error e) :=
    fun phase hstep => hnext hstep
  cases hphase : s.phase with
  | lastSend => exact absurd hphase h.phase
  | deadline =>
    cases answer with
    | clock expired =>
      cases expired with
      | true => simp [World.allows, hphase] at ha
      | false =>
        refine Or.inr ⟨fails_elsewhere (by simp [hphase]), hidle .memory ?_⟩
        simp only [step, hphase]
        rfl
    | resident | read | write | waited | polled => simp [World.allows, hphase] at ha
  | memory =>
    cases answer with
    | resident bytes =>
      exact Or.inr ⟨fails_elsewhere (by simp [hphase]), hnext (step_memory_allowed hphase ha)⟩
    | clock | read | write | waited | polled => simp [World.allows, hphase] at ha
  | host =>
    cases answer with
    | read outcome =>
      rw [fails_host hphase]
      have hshow : w.hostShows past outcome = true := by simpa [World.allows, hphase] using ha
      rcases h.host_turn hphase hshow with hfail | ⟨hfine, t, effects, hstep⟩
      · exact Or.inl hfail
      · exact Or.inr ⟨hfine, hnext hstep⟩
    | clock | resident | write | waited | polled => simp [World.allows, hphase] at ha
  | toGuest =>
    cases answer with
    | write outcome =>
      rcases guest_send hphase ha with hfail | ⟨hfine, t, effects, hstep⟩
      · exact Or.inl hfail
      · exact Or.inr ⟨hfine, hnext hstep⟩
    | clock | resident | read | waited | polled => simp [World.allows, hphase] at ha
  | toHost =>
    cases answer with
    | write outcome => exact Or.inr ⟨fails_elsewhere (by simp [hphase]), host_send hphase ha⟩
    | clock | resident | read | waited | polled => simp [World.allows, hphase] at ha
  | guest =>
    cases answer with
    | read outcome =>
      rw [fails_guest hphase]
      cases hreads : readsGuest s with
      | true =>
        have hshow : w.guestShows past outcome = true := by
          simpa [World.allows, hphase, hreads] using ha
        rcases h.guest_turn hreads hshow with hfail | ⟨hfine, t, effects, hstep, _⟩
        · exact Or.inl hfail
        · exact Or.inr ⟨hfine, hnext hstep⟩
      | false =>
        refine Or.inr ⟨by simp [flawed, hreads], hidle .childExit ?_⟩
        simp only [readsGuest, hphase, decide_true, Bool.true_and] at hreads
        have hstep : step serde request s (.read outcome) =
            some (guestPhase serde request s outcome) := by simp only [step, hphase]
        rw [hstep, guestPhase, hreads]
        rfl
    | clock | resident | write | waited | polled => simp [World.allows, hphase] at ha
  | childExit =>
    cases answer with
    | waited status =>
      exact Or.inr ⟨fails_elsewhere (by simp [hphase]), h.collects hphase hfits ha⟩
    | clock | resident | read | write | polled => simp [World.allows, hphase] at ha
  | poll =>
    cases answer with
    | polled result =>
      refine Or.inr ⟨fails_elsewhere (by simp [hphase]), hidle .deadline ?_⟩
      simp only [step, hphase]
      cases result with
      | ok => rfl
      | error e =>
        have he : e.kind = .interrupted := by simpa [World.allows, hphase] using ha
        simp only [pollPhase, he, if_true]
    | clock | resident | read | write | waited => simp [World.allows, hphase] at ha

/-! ## The run ends -/

/-- A write to the host with room leaves less owed. -/
theorem lower_drain (hphase : s.phase = .toHost) (hp : s.toHost.pending = true) {room : Nat}
    (hroom : 0 < room) {t : Loop} {effects : List Effect}
    (hstep : step serde request s (.write (.room room)) = some (.next t effects)) :
    rank w t (past ++ effects) < rank w s past := by
  have htakes : takes (.room room) = true := decide_eq_true (Nat.ne_of_gt hroom)
  have hok := send_takes htakes s.toHost
  simp only [step, hphase, toHostPhase, hok] at hstep
  split at hstep
  · cases hstep
  · cases hstep
    exact Prod.Lex.toLex_lt_toLex.mpr (Or.inr ⟨by simp [stage], owed_lt hp hroom⟩)

/-- A status that is collected leaves nothing to learn. -/
theorem lower_reap (hphase : s.phase = .childExit) (hg : s.guestClosed = true)
    (hc : s.completed = false) {status : ExitStatus} {t : Loop} {effects : List Effect}
    (hstep : step serde request s (.waited (.ok (some status))) = some (.next t effects)) :
    rank w t (past ++ effects) < rank w s past := by
  have hwait : step serde request s (.waited (.ok (some status))) =
      some (childExitPhase serde request s (.ok (some status))) := by simp only [step, hphase]
  rw [hwait, childExitPhase, if_pos (by rw [hg, hc]; rfl)] at hstep
  apply rank_lt_of_stage
  revert hstep
  rcases s.toHost.enqueue serde (guestExit request status) with ⟨writer', _ | _⟩
  · rintro ⟨⟩
  · rintro ⟨⟩
    simp [stage, hc, hg]

/-- A diagnostic of the supervisor fits into a frame. -/
theorem fits_failure (hc : serde.Compact) {execution kind message : String}
    (hid : (utf8 execution).length ≤ 128) (hkind : (utf8 kind).length ≤ 100)
    (hmessage : (utf8 message).length ≤ 100) :
    (serde.toVec (failure execution kind message)).length ≤ MAX_FRAME := by
  let float : UInt64 → Bytes := fun _ => Json.digits 0
  have hfree : (failure execution kind message).doc.floatFree = true := by
    refine Value.floatFree_object ?_
    have herror : (Value.object [("type", .string kind),
        ("message", .string message)]).doc.floatFree = true := by
      refine Value.floatFree_object ?_
      simp only [List.mem_cons, List.not_mem_nil, or_false, forall_eq_or_imp, forall_eq]
      exact ⟨rfl, rfl⟩
    simp only [List.mem_cons, List.not_mem_nil, or_false, forall_eq_or_imp, forall_eq]
    exact ⟨rfl, rfl, rfl, rfl, herror⟩
  have herror : ((compactWith float).render (Value.object [("type", .string kind),
      ("message", .string message)]).doc).length ≤ 1230 := by
    have htype := length_memberSize_le float "type" (d := .string kind) (k := 8)
      (by decide) (length_quote_le float _)
    have htext := length_memberSize_le float "message" (d := .string message) (k := 11)
      (by decide) (length_quote_le float _)
    refine (Json.Style.length_valueObject_le _).trans ?_
    simp only [List.map_cons, List.map_nil, List.sum_cons, List.sum_nil, Value.doc_string]
    omega
  have hprotocol := length_memberSize_le float "protocol" (k := 12)
    (d := .string PROTOCOL) (n := 15) (by decide)
    (by decide : (compact.quote PROTOCOL).length ≤ 15)
  have hexecution := length_memberSize_le float "execution_id" (k := 16)
    (d := .string execution) (by decide) (length_quote_le float _)
  have hcompleted := length_memberSize_le float "kind" (k := 8)
    (d := .string "completed") (n := 11) (by decide)
    (by decide : (compact.quote "completed").length ≤ 11)
  have hresult := length_memberSize_le float "result" (k := 10) (d := .null) (n := 4)
    (by decide) (by decide : Json.Ascii.null.length ≤ 4)
  have herrors := length_memberSize_le float "error" (k := 9) (by decide) herror
  have hmax : 4096 ≤ MAX_FRAME := by decide
  rw [hc.prints _ hfree]
  refine (Json.Style.length_valueObject_le _).trans (le_trans ?_ hmax)
  simp only [List.map_cons, List.map_nil, List.sum_cons, List.sum_nil, Value.doc_string,
    Value.doc_null]
  have hstyle : compact = compactWith float := rfl
  rw [hstyle]
  omega

/-- Whatever the status is, the failure for it fits into a frame. -/
theorem fits_guestExit (hc : serde.Compact) (hid : (utf8 request.executionId).length ≤ 128)
    (status : ExitStatus) : (serde.toVec (guestExit request status)).length ≤ MAX_FRAME := by
  unfold guestExit
  split
  next kind message heq =>
    split at heq
    · cases heq
      exact fits_failure hc hid (by decide) (by decide)
    split at heq
    · cases heq
      exact fits_failure hc hid (by decide) (by decide)
    split at heq
    · cases heq
      exact fits_failure hc hid (by decide) (by decide)
    split at heq
    · cases heq
      exact fits_failure hc hid (by decide) (by decide)
    · cases heq
      exact fits_failure hc hid (by decide) (by decide)

end RubyEngine.Supervisor.Death
