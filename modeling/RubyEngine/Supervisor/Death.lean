import RubyEngine.Supervisor.Death.Progress

/-!
# The death of the guest is classified

A guest that ends is noticed by the end of its output, and its status gives the
terminal event. The loop has another way to notice it, which is an error: a write
to its standard input.
-/
namespace RubyEngine.Supervisor.Death

open Json (Value)
open Transition (Machine)
open Capability (isCall)
open Disconnect (readsGuest)

variable {serde : SerdeJson} {request : Request} {w : World serde request} {n : Nat} {s : Loop}
  {past : List Effect} {answer : Answer}

/-! ## Runs -/

section Runs

variable {s₀ : Loop} {answers : Nat → Answer}

/-- The run of the loop from where it is entered. -/
abbrev run (serde : SerdeJson) (request : Request) (s₀ : Loop) (answers : Nat → Answer) :=
  (machine serde request).trace s₀ [.enqueued .guest request.toValue] answers

theorem inv_run (henter : enter serde request = .ok s₀) (hrun : w.Run s₀ answers)
    (hfits : (serde.toVec (guestExit request w.status)).length ≤ MAX_FRAME) {t : Loop}
    (ht : run serde request s₀ answers n = .running t past) : Inv w t past := by
  induction n generalizing t past with
  | zero =>
    cases ht
    exact inv_start henter
  | succ n ih =>
    obtain ⟨u, before, hu, ⟨hnone, _⟩ | ⟨effects, hstep, rfl⟩⟩ := Machine.trace_running ht
    · have hnone : step serde request u (answers n) = none := hnone
      rcases (ih hu).turn hfits (hrun.allowed n u before hu) with
        ⟨_, e, effects, hstep⟩ | ⟨_, out, hstep, _⟩ <;>
      · rw [hnone] at hstep
        cases hstep
    · exact (ih hu).next (hrun.allowed n u before hu) hstep

/-- What is lost stays lost. -/
theorem lost_run {k : Nat} {t u : Loop} {before : List Effect}
    (ht : run serde request s₀ answers k = .running t before) (hclosed : t.guestClosed = true)
    (hless : (receivedFrom .guest before).length < w.events.length) (hk : k ≤ n)
    (hu : run serde request s₀ answers n = .running u past) :
    u.guestClosed = true ∧ (receivedFrom .guest past).length < w.events.length := by
  induction hk generalizing u past with
  | refl =>
    rw [hu] at ht
    cases ht
    exact ⟨hclosed, hless⟩
  | step _ ih =>
    obtain ⟨v, last, hv, ⟨_, rfl, rfl⟩ | ⟨effects, hstep, rfl⟩⟩ := Machine.trace_running hu
    · exact ih hv
    · obtain ⟨hclosed', hless'⟩ := ih hv
      obtain ⟨hstill, hsame⟩ := closed_next hclosed' hstep
      rw [hsame]
      exact ⟨hstill, hless'⟩

/-- Where nothing goes wrong, the end of the output stands behind all the events. -/
theorem whole_run (henter : enter serde request = .ok s₀) (hrun : w.Run s₀ answers)
    (hfits : (serde.toVec (guestExit request w.status)).length ≤ MAX_FRAME)
    (hcalm : ∀ n t past, run serde request s₀ answers n = .running t past →
      w.strikes n t past (answers n) = false) {t : Loop}
    (ht : run serde request s₀ answers n = .running t past) :
    t.guestClosed = true → receivedFrom .guest past = w.events := by
  induction n generalizing t past with
  | zero =>
    cases ht
    obtain ⟨_, _, hs⟩ := enter_cases henter
    rw [hs]
    exact fun hclosed => absurd hclosed Bool.false_ne_true
  | succ n ih =>
    obtain ⟨u, before, hu, ⟨_, rfl, rfl⟩ | ⟨effects, hstep, rfl⟩⟩ := Machine.trace_running ht
    · exact ih hu
    · have hkeeps := (Bool.or_eq_false_iff.mp (hcalm n u before hu)).2
      exact whole_next (inv_run henter hrun hfits hu) (hrun.allowed n u before hu) hkeeps (ih hu)
        hstep

/-- Owed bytes go to a host that drains; without any, a status is collected or the
output is read. -/
theorem ends (henter : enter serde request = .ok s₀) (hrun : w.Run s₀ answers)
    (hfits : (serde.toVec (guestExit request w.status)).length ≤ MAX_FRAME) :
    ∃ n result last, run serde request s₀ answers n = .ended result last := by
  have hfall : (machine serde request).Falling s₀ [.enqueued .guest request.toValue] answers
      (rank w) := by
    intro n t past u effects ht hstep
    exact (inv_run henter hrun hfits ht).rank_le (hrun.allowed n t past ht) hstep
  apply Machine.ends_of_rank hfall
  · intro n t past ht
    have hdefined : ∀ k u last, run serde request s₀ answers k = .running u last →
        (∀ v effects, step serde request u (answers k) = some (.next v effects) →
          rank w v (last ++ effects) < rank w u last) →
        ∃ out, (machine serde request).step u (answers k) = some out ∧
          ∀ v effects, out = .next v effects → rank w v (last ++ effects) < rank w u last := by
      intro k u last hu hlower
      rcases (inv_run henter hrun hfits hu).turn hfits (hrun.allowed k u last hu) with
        ⟨_, e, effects, hstep⟩ | ⟨_, out, hstep, _⟩
      · exact ⟨_, hstep, by simp⟩
      · refine ⟨out, hstep, ?_⟩
        rintro v effects rfl
        exact hlower v effects hstep
    have hpair : ∀ {u : Loop} {last : List Effect}, rank w u last = rank w t past →
        stage w u last = stage w t past ∧ u.toHost.owed.length = t.toHost.owed.length :=
      fun heq => Prod.mk.inj heq
    by_cases hp : t.toHost.pending = true
    · refine ⟨_, hrun.drains, ?_⟩
      rintro k u last hu heq ⟨hphase, room, hroom, hanswer⟩
      have hpu : u.toHost.pending = true := by
        rw [Writer.pending_iff, ← List.length_pos_iff, (hpair heq).2, List.length_pos_iff,
          ← Writer.pending_iff]
        exact hp
      refine hdefined k u last hu ?_
      rw [hanswer]
      exact fun v effects hstep => lower_drain hphase hpu hroom hstep
    · have hidle := (Writer.not_pending_iff _).mp (Bool.eq_false_of_not_eq_true hp)
      have hinv := inv_run henter hrun hfits ht
      have hopen : t.completed = false := by
        cases hc : t.completed with
        | false => rfl
        | true => exact absurd (hinv.owing hc) hp
      cases hg : t.guestClosed with
      | true =>
        refine ⟨_, hrun.reaps, ?_⟩
        rintro k u last hu heq ⟨hphase, status, hanswer⟩
        obtain ⟨hc, hgu⟩ := stage_eq hopen (hpair heq).1
        refine hdefined k u last hu ?_
        rw [hanswer]
        exact fun v effects hstep => lower_reap hphase (hgu.trans hg) hc hstep
      | false =>
        refine ⟨_, hrun.readable, ?_⟩
        rintro k u last hu heq ⟨hphase, waiting, hanswer⟩
        obtain ⟨hstage, howed⟩ := hpair heq
        obtain ⟨hc, hgu⟩ := stage_eq hopen hstage
        have hreads : readsGuest u = true := by
          rw [hidle, List.length_nil, List.length_eq_zero_iff] at howed
          have hpu := (Writer.not_pending_iff _).mpr howed
          simp [readsGuest, hphase, hc, hpu, hgu, hg]
        have hshow : w.guestShows last (.data waiting) = true := by
          have ha := hrun.allowed k u last hu
          rw [hanswer] at ha
          simpa [World.allows, hphase, hreads] using ha
        refine hdefined k u last hu ?_
        rw [hanswer]
        intro v effects hstep
        rcases (inv_run henter hrun hfits hu).guest_turn hreads hshow with
          ⟨_, e, effects', hexit⟩ | ⟨_, v', effects', hnext, hlearn⟩
        · rw [hstep] at hexit
          cases hexit
        · rw [hstep] at hnext
          cases hnext
          exact rank_lt_of_stage (hlearn ⟨waiting, rfl⟩)

/-- Every run of a guest that dies ends, and it classifies the death exactly if in no step bytes
for the guest are pending when it has ended, a frame of a peer is refused, or a frame that is taken
for the end of the output stands before an event. -/
theorem death_classified (hc : serde.Compact) (henter : enter serde request = .ok s₀)
    (hrun : w.Run s₀ answers) :
    w.Classified s₀ answers ↔ ∀ n t past, run serde request s₀ answers n = .running t past →
      w.strikes n t past (answers n) = false := by
  have hid := (Request.validate_iff.mp (enter_cases henter).1).identity.2
  have hfits := fits_guestExit hc hid w.status
  constructor
  · rintro ⟨n, last, hend, henqueued, -⟩ k t past ht
    have hinv := inv_run henter hrun hfits ht
    have hfine : w.fails k t (answers k) = false := by
      rcases hinv.turn hfits (hrun.allowed k t past ht) with ⟨_, e, effects, hexit⟩ | ⟨hfine, _⟩
      · have hfailed := Machine.trace_exit ht hexit
        cases (Machine.trace_ended_unique hend hfailed).1
      · exact hfine
    have hkeeps : w.loses t past (answers k) = false := by
      by_contra hloses
      obtain ⟨u, effects, hstep, hclosed, hless⟩ :=
        closed_of_loses hinv (Bool.eq_true_of_not_eq_false hloses)
      have hu := Machine.trace_next ht hstep
      obtain ⟨j, _, v, before, more, hv, hexit, rfl⟩ := Machine.trace_ended hend
      have hlater : k + 1 ≤ j := by
        by_contra hearly
        have hgone := Machine.trace_stays (Machine.trace_exit hv hexit)
          (show j + 1 ≤ k + 1 by omega)
        rw [hu] at hgone
        cases hgone
      have hlost := (lost_run hu hclosed hless hlater hv).2
      obtain ⟨-, hreceived, -⟩ := (inv_run henter hrun hfits hv).exit_ok (hrun.allowed j v before hv)
        hexit
      rw [henqueued] at hreceived
      rw [List.append_cancel_right hreceived] at hlost
      exact Nat.lt_irrefl _ hlost
    rw [World.strikes, hfine, hkeeps, Bool.or_false]
  · intro hcalm
    obtain ⟨n, result, last, hend⟩ := ends henter hrun hfits
    obtain ⟨k, _, t, past, effects, ht, hexit, rfl⟩ := Machine.trace_ended hend
    have hinv := inv_run henter hrun hfits ht
    have ha := hrun.allowed k t past ht
    cases result with
    | error e =>
      have hexit' : step serde request t (answers k) = some (.exit (.error e) effects) := hexit
      rcases hinv.turn hfits ha with ⟨hfails, _⟩ | ⟨_, out, hstep, hnot⟩
      · rw [(Bool.or_eq_false_iff.mp (hcalm k t past ht)).1] at hfails
        cases hfails
      · rw [hexit'] at hstep
        cases hstep
        exact absurd rfl (hnot e)
    | ok =>
      obtain ⟨hclosed, henqueued, hsent⟩ := hinv.exit_ok ha hexit
      rw [whole_run henter hrun hfits hcalm ht hclosed] at henqueued hsent
      exact ⟨n, _, hend, henqueued, hsent⟩

end Runs

/-! ## Two deaths -/

/-- The answers of a script, and anything after it. -/
def scripted (script : List Answer) (n : Nat) : Answer := script.getD n (.clock false)

/-- A script that the world allows and that ends the run is a run of the world. -/
theorem run_of_rehearse {s₀ : Loop} {script : List Answer}
    {check : Nat → Loop → List Effect → Answer → Bool} {result : Except IoError Unit}
    {last : List Effect} (hcheck : ∀ n t past answer, check n t past answer = true →
      w.allows n t past answer = true)
    (h : (machine serde request).rehearse check 0 s₀ [.enqueued .guest request.toValue] script =
      some (result, last)) :
    w.Run s₀ (scripted script) ∧
      (∃ k, run serde request s₀ (scripted script) k = .ended result last) ∧
      ∀ k t past, run serde request s₀ (scripted script) k = .running t past →
        check k t past (scripted script k) = true := by
  have hscript : ∀ i (hi : i < script.length), scripted script (0 + i) = script[i] := by
    intro i hi
    simp [scripted, hi]
  obtain ⟨⟨k, hend⟩, hall⟩ := Machine.trace_rehearse hscript rfl h
  have hpasses := fun n t past ht => hall n t past (Nat.zero_le n) ht
  exact ⟨⟨fun n t past ht => hcheck _ _ _ _ (hpasses n t past ht), Machine.recurs_of_ended hend _,
    Machine.recurs_of_ended hend _, Machine.recurs_of_ended hend _⟩, ⟨k, hend⟩, hpasses⟩

/-- Any part of the frame of this payload is the part of a frame. -/
def scrap : Bytes := [0x7b, 0x7d]

theorem partial_scrap {n : Nat} (h : n < 6) :
    Framing.Partial (Framing.Fits MAX_FRAME) ((Framing.frame scrap).take n) := by
  refine ⟨scrap, ⟨by decide, by decide⟩, (Framing.frame scrap).drop n, ?_, List.take_append_drop _ _⟩
  rw [ne_eq, List.drop_eq_nil_iff, Framing.length_frame, Nat.not_le]
  exact h

def sampleLog : Value :=
  Value.object [("protocol", .string PROTOCOL), ("execution_id", .string "e"),
    ("kind", .string "log"), ("values", .array [])]

/-- A guest that logs once and is cut off in the next frame, and a host that owes nothing. -/
def lateDeath : World SerdeJson.reference Request.sample where
  output := wire SerdeJson.reference [sampleLog] ++ (Framing.frame scrap).take 5
  unfinished := by decide +kernel
  death := 8
  status := .exited 124
  replies := []
  input := []
  answered := ⟨[], [], .nil, partial_scrap (n := 0) (by decide), rfl⟩
  addressed := by simp
  inOrder := rfl

/-- A guest that is gone before it has read its request. -/
def earlyDeath : World SerdeJson.reference Request.sample where
  output := []
  unfinished := by decide
  death := 0
  status := .signaled 9
  replies := []
  input := []
  answered := ⟨[], [], .nil, partial_scrap (n := 0) (by decide), rfl⟩
  addressed := by simp
  inOrder := rfl

def blocked : ReadOutcome := .failed ⟨.wouldBlock, ""⟩

/-- One iteration with room for whatever is pending. -/
def iteration (guest : ReadOutcome) (status : Option ExitStatus) : List Answer :=
  [.clock false, .resident none, .read blocked, .write (.room CHUNK), .write (.room CHUNK),
    .read guest, .waited (.ok status), .polled (.ok ())]

/-- The request goes out, and then the output and its end are read. -/
def lateScript : List Answer :=
  let output := lateDeath.output
  let size := (wire SerdeJson.reference [sampleLog]).length
  iteration blocked none ++ iteration (.data output) none ++ iteration (.data (output.drop 4)) none ++
    iteration (.data (output.drop size)) none ++ iteration (.data (output.drop (size + 4))) none ++
    iteration (.data []) (some (.exited 124)) ++ iteration blocked none

def earlyScript : List Answer :=
  [.clock false, .resident none, .read blocked, .write (.failed brokenPipe)]

/-- The exhausted instruction budget is reported behind the log event. -/
theorem death_classified_sample : ∃ s₀, enter SerdeJson.reference Request.sample = .ok s₀ ∧
    lateDeath.Run s₀ (scripted lateScript) ∧ lateDeath.Classified s₀ (scripted lateScript) := by
  have henter : enter SerdeJson.reference Request.sample = .ok _ :=
    enter_of_fits (by decide) (by decide +kernel)
  have hsome : ((machine SerdeJson.reference Request.sample).rehearse
      (fun n s past answer =>
        lateDeath.allows n s past answer && !lateDeath.strikes n s past answer) 0
      { toGuest := fresh SerdeJson.reference Request.sample.toValue }
      [.enqueued .guest Request.sample.toValue] lateScript).isSome = true := by decide +kernel
  obtain ⟨⟨result, last⟩, h⟩ := Option.isSome_iff_exists.mp hsome
  obtain ⟨hrun, _, hcalm⟩ := run_of_rehearse (fun _ _ _ _ hc => (Bool.and_eq_true_iff.mp hc).1) h
  refine ⟨_, henter, hrun, (death_classified SerdeJson.reference_compact henter hrun).mpr ?_⟩
  intro n t past ht
  have hpasses := (Bool.and_eq_true_iff.mp (hcalm n t past ht)).2
  rwa [Bool.not_eq_true'] at hpasses

/-- The broken pipe of a request that nobody reads is returned as an error. -/
theorem early_death_not_classified : ∃ s₀, enter SerdeJson.reference Request.sample = .ok s₀ ∧
    earlyDeath.Run s₀ (scripted earlyScript) ∧
    ¬ earlyDeath.Classified s₀ (scripted earlyScript) ∧
    ∃ n last, run SerdeJson.reference Request.sample s₀ (scripted earlyScript) n =
      .ended (.error brokenPipe) last := by
  have henter : enter SerdeJson.reference Request.sample = .ok _ :=
    enter_of_fits (by decide) (by decide +kernel)
  have hplay : ((machine SerdeJson.reference Request.sample).rehearse earlyDeath.allows 0
      { toGuest := fresh SerdeJson.reference Request.sample.toValue }
      [.enqueued .guest Request.sample.toValue] earlyScript).map (fun e => e.1) =
      some (.error brokenPipe) := by decide +kernel
  obtain ⟨⟨result, last⟩, h, hresult⟩ := Option.map_eq_some_iff.mp hplay
  obtain rfl : result = .error brokenPipe := hresult
  obtain ⟨hrun, ⟨k, hend⟩, _⟩ := run_of_rehearse (fun _ _ _ _ hc => hc) h
  refine ⟨_, henter, hrun, ?_, k, last, hend⟩
  rintro ⟨n, other, hok, _⟩
  cases (Machine.trace_ended_unique hok hend).1

end RubyEngine.Supervisor.Death
