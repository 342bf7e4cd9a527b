/-
The account of a claimed attempt (`deliver`).

A call that took the lease of its pair sends at most once, and records exactly once
before it ends, whichever of the branches and handlers of `deliver` it goes through.
Other calls may claim the pair meanwhile, but record nothing for it.

* `ownMoves`, `observed` — the steps of the call in a schedule, and what its send saw;
* `Undisturbed` — the call is under way, lives on, and nobody else records;
* `Account` — what the log row and the end of the call say about the attempt;
* `Stage` — how far a claimed call has come, and what its row says by then.

Main result: `claimed_attempt_accounted`.
-/
import Newsforge.DeliveryLog

open PyText Tables Runs

namespace Deliver

open Subscriptions

/-! ### Schedules -/

section Schedules

variable {ι : Type*} [DecidableEq ι]

/-- The steps that a call itself takes. -/
def ownMoves (p : ι) (ms : List (Move ι Action ℕ)) : List Action :=
  ms.filterMap fun
    | .proc q a => if q = p then some a else none
    | .env _ => none

/-- What the send of a call saw, if it sent. -/
def observed (sub : Subscription) (moves : List Action) : Option (Except DeliveryError Int) :=
  moves.findSome? fun
    | .send receiver => observe sub receiver
    | _ => none

/-- The call is not at its end, its worker is not killed, and no other task records
for the pair. -/
def Undisturbed (p : ι) (c : Tasks ι) : Move ι Action ℕ → Prop
  | .proc q .die => (c.loc p).phase.live = true ∧ q ≠ p
  | .proc q .record => (c.loc p).phase.live = true ∧ q = p
  | _ => (c.loc p).phase.live = true

instance (p : ι) (c : Tasks ι) : (m : Move ι Action ℕ) → Decidable (Undisturbed p c m)
  | .proc q .die => inferInstanceAs (Decidable ((c.loc p).phase.live = true ∧ q ≠ p))
  | .proc q .record => inferInstanceAs (Decidable ((c.loc p).phase.live = true ∧ q = p))
  | .proc _ (.load _) | .proc _ .capture | .proc _ .claim | .proc _ (.send _) | .proc _ (.notify _)
  | .proc _ .retry | .proc _ .redeliver | .env _ =>
    inferInstanceAs (Decidable ((c.loc p).phase.live = true))

theorem ownMoves_concat_own (p : ι) (ms : List (Move ι Action ℕ)) (a : Action) :
    ownMoves p (ms ++ [.proc p a]) = ownMoves p ms ++ [a] := by
  simp [ownMoves]

theorem ownMoves_concat_other {p q : ι} (hq : q ≠ p) (ms : List (Move ι Action ℕ)) (a : Action) :
    ownMoves p (ms ++ [.proc q a]) = ownMoves p ms := by
  simp [ownMoves, hq]

theorem ownMoves_concat_env (p : ι) (ms : List (Move ι Action ℕ)) (e : ℕ) :
    ownMoves p (ms ++ [.env e]) = ownMoves p ms := by
  simp [ownMoves]

omit [DecidableEq ι] in
theorem Undisturbed.live {p : ι} {c : Tasks ι} {m : Move ι Action ℕ} (h : Undisturbed p c m) :
    (c.loc p).phase.live = true := by
  unfold Undisturbed at h
  split at h
  · exact h.1
  · exact h.1
  · exact h

end Schedules

/-! ### What is recorded -/

/-- The text of a failure is never empty. -/
theorem failure_ne_nil (e : DeliveryError) : failure e ≠ [] := by
  have htimeout : "timeout".toList ≠ [] := by decide
  have hconnection : "connection failed".toList ≠ [] := by decide
  have hmail : "mail server unavailable".toList ≠ [] := by decide
  have hinternal : "internal error".toList ≠ [] := by decide
  have hanswered : "receiver answered ".toList ≠ [] := by decide
  cases e with
  | retryable status => exact List.append_ne_nil_of_left_ne_nil hanswered _
  | httpTimeout | deadlineExceeded | osTimeout => exact htimeout
  | httpError | osError => exact hconnection
  | recipientsRefused _ | dataError _ | smtpError => exact hmail
  | inFlight | unsafeUrl _ | other => exact hinternal

theorem cutError_ne_none {error : Text} (h : error ≠ []) : cutError (some error) ≠ none := by
  obtain ⟨c, s, rfl⟩ := List.exists_cons_of_ne_nil h
  exact Option.some_ne_none _

theorem success_iff {answer : Except DeliveryError Int} :
    success answer = true ↔ ∃ status, answer = .ok status ∧ 200 ≤ status ∧ status < 300 := by
  cases answer with
  | ok status => simp [success, okStatus]
  | error e => simp [success]

/-- A success is recorded without an error, a failure with one. -/
theorem conclude_error (sub : Subscription) (answer : Except DeliveryError Int) :
    cutError (conclude sub answer).1.error = none ↔ success answer = true := by
  have hanswered : "receiver answered ".toList ≠ [] := by decide
  have hblocked : "blocked: ".toList ≠ [] := by decide
  cases answer with
  | ok status =>
    show cutError (if okStatus status then none else some _) = none ↔ okStatus status = true
    cases hok : okStatus status with
    | true => exact iff_of_true rfl rfl
    | false =>
      refine iff_of_false ?_ Bool.false_ne_true
      exact cutError_ne_none (List.append_ne_nil_of_left_ne_nil hanswered _)
  | error e =>
    refine iff_of_false ?_ Bool.false_ne_true
    cases e with
    | unsafeUrl m => exact cutError_ne_none (List.append_ne_nil_of_left_ne_nil hblocked _)
    | _ => exact cutError_ne_none (failure_ne_nil _)

/-- The call raises what the sender raised, but for an `UnsafeURLError`. -/
theorem conclude_raises (sub : Subscription) (answer : Except DeliveryError Int)
    (e : DeliveryError) :
    (conclude sub answer).2.phase = .raised e ↔ answer = .error e ∧ ∀ m, e ≠ .unsafeUrl m := by
  cases answer with
  | ok status =>
    refine iff_of_false ?_ fun h => absurd h.1 (by simp)
    show (if okStatus status && sub.interval = .instant then Ending.notifies status
      else .returns _).phase ≠ _
    split <;> exact fun h => Phase.noConfusion h
  | error e' =>
    cases e' with
    | unsafeUrl m =>
      refine iff_of_false (fun h => Phase.noConfusion h) ?_
      rintro ⟨heq, h⟩
      exact h m (Except.error.inj heq).symm
    | _ =>
      constructor
      · intro h
        rw [← Phase.raised.inj h]
        exact ⟨rfl, fun m hm => DeliveryError.noConfusion hm⟩
      · rintro ⟨h, -⟩
        rw [← Except.error.inj h]
        rfl

/-- Behind its record a call goes on only to note a success. -/
theorem conclude_live {sub : Subscription} {answer : Except DeliveryError Int}
    (h : (conclude sub answer).2.phase.live = true) :
    success answer = true ∧ ∃ status, (conclude sub answer).2.phase = .notify status := by
  cases answer with
  | ok status =>
    have hending : (conclude sub (.ok status)).2 =
        if okStatus status && sub.interval = .instant then Ending.notifies status
        else .returns (.answered status (okStatus status)) := rfl
    rw [hending] at h ⊢
    split at h
    · next hboth =>
      rw [if_pos hboth]
      exact ⟨(Bool.and_eq_true _ _ ▸ hboth).1, status, rfl⟩
    · exact absurd h Bool.false_ne_true
  | error e => cases e <;> exact absurd h Bool.false_ne_true

/-! ### The account -/

/-- What the log row and the phase say about an attempt, made on a row with so many
attempts: the lease is gone, the attempt counts, and it succeeded if the answer was a
status in 200..299; only then there is no error, and the call raises what the sender
raised, but for an `UnsafeURLError`. -/
structure Account (answer : Option (Except DeliveryError Int)) (attempts : ℕ) (phase : Phase)
    (row : LogRow) : Prop where
  released : row.leasedUntil = none
  attempts : row.attempts = attempts + 1
  succeeded : row.succeeded = true ↔
    ∃ status, answer = some (.ok status) ∧ 200 ≤ status ∧ status < 300
  error : row.error = none ↔ row.succeeded = true
  raised : ∀ e, phase = .raised e ↔ answer = some (.error e) ∧ ∀ m, e ≠ .unsafeUrl m

/-- The row of a pair that is not delivered. -/
structure Open (attempts : ℕ) (row : LogRow) : Prop where
  succeeded : row.succeeded = false
  attempts : row.attempts = attempts

/-- The row after a record. -/
def LogRow.recorded (row : LogRow) (a : Attempt) (clock : Time) : LogRow where
  deliveredAt := clock
  succeeded := a.succeeded
  attempts := row.attempts + 1
  httpStatus := a.httpStatus
  error := cutError a.error
  leasedUntil := none

theorem Open.record {attempts : ℕ} {row : LogRow} (h : Open attempts row) (a : Attempt)
    (clock : Time) : record a clock (some row) = some (row.recorded a clock) := by
  show some (if row.succeeded then row else row.recorded a clock) = _
  rw [if_neg (by rw [h.succeeded]; exact Bool.false_ne_true)]

theorem Open.leaseFrom {attempts : ℕ} {row : LogRow} (h : Open attempts row) (now : Time) :
    Open attempts (row.leaseFrom now) := ⟨h.succeeded, h.attempts⟩

/-- The account of an answer. -/
theorem Open.account_answer {attempts : ℕ} {row : LogRow} (h : Open attempts row)
    (sub : Subscription) (answer : Except DeliveryError Int) (clock : Time) :
    Account (some answer) attempts (conclude sub answer).2.phase
      (row.recorded (conclude sub answer).1 clock) where
  released := rfl
  attempts := congrArg (· + 1) h.attempts
  succeeded := by
    show (conclude sub answer).1.succeeded = true ↔ _
    rw [conclude_succeeded, success_iff]
    simp only [Option.some.injEq]
  error := by
    show cutError (conclude sub answer).1.error = none ↔ (conclude sub answer).1.succeeded = true
    rw [conclude_error, conclude_succeeded]
  raised e := by
    rw [conclude_raises]
    simp only [Option.some.injEq]

/-- The account of a call that had nothing to send, or nowhere to send it. -/
theorem Open.account_unsent {attempts : ℕ} {row : LogRow} (h : Open attempts row) {why : Text}
    (hwhy : why ≠ []) (result : Result) (clock : Time) :
    Account none attempts (.finished result) (row.recorded ⟨false, none, some why⟩ clock) where
  released := rfl
  attempts := congrArg (· + 1) h.attempts
  succeeded := by
    refine iff_of_false Bool.false_ne_true ?_
    rintro ⟨_, hnone, _⟩
    exact absurd hnone (by simp)
  error := iff_of_false (cutError_ne_none hwhy) Bool.false_ne_true
  raised e := by
    refine iff_of_false (fun h => Phase.noConfusion h) ?_
    rintro ⟨hnone, _⟩
    exact absurd hnone (by simp)

/-! ### How far the call has come -/

/-- The call has a receiver. -/
def Sends (sub : Subscription) : Prop := channel sub = .webhook ∨ channel sub = .email

/-- How far a claimed call has come, with the steps it took and the row of its pair:
it is about to send or to record, and the pair is not delivered; or it has recorded,
and the account is in order. -/
inductive Stage (sub : Subscription) (attempts : ℕ) : List Action → Phase → LogRow → Prop
  | sending {now row} (hsends : Sends sub) (hopen : Open attempts row) :
      Stage sub attempts [] (.send sub now) row
  | sent {now row receiver answer} (hsends : Sends sub)
      (hanswer : observe sub receiver = some answer) (hopen : Open attempts row) :
      Stage sub attempts [.send receiver]
        (.record now (conclude sub answer).1 (some answer) (conclude sub answer).2) row
  | unsent {now row why result} (hsends : ¬ Sends sub) (hwhy : why ≠ [])
      (hopen : Open attempts row) :
      Stage sub attempts [] (.record now ⟨false, none, some why⟩ none (.returns result)) row
  | noting {moves status row} (hlen : moves.length ≤ 2)
      (hsends : observed sub moves = none ↔ ¬ Sends sub) (hdone : row.succeeded = true)
      (haccount : Account (observed sub moves) attempts (.notify status) row) :
      Stage sub attempts moves (.notify status) row
  | ended {moves phase row} (hlen : moves.length ≤ 3)
      (hsends : observed sub moves = none ↔ ¬ Sends sub) (hlive : phase.live = false)
      (haccount : Account (observed sub moves) attempts phase row) :
      Stage sub attempts moves phase row

variable {sub : Subscription} {attempts : ℕ} {moves : List Action} {phase : Phase} {row : LogRow}

/-- The phase behind the claim. -/
theorem Stage.claimed (hopen : Open attempts row) (now : Time) :
    Stage sub attempts [] (afterClaim sub now) row := by
  unfold afterClaim
  cases hchannel : channel sub with
  | webhook => exact .sending (.inl hchannel) hopen
  | email => exact .sending (.inr hchannel) hopen
  | noSecret =>
    refine .unsent ?_ (by decide) hopen
    simp [Sends, hchannel]
  | noTarget =>
    refine .unsent ?_ (by decide) hopen
    simp [Sends, hchannel]

/-- Another call that claims the pair takes over the lease and nothing else. -/
theorem Stage.leaseFrom (h : Stage sub attempts moves phase row) (hlive : phase.live = true)
    (hopen : row.succeeded = false) (now : Time) :
    Stage sub attempts moves phase (row.leaseFrom now) := by
  cases h with
  | sending hsends hrow => exact .sending hsends (hrow.leaseFrom now)
  | sent hsends hanswer hrow => exact .sent hsends hanswer (hrow.leaseFrom now)
  | unsent hsends hwhy hrow => exact .unsent hsends hwhy (hrow.leaseFrom now)
  | noting hlen hsends hdone =>
    rw [hopen] at hdone
    exact absurd hdone Bool.false_ne_true
  | ended hlen hsends hend =>
    rw [hlive] at hend
    exact absurd hend.symm Bool.false_ne_true

theorem Stage.length_le (h : Stage sub attempts moves phase row) : moves.length ≤ 3 := by
  cases h with
  | sending => exact Nat.zero_le 3
  | sent => exact Nat.succ_le_succ (Nat.zero_le 2)
  | unsent => exact Nat.zero_le 3
  | noting hlen => exact Nat.le_succ_of_le hlen
  | ended hlen => exact hlen

/-- A call that has come to its end has recorded. -/
theorem Stage.at_end (h : Stage sub attempts moves phase row) (hend : phase.live = false) :
    (observed sub moves = none ↔ ¬ Sends sub) ∧ Account (observed sub moves) attempts phase row := by
  cases h with
  | sending | sent | unsent | noting => exact absurd hend.symm Bool.false_ne_true
  | ended _ hsends _ haccount => exact ⟨hsends, haccount⟩

/-! ### Steps -/

section Steps

variable {t t' : Task} {w w' : World} {a : Action}

/-- A task that is about to send does so, unless it dies. -/
theorem Effect.of_send {now : Time} (h : Effect a t w t' w') (hphase : t.phase = .send sub now)
    (hdie : a ≠ .die) : ∃ receiver answer, a = .send receiver ∧
      observe sub receiver = some answer ∧ w'.log = w.log ∧
      t'.phase = .record now (conclude sub answer).1 (some answer) (conclude sub answer).2 := by
  cases h with
  | sent sub' now' receiver answer hp hanswer =>
    rw [hphase] at hp
    cases hp
    exact ⟨receiver, answer, rfl, hanswer, rfl, rfl⟩
  | died => exact absurd rfl hdie
  | gone hp | loaded _ hp | captured _ hp | taken _ _ hp | delivered _ _ _ hp | inFlight _ _ hp
  | recorded _ _ _ _ hp | notified _ _ hp | retried _ hp | redelivered hp =>
    rw [hphase] at hp
    cases hp

/-- A task that is about to record does so, unless it dies. -/
theorem Effect.of_record {now : Time} {attempt : Attempt}
    {sent : Option (Except DeliveryError Int)} {ending : Ending} (h : Effect a t w t' w')
    (hphase : t.phase = .record now attempt sent ending) (hdie : a ≠ .die) :
    a = .record ∧ w'.log = record attempt w.clock w.log ∧ t'.phase = ending.phase := by
  cases h with
  | recorded now' attempt' sent' ending' hp =>
    rw [hphase] at hp
    cases hp
    exact ⟨rfl, rfl, rfl⟩
  | died => exact absurd rfl hdie
  | gone hp | loaded _ hp | captured _ hp | taken _ _ hp | delivered _ _ _ hp | inFlight _ _ hp
  | sent _ _ _ _ hp | notified _ _ hp | retried _ hp | redelivered hp =>
    rw [hphase] at hp
    cases hp

/-- A task that is about to note a success does so, unless it dies. -/
theorem Effect.of_notify {status : Int} (h : Effect a t w t' w')
    (hphase : t.phase = .notify status) (hdie : a ≠ .die) :
    ∃ instant, a = .notify instant ∧ w'.log = w.log ∧
      t'.phase = .finished (.answered status true) := by
  cases h with
  | notified instant status' hp =>
    rw [hphase] at hp
    cases hp
    exact ⟨instant, rfl, rfl, rfl⟩
  | died => exact absurd rfl hdie
  | gone hp | loaded _ hp | captured _ hp | taken _ _ hp | delivered _ _ _ hp | inFlight _ _ hp
  | sent _ _ _ _ hp | recorded _ _ _ _ hp | retried _ hp | redelivered hp =>
    rw [hphase] at hp
    cases hp

/-- What another call does to the row, if it does not record. -/
theorem Effect.log_of_other (h : Effect a t w t' w') (hrecord : a ≠ .record)
    (hlog : w.log = some row) :
    w'.log = some row ∨ row.succeeded = false ∧ ∃ now, w'.log = some (row.leaseFrom now) := by
  cases h with
  | taken sub now hphase hopen =>
    rw [hlog] at hopen ⊢
    exact .inr ⟨hopen, now, rfl⟩
  | recorded => exact absurd rfl hrecord
  | gone | loaded | captured | delivered | inFlight | sent | notified | retried | died
  | redelivered => exact .inl hlog

/-- **A step of the call itself** brings it to its next stage. -/
theorem Stage.own (h : Stage sub attempts moves phase row) (hphase : t.phase = phase)
    (hlog : w.log = some row) (he : Effect a t w t' w') (hlive : phase.live = true)
    (hdie : a ≠ .die) :
    ∃ row', w'.log = some row' ∧ Stage sub attempts (moves ++ [a]) t'.phase row' := by
  cases h with
  | sending hsends hopen =>
    obtain ⟨receiver, answer, rfl, hanswer, hlog', hphase'⟩ := he.of_send hphase hdie
    rw [hlog', hphase']
    exact ⟨row, hlog, .sent hsends hanswer hopen⟩
  | @sent _ _ receiver answer hsends hanswer hopen =>
    obtain ⟨rfl, hlog', hphase'⟩ := he.of_record hphase hdie
    have hobserved : observed sub ([.send receiver] ++ [.record]) = some answer := by
      simp [observed, hanswer]
    have haccount := hopen.account_answer sub answer w.clock
    rw [hlog', hlog, hopen.record, hphase']
    refine ⟨_, rfl, ?_⟩
    -- a success of an instant subscription is noted before the call ends
    by_cases hnotes : (conclude sub answer).2.phase.live = true
    · obtain ⟨hok, status, hstatus⟩ := conclude_live hnotes
      rw [hstatus] at haccount ⊢
      refine .noting (Nat.le_refl 2) ?_ ?_ (hobserved ▸ haccount)
      · rw [hobserved]
        exact iff_of_false (by simp) (not_not.mpr hsends)
      · exact (conclude_succeeded sub answer).trans hok
    · refine .ended (Nat.le_succ 2) ?_ (Bool.not_eq_true _ ▸ hnotes) (hobserved ▸ haccount)
      rw [hobserved]
      exact iff_of_false (by simp) (not_not.mpr hsends)
  | @unsent _ _ why result hsends hwhy hopen =>
    obtain ⟨rfl, hlog', hphase'⟩ := he.of_record hphase hdie
    rw [hlog', hlog, hopen.record, hphase']
    exact ⟨_, rfl, .ended (by decide) (iff_of_true rfl hsends) rfl
      (hopen.account_unsent hwhy result w.clock)⟩
  | @noting _ status _ hlen hsends hdone haccount =>
    obtain ⟨instant, rfl, hlog', hphase'⟩ := he.of_notify hphase hdie
    have hobserved : observed sub (moves ++ [.notify instant]) = observed sub moves := by
      simp [observed]
    rw [hlog', hphase']
    refine ⟨row, hlog, .ended ?_ (hobserved ▸ hsends) rfl ?_⟩
    · rw [List.length_append]
      exact Nat.add_le_add_right hlen 1
    · rw [hobserved]
      refine ⟨haccount.released, haccount.attempts, haccount.succeeded, haccount.error, fun e => ?_⟩
      rw [← haccount.raised e]
      exact iff_of_false (fun h => Phase.noConfusion h) fun h => Phase.noConfusion h
  | ended hlen hsends hend =>
    rw [hlive] at hend
    exact absurd hend.symm Bool.false_ne_true

end Steps

/-! ### Runs -/

section Run

variable {ι : Type*} [DecidableEq ι] {p : ι} {c c' c₀ c₁ c₂ : Tasks ι}

/-- The call has come to a stage, after the moves of a schedule. -/
def AtStage (sub : Subscription) (attempts : ℕ) (p : ι) (ms : List (Move ι Action ℕ))
    (c : Tasks ι) : Prop :=
  ∃ row, c.shared.log = some row ∧ Stage sub attempts (ownMoves p ms) (c.loc p).phase row

/-- Every move of an undisturbed run, of whatever task, keeps the call at a stage. -/
theorem AtStage.move {ms : List (Move ι Action ℕ)} {m : Move ι Action ℕ}
    (h : AtStage sub attempts p ms c) (hok : Undisturbed p c m) (hnext : next m c = some c') :
    AtStage sub attempts p (ms ++ [m]) c' := by
  obtain ⟨row, hlog, hstage⟩ := h
  have hlive := hok.live
  cases m with
  | env e =>
    obtain ⟨w, hw, rfl⟩ := Config.next_env.mp hnext
    cases hw
    rw [AtStage, ownMoves_concat_env]
    exact ⟨row, hlog, hstage⟩
  | proc q a =>
    obtain ⟨t, w, hstep, rfl⟩ := Config.next_proc.mp hnext
    have he := step_effect hstep
    by_cases hq : q = p
    · subst hq
      have hdie : a ≠ .die := by
        rintro rfl
        exact hok.2 rfl
      obtain ⟨row', hlog', hstage'⟩ := hstage.own rfl hlog he hlive hdie
      rw [AtStage, ownMoves_concat_own]
      show ∃ row, w.log = some row ∧ Stage sub attempts _ (Function.update c.loc q t q).phase row
      rw [Function.update_self]
      exact ⟨row', hlog', hstage'⟩
    · have hrecord : a ≠ .record := by
        rintro rfl
        exact hq hok.2
      rw [AtStage, ownMoves_concat_other hq]
      show ∃ row, w.log = some row ∧ Stage sub attempts _ (Function.update c.loc q t p).phase row
      rw [Function.update_of_ne (Ne.symm hq)]
      rcases he.log_of_other hrecord hlog with hlog' | ⟨hopen, now, hlog'⟩
      · exact ⟨row, hlog', hstage⟩
      · exact ⟨row.leaseFrom now, hlog', hstage.leaseFrom hlive hopen now⟩

theorem AtStage.run {done ms : List (Move ι Action ℕ)} (h : AtStage sub attempts p done c)
    (hok : Along next (Undisturbed p) ms c) (hrun : exec next ms c = some c') :
    AtStage sub attempts p (done ++ ms) c' := by
  induction ms generalizing done c with
  | nil =>
    cases hrun
    rw [List.append_nil]
    exact h
  | cons m ms ih =>
    obtain ⟨c₁, hnext, hrest⟩ := Option.bind_eq_some_iff.mp hrun
    rw [List.append_cons]
    exact ih (h.move hok.1 hnext) (hok.2 c₁ hnext) hrest

theorem claim_taken {now clock : Time} {log : Option LogRow} (h : (claim now clock log).1 = .taken) :
    (getOrCreate clock log).succeeded = false ∧
      claim now clock log = (.taken, some ((getOrCreate clock log).leaseFrom now)) := by
  unfold claim at h ⊢
  dsimp only at h ⊢
  cases hdone : (getOrCreate clock log).succeeded with
  | true =>
    rw [hdone, if_pos rfl] at h
    exact ClaimResult.noConfusion h
  | false =>
    refine ⟨rfl, ?_⟩
    rw [hdone, if_neg Bool.false_ne_true] at h
    rw [if_neg Bool.false_ne_true]
    cases hlease : (getOrCreate clock log).leasedUntil with
    | none => rfl
    | some until_ =>
      simp only [hlease] at h ⊢
      by_cases hnow : now < until_
      · rw [if_pos hnow] at h
        exact ClaimResult.noConfusion h
      · rw [if_neg hnow]

/-- A claim that was taken leaves an open row, and the call at its first stage. -/
theorem atStage_of_claim {now : Time} (hphase : (c₀.loc p).phase = .claim sub now)
    (hclaim : (claim now c₀.shared.clock c₀.shared.log).1 = .taken)
    (hnext : next (.proc p .claim) c₀ = some c₁) :
    AtStage sub (getOrCreate c₀.shared.clock c₀.shared.log).attempts p [] c₁ := by
  obtain ⟨t, w, hstep, rfl⟩ := Config.next_proc.mp hnext
  obtain ⟨hopen, htaken⟩ := claim_taken hclaim
  simp only [step, hphase, htaken] at hstep
  obtain ⟨rfl, rfl⟩ := Prod.mk.inj (Option.some.inj hstep)
  refine ⟨_, rfl, ?_⟩
  show Stage sub _ [] (Function.update c₀.loc p _ p).phase _
  rw [Function.update_self]
  exact .claimed (Open.leaseFrom ⟨hopen, rfl⟩ now) now

theorem exists_next {a : Action} (h : (step a (c.loc p) c.shared).isSome) :
    ∃ c', next (.proc p a) c = some c' := by
  obtain ⟨r, hr⟩ := Option.isSome_iff_exists.mp h
  exact ⟨_, Config.next_proc.mpr ⟨r.1, r.2, hr, rfl⟩⟩

/-- While the call is under way it can take a step, whatever its receiver does. -/
theorem AtStage.goes_on {ms : List (Move ι Action ℕ)} (h : AtStage sub attempts p ms c)
    (hlive : (c.loc p).phase.live = true) (receiver : Receiver)
    (hreceiver : Sends sub → observe sub receiver ≠ none) :
    ∃ a c', (a = .send receiver ∨ a = .record ∨ ∃ instant, a = .notify instant) ∧
      next (.proc p a) c = some c' := by
  obtain ⟨row, _, hstage⟩ := h
  generalize hphase : (c.loc p).phase = phase at hstage hlive
  generalize ownMoves p ms = moves at hstage
  cases hstage with
  | sending hsends =>
    obtain ⟨answer, hanswer⟩ := Option.ne_none_iff_exists'.mp (hreceiver hsends)
    obtain ⟨c', hc'⟩ := exists_next (c := c) (p := p) (a := .send receiver)
      (by simp [step, hphase, hanswer])
    exact ⟨_, c', .inl rfl, hc'⟩
  | sent | unsent =>
    obtain ⟨c', hc'⟩ := exists_next (c := c) (p := p) (a := .record) (by simp [step, hphase])
    exact ⟨_, c', .inr (.inl rfl), hc'⟩
  | noting =>
    obtain ⟨c', hc'⟩ := exists_next (c := c) (p := p) (a := .notify true)
      (by simp [step, hphase])
    exact ⟨_, c', .inr (.inr ⟨true, rfl⟩), hc'⟩
  | ended _ _ hend =>
    rw [hlive] at hend
    exact absurd hend.symm Bool.false_ne_true

/-- **Every claimed attempt is accounted for.**  From a successful `_claim` on, in any
interleaving in which the worker lives on and nobody else records for the pair: the
call takes at most three steps; while it is under way, the next one is there, whatever
its receiver does; and at its end the log row and the outcome are the account of what
the send observed, which is nothing exactly if the subscription has no receiver. -/
theorem claimed_attempt_accounted {now : Time} (hphase : (c₀.loc p).phase = .claim sub now)
    (hclaim : (claim now c₀.shared.clock c₀.shared.log).1 = .taken)
    (hnext : next (.proc p .claim) c₀ = some c₁) {ms : List (Move ι Action ℕ)}
    (hrun : exec next ms c₁ = some c₂) (hok : Along next (Undisturbed p) ms c₁) :
    (ownMoves p ms).length ≤ 3 ∧
    ((c₂.loc p).phase.live = true → ∀ receiver, (Sends sub → observe sub receiver ≠ none) →
      ∃ a c₃, (a = .send receiver ∨ a = .record ∨ ∃ instant, a = .notify instant) ∧
        next (.proc p a) c₂ = some c₃) ∧
    ((c₂.loc p).phase.live = false →
      (observed sub (ownMoves p ms) = none ↔ ¬ Sends sub) ∧
      ∃ row, c₂.shared.log = some row ∧
        Account (observed sub (ownMoves p ms))
          (getOrCreate c₀.shared.clock c₀.shared.log).attempts (c₂.loc p).phase row) := by
  have hat : AtStage sub _ p ms c₂ := (atStage_of_claim hphase hclaim hnext).run hok hrun
  refine ⟨?_, hat.goes_on, fun hend => ?_⟩
  · obtain ⟨row, _, hstage⟩ := hat
    exact hstage.length_le
  · obtain ⟨row, hlog, hstage⟩ := hat
    obtain ⟨hsends, haccount⟩ := hstage.at_end hend
    exact ⟨hsends, row, hlog, haccount⟩

end Run

/-! ### A call and another one -/

/-- Two tasks that are about to claim the pair. -/
def twoClaims : Tasks Bool := ⟨⟨0, none, none, []⟩, fun _ => ⟨.claim hook 0, 0⟩⟩

/-- The first one has claimed it. -/
def firstClaimed : Tasks Bool :=
  ⟨⟨0, some ⟨0, false, 0, none, none, some lease⟩, none, []⟩,
    Function.update twoClaims.loc false ⟨.send hook 0, 0⟩⟩

/-- It sends, the other one meets its lease, and it records and notes the success. -/
def firstDelivers : List (Move Bool Action ℕ) :=
  [.proc false (.send (.webhook (.ok 204))), .env 5, .proc true .claim, .proc false .record,
    .proc false (.notify true)]

theorem claimed_attempt_accounted_hook : ∃ c, exec next firstDelivers firstClaimed = some c ∧
    ∃ row, c.shared.log = some row ∧
      Account (some (.ok 204)) 0 (.finished (.answered 204 true)) row := by
  have hrun : ((exec next firstDelivers firstClaimed).map fun c => (c.loc false).phase) =
      some (.finished (.answered 204 true)) := by
    decide
  obtain ⟨c, hc, hphase⟩ := Option.map_eq_some_iff.mp hrun
  have hclaim : next (.proc false .claim) twoClaims = some firstClaimed := rfl
  have hmain := claimed_attempt_accounted rfl (by decide) hclaim hc (by decide)
  obtain ⟨row, hlog, haccount⟩ := (hmain.2.2 (by rw [hphase]; rfl)).2
  rw [hphase] at haccount
  exact ⟨c, hc, row, hlog, haccount⟩

end Deliver
