/-
The `deliver` task (`tasks/notifications.py`).

Any number of tasks deliver one article to one subscription.  They share the
log row of the pair, with its lease, and a clock.

* `sendWebhook`, `sendEmail`, `failure`, `autoretry` — what an answer or an
  exception of the receiver becomes;
* `claim`, `record` — the two writes of the log row;
* `Phase`, `step` — a task from its start to its end, with the retries of
  `autoretry_for`, killed workers and redelivery;
* `Effect`, `step_effect` — what each step does, said once.

`World.answers` is a ghost: what every send observed, the newest first.
-/
import Newsforge.Runs
import Newsforge.Subscription

open PyText Tables Runs

namespace Deliver

open Subscriptions Targets

/-! ### Exceptions and answers -/

/-- What a delivery attempt can raise. -/
inductive DeliveryError
  | retryable (status : Int)
  | inFlight
  | unsafeUrl (message : Text)
  /-- `httpx.TimeoutException` -/
  | httpTimeout
  /-- any other `httpx.HTTPError` -/
  | httpError
  /-- `safe_http.DeadlineExceededError` -/
  | deadlineExceeded
  | recipientsRefused (codes : List Int)
  | dataError (code : Int)
  /-- any other `smtplib.SMTPException` -/
  | smtpError
  /-- `TimeoutError` -/
  | osTimeout
  /-- any other `OSError` -/
  | osError
  | other
  deriving DecidableEq, Repr

/-- `_failure`. -/
def failure : DeliveryError → Text
  | .retryable status => "receiver answered ".toList ++ intStr status
  | .httpTimeout | .deadlineExceeded | .osTimeout => "timeout".toList
  | .httpError | .osError => "connection failed".toList
  | .recipientsRefused _ | .dataError _ | .smtpError => "mail server unavailable".toList
  | .inFlight | .unsafeUrl _ | .other => "internal error".toList

/-- The exceptions of `autoretry_for`. -/
def autoretry : DeliveryError → Bool
  | .unsafeUrl _ | .other => false
  | _ => true

/-- `max_retries`. -/
def maxRetries : ℕ := 5

/-- The answer of a webhook: a status worth retrying is raised. -/
def sendWebhook : Except DeliveryError Int → Except DeliveryError Int
  | .ok status =>
    if 500 ≤ status ∨ status = 408 ∨ status = 429 then .error (.retryable status) else .ok status
  | .error e => .error e

/-- `_send_email`: a refusal that is final is returned as its code. -/
def sendEmail : Except DeliveryError Unit → Except DeliveryError Int
  | .ok () => .ok 250
  | .error (.recipientsRefused codes) =>
    match codes with
    | code :: rest =>
      if (code :: rest).all fun c => 500 ≤ c then .ok code else .error (.recipientsRefused codes)
    | [] => .error (.recipientsRefused codes)
  | .error (.dataError code) => if 500 ≤ code then .ok code else .error (.dataError code)
  | .error e => .error e

/-- `200 <= status < 300`. -/
def okStatus (status : Int) : Bool := 200 ≤ status && status < 300

/-- The attempt observed a success. -/
def success : Except DeliveryError Int → Bool
  | .ok status => okStatus status
  | .error _ => false

/-! ### The log row -/

/-- The row of `subscriptions_deliverylog` for the pair. -/
structure LogRow where
  deliveredAt : Time
  succeeded : Bool
  attempts : ℕ
  httpStatus : Option Int
  error : Option Text
  leasedUntil : Option Time
  deriving DecidableEq, Repr

/-- `LEASE`, two minutes in microseconds. -/
def lease : Time := 120000000

/-- `MAX_ERROR_CHARS`. -/
def maxErrorChars : ℕ := 1000

/-- What `_claim` answers. -/
inductive ClaimResult
  | taken
  | delivered
  | inFlight
  deriving DecidableEq, Repr

/-- `get_or_create` of the log row. -/
def getOrCreate (now : Time) (log : Option LogRow) : LogRow :=
  log.getD ⟨now, false, 0, none, none, none⟩

/-- `update(leased_until=now + LEASE)`. -/
def LogRow.leaseFrom (row : LogRow) (now : Time) : LogRow :=
  { row with leasedUntil := some (now + lease) }

/-- `_claim`: `now` is the time the task captured before, `clock` stamps a row
that is created. -/
def claim (now clock : Time) (log : Option LogRow) : ClaimResult × Option LogRow :=
  let row := getOrCreate clock log
  if row.succeeded then (.delivered, some row)
  else match row.leasedUntil with
    | some until_ =>
      -- raised inside the transaction, which is rolled back
      if now < until_ then (.inFlight, log)
      else (.taken, some (row.leaseFrom now))
    | none => (.taken, some (row.leaseFrom now))

/-- The arguments of `_record`. -/
structure Attempt where
  succeeded : Bool
  httpStatus : Option Int
  error : Option Text
  deriving DecidableEq, Repr

/-- `error[:MAX_ERROR_CHARS] if error else None`. -/
def cutError (error : Option Text) : Option Text :=
  match error with
  | some (c :: s) => some ((c :: s).take maxErrorChars)
  | _ => none

/-- `_record`: a row that succeeded is not changed. -/
def record (a : Attempt) (clock : Time) (log : Option LogRow) : Option LogRow :=
  log.map fun row =>
    if row.succeeded then row
    else
      { deliveredAt := clock
        succeeded := a.succeeded
        attempts := row.attempts + 1
        httpStatus := a.httpStatus
        error := cutError a.error
        leasedUntil := none }

/-! ### Tasks -/

/-- What a task returns. -/
inductive Result
  | gone
  | deduped
  | noSecret
  | noTarget
  | blocked
  | answered (status : Int) (succeeded : Bool)
  deriving DecidableEq, Repr

/-- How a delivery ends, once its attempt is recorded. -/
inductive Ending
  | returns (r : Result)
  /-- an instant subscription also notes when it was last notified -/
  | notifies (status : Int)
  | raises (e : DeliveryError)
  deriving DecidableEq, Repr

/-- What a task does next.  From a successful `_claim` on, `t` is the time the
task captured for it; `sent` is what its send observed, if it sent. -/
inductive Phase
  | load
  | capture (sub : Subscription)
  | claim (sub : Subscription) (t : Time)
  | send (sub : Subscription) (t : Time)
  | record (t : Time) (a : Attempt) (sent : Option (Except DeliveryError Int)) (ending : Ending)
  | notify (status : Int)
  | finished (r : Result)
  | raised (e : DeliveryError)
  | dead
  deriving DecidableEq

/-- A task and how often it was retried. -/
structure Task where
  phase : Phase
  retries : ℕ

def Task.goto (t : Task) (phase : Phase) : Task := { t with phase := phase }

@[simp] theorem Task.goto_phase (t : Task) (phase : Phase) : (t.goto phase).phase = phase := rfl

/-- A worker runs the task. -/
def Phase.live : Phase → Bool
  | .finished _ | .raised _ | .dead => false
  | _ => true

/-- The captured time of a task between a successful `_claim` and its
`_record`. -/
def Phase.lease? : Phase → Option Time
  | .send _ t | .record t _ _ _ => some t
  | _ => none

/-- What the tasks share: the clock, the log row of the pair, and
`last_notified_at` of the subscription. -/
structure World where
  clock : Time
  log : Option LogRow
  lastNotifiedAt : Option Time
  answers : List (Except DeliveryError Int)

/-- What the receiver did with a request or a mail. -/
inductive Receiver
  | webhook (answer : Except DeliveryError Int)
  | mail (answer : Except DeliveryError Unit)

/-- The channel `deliver` uses for a subscription; with neither, nothing is
sent. -/
inductive Channel
  | webhook
  | email
  | noSecret
  | noTarget
  deriving DecidableEq, Repr

/-- The branches of `deliver` on the subscription it loaded. -/
def channel (sub : Subscription) : Channel :=
  if sub.delivery = .webhook ∧ SafeHttp.truthy sub.webhookUrl then
    if SafeHttp.truthy sub.webhookSecret then .webhook else .noSecret
  else if sub.delivery = .email ∧ SafeHttp.truthy sub.emailTo then .email
  else .noTarget

/-- What the send of a subscription observes. -/
def observe (sub : Subscription) : Receiver → Option (Except DeliveryError Int)
  | .webhook answer => if channel sub = .webhook then some (sendWebhook answer) else none
  | .mail answer => if channel sub = .email then some (sendEmail answer) else none

/-- What is recorded after a send, and how the task ends then. -/
def conclude (sub : Subscription) : Except DeliveryError Int → Attempt × Ending
  | .ok status =>
    let ok := okStatus status
    (⟨ok, some status, if ok then none else some ("receiver answered ".toList ++ intStr status)⟩,
      if ok && sub.interval = .instant then .notifies status else .returns (.answered status ok))
  | .error (.unsafeUrl m) => (⟨false, none, some ("blocked: ".toList ++ m)⟩, .returns .blocked)
  | .error e =>
    (⟨false, match e with
        | .retryable status => some status
        | _ => none, some (failure e)⟩, .raises e)

/-- The phase behind a successful claim. -/
def afterClaim (sub : Subscription) (t : Time) : Phase :=
  match channel sub with
  | .webhook | .email => .send sub t
  | .noSecret => .record t ⟨false, none, some "no secret".toList⟩ none (.returns .noSecret)
  | .noTarget => .record t ⟨false, none, some "no target".toList⟩ none (.returns .noTarget)

/-- The phase behind `_record`. -/
def Ending.phase : Ending → Phase
  | .returns r => .finished r
  | .notifies status => .notify status
  | .raises e => .raised e

/-- The steps of a task.  `load` brings what the two queries found; `notify`
says whether the subscription still is an instant one. -/
inductive Action
  | load (found : Option Subscription)
  | capture
  | claim
  | send (receiver : Receiver)
  | record
  | notify (instant : Bool)
  | retry
  | die
  | redeliver

/-- One atomic step of `deliver`. -/
def step (a : Action) (t : Task) (w : World) : Option (Task × World) :=
  match a, t.phase with
  | .load none, .load => some (t.goto (.finished .gone), w)
  | .load (some sub), .load => some (t.goto (.capture sub), w)
  | .capture, .capture sub => some (t.goto (.claim sub w.clock), w)
  | .claim, .claim sub now =>
    -- one transaction on the locked log row
    match Deliver.claim now w.clock w.log with
    | (.taken, log) => some (t.goto (afterClaim sub now), { w with log := log })
    | (.delivered, log) => some (t.goto (.finished .deduped), { w with log := log })
    | (.inFlight, log) => some (t.goto (.raised .inFlight), { w with log := log })
  | .send receiver, .send sub now =>
    (observe sub receiver).map fun answer =>
      (t.goto (.record now (conclude sub answer).1 (some answer) (conclude sub answer).2),
        { w with answers := answer :: w.answers })
  | .record, .record _ attempt _ ending =>
    some (t.goto ending.phase, { w with log := Deliver.record attempt w.clock w.log })
  | .notify instant, .notify status =>
    some (t.goto (.finished (.answered status true)),
      { w with lastNotifiedAt := if instant then some w.clock else w.lastNotifiedAt })
  | .retry, .raised e =>
    -- the message goes back with its countdown
    if autoretry e && t.retries < maxRetries then some (⟨.load, t.retries + 1⟩, w) else none
  | .die, phase => if phase.live then some (t.goto .dead, w) else none
  | .redeliver, .dead => some (t.goto .load, w)
  | _, _ => none

/-- Time passes. -/
def env (elapsed : ℕ) (w : World) : Option World := some { w with clock := w.clock + elapsed }

abbrev Tasks (ι : Type*) := Config ι World Task

/-- The interleavings of the tasks with the clock. -/
def next {ι : Type*} [DecidableEq ι] : Move ι Action ℕ → Tasks ι → Option (Tasks ι) :=
  Config.next step env

/-! ### What a step does -/

/-- What each step of a task does to the task and to the world. -/
inductive Effect : Action → Task → World → Task → World → Prop
  | gone {t w} (hphase : t.phase = .load) :
      Effect (.load none) t w (t.goto (.finished .gone)) w
  | loaded {t w} (sub : Subscription) (hphase : t.phase = .load) :
      Effect (.load (some sub)) t w (t.goto (.capture sub)) w
  | captured {t w} (sub : Subscription) (hphase : t.phase = .capture sub) :
      Effect .capture t w (t.goto (.claim sub w.clock)) w
  | taken {t w} (sub : Subscription) (now : Time) (hphase : t.phase = .claim sub now)
      (hopen : (getOrCreate w.clock w.log).succeeded = false)
      (hfree : ∀ until_, (getOrCreate w.clock w.log).leasedUntil = some until_ → until_ ≤ now) :
      Effect .claim t w (t.goto (afterClaim sub now))
        { w with log := some ((getOrCreate w.clock w.log).leaseFrom now) }
  | delivered {t w} (sub : Subscription) (now : Time) (row : LogRow)
      (hphase : t.phase = .claim sub now) (hlog : w.log = some row) (hdone : row.succeeded = true) :
      Effect .claim t w (t.goto (.finished .deduped)) w
  | inFlight {t w} (sub : Subscription) (now : Time) (hphase : t.phase = .claim sub now) :
      Effect .claim t w (t.goto (.raised .inFlight)) w
  | sent {t w} (sub : Subscription) (now : Time) (receiver : Receiver)
      (answer : Except DeliveryError Int) (hphase : t.phase = .send sub now)
      (hanswer : observe sub receiver = some answer) :
      Effect (.send receiver) t w
        (t.goto (.record now (conclude sub answer).1 (some answer) (conclude sub answer).2))
        { w with answers := answer :: w.answers }
  | recorded {t w} (now : Time) (a : Attempt) (sent : Option (Except DeliveryError Int))
      (ending : Ending) (hphase : t.phase = .record now a sent ending) :
      Effect .record t w (t.goto ending.phase) { w with log := record a w.clock w.log }
  | notified {t w} (instant : Bool) (status : Int) (hphase : t.phase = .notify status) :
      Effect (.notify instant) t w (t.goto (.finished (.answered status true)))
        { w with lastNotifiedAt := if instant then some w.clock else w.lastNotifiedAt }
  | retried {t w} (e : DeliveryError) (hphase : t.phase = .raised e) :
      Effect .retry t w ⟨.load, t.retries + 1⟩ w
  | died {t w} (hlive : t.phase.live = true) : Effect .die t w (t.goto .dead) w
  | redelivered {t w} (hphase : t.phase = .dead) : Effect .redeliver t w (t.goto .load) w

theorem getOrCreate_of_succeeded {now : Time} {log : Option LogRow}
    (h : (getOrCreate now log).succeeded = true) : log = some (getOrCreate now log) := by
  cases log with
  | none => cases h
  | some row => rfl

section Inversion

variable {t t' : Task} {w w' : World}

/-- The claim takes the pair, or finds it delivered or leased. -/
theorem claim_effect (h : step .claim t w = some (t', w')) : Effect .claim t w t' w' := by
  cases hphase : t.phase with
  | claim sub now =>
    simp only [step, hphase, claim] at h
    cases hdone : (getOrCreate w.clock w.log).succeeded with
    | true =>
      have hlog := getOrCreate_of_succeeded hdone
      simp only [hdone, if_true] at h
      cases h
      rw [← hlog]
      exact .delivered sub now _ hphase hlog hdone
    | false =>
      simp only [hdone, Bool.false_eq_true, if_false] at h
      cases hlease : (getOrCreate w.clock w.log).leasedUntil with
      | none =>
        simp only [hlease] at h
        cases h
        refine .taken sub now hphase hdone fun u hu => ?_
        rw [hlease] at hu
        cases hu
      | some until_ =>
        simp only [hlease] at h
        by_cases hnow : now < until_
        · simp only [if_pos hnow] at h
          cases h
          exact .inFlight sub now hphase
        · simp only [if_neg hnow] at h
          cases h
          refine .taken sub now hphase hdone fun u hu => ?_
          rw [hlease] at hu
          cases hu
          exact Int.not_lt.mp hnow
  | _ => simp [step, hphase] at h

/-- **Inversion of `step`.** -/
theorem step_effect {a : Action} (h : step a t w = some (t', w')) : Effect a t w t' w' := by
  cases a with
  | load found =>
    cases hphase : t.phase with
    | load =>
      cases found with
      | none =>
        simp only [step, hphase] at h
        cases h
        exact .gone hphase
      | some sub =>
        simp only [step, hphase] at h
        cases h
        exact .loaded sub hphase
    | _ => cases found <;> simp [step, hphase] at h
  | capture =>
    cases hphase : t.phase with
    | capture sub =>
      simp only [step, hphase] at h
      cases h
      exact .captured sub hphase
    | _ => simp [step, hphase] at h
  | claim => exact claim_effect h
  | send receiver =>
    cases hphase : t.phase with
    | send sub now =>
      simp only [step, hphase, Option.map_eq_some_iff] at h
      obtain ⟨answer, hanswer, h⟩ := h
      cases h
      exact .sent sub now receiver answer hphase hanswer
    | _ => simp [step, hphase] at h
  | record =>
    cases hphase : t.phase with
    | record now attempt sent ending =>
      simp only [step, hphase] at h
      cases h
      exact .recorded now attempt sent ending hphase
    | _ => simp [step, hphase] at h
  | notify instant =>
    cases hphase : t.phase with
    | notify status =>
      simp only [step, hphase] at h
      cases h
      exact .notified instant status hphase
    | _ => simp [step, hphase] at h
  | retry =>
    cases hphase : t.phase with
    | raised e =>
      simp only [step, hphase] at h
      split at h
      · cases h
        exact .retried e hphase
      · cases h
    | _ => simp [step, hphase] at h
  | die =>
    by_cases hlive : t.phase.live = true
    · simp only [step, hlive, if_true] at h
      cases h
      exact .died hlive
    · simp [step, hlive] at h
  | redeliver =>
    cases hphase : t.phase with
    | dead =>
      simp only [step, hphase] at h
      cases h
      exact .redelivered hphase
    | _ => simp [step, hphase] at h

end Inversion

end Deliver
