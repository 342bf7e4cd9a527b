/-
The delivery log of all pairs, and why a success is final.

`Newsforge.Deliver` has the tasks of one (subscription, article) pair.  Here any
number of tasks, each with a pair of its own, run on one log, which has at most
one row for each pair.  Nothing is assumed about leases: a task may record long
after its own has run out.

* `LogWorld`, `Job`, `nextJob` — the whole log, and the tasks on it;
* `LogRow.Final` — what the row of a delivered pair looks like;
* `Attempt.Sound` — only an answer in 200..299 is recorded as a success;
* `Effect.keeps_success` — no step changes the row of a delivered pair.

Main result: `success_is_final`.
-/
import Newsforge.DeliveryLease

open Tables Runs

namespace Deliver

/-! ### The whole log -/

/-- A subscription and an article. -/
abbrev Pair := ℕ × ℕ

/-- What all tasks share: the clock, the rows of the log by pair, and
`last_notified_at` by subscription. -/
structure LogWorld where
  clock : Time
  rows : Pair → Option LogRow
  lastNotifiedAt : ℕ → Option Time
  answers : Pair → List (Except DeliveryError Int)

/-- A task with the arguments of its message. -/
structure Job where
  pair : Pair
  task : Task

/-- The part of the world a task of the pair sees. -/
def LogWorld.view (w : LogWorld) (k : Pair) : World :=
  ⟨w.clock, w.rows k, w.lastNotifiedAt k.1, w.answers k⟩

/-- What a task of the pair has written. -/
def LogWorld.write (w : LogWorld) (k : Pair) (v : World) : LogWorld where
  clock := w.clock
  rows := Function.update w.rows k v.log
  lastNotifiedAt := Function.update w.lastNotifiedAt k.1 v.lastNotifiedAt
  answers := Function.update w.answers k v.answers

/-- One atomic step of a task on the log. -/
def stepJob (a : Action) (j : Job) (w : LogWorld) : Option (Job × LogWorld) :=
  (step a j.task (w.view j.pair)).map fun r => (⟨j.pair, r.1⟩, w.write j.pair r.2)

/-- Time passes. -/
def envJob (elapsed : ℕ) (w : LogWorld) : Option LogWorld :=
  some { w with clock := w.clock + elapsed }

abbrev Jobs (ι : Type*) := Config ι LogWorld Job

/-- The interleavings of the tasks of all pairs. -/
def nextJob {ι : Type*} [DecidableEq ι] : Move ι Action ℕ → Jobs ι → Option (Jobs ι) :=
  Config.next stepJob envJob

theorem stepJob_effect {a : Action} {j j' : Job} {w w' : LogWorld}
    (h : stepJob a j w = some (j', w')) :
    ∃ t v, Effect a j.task (w.view j.pair) t v ∧ j' = ⟨j.pair, t⟩ ∧ w' = w.write j.pair v := by
  obtain ⟨⟨t, v⟩, hstep, hr⟩ := Option.map_eq_some_iff.mp h
  cases hr
  exact ⟨t, v, step_effect hstep, rfl, rfl⟩

/-- A row of the log after a write is what was written, or was there before. -/
theorem LogWorld.write_rows (w : LogWorld) (k k' : Pair) (v : World) :
    (w.write k v).rows k' = if k' = k then v.log else w.rows k' := by
  by_cases hk : k' = k
  · subst hk
    rw [if_pos rfl]
    exact Function.update_self ..
  · rw [if_neg hk]
    exact Function.update_of_ne hk ..

/-! ### Successful rows -/

/-- The row of a delivered pair. -/
structure LogRow.Final (row : LogRow) : Prop where
  error : row.error = none
  released : row.leasedUntil = none
  attempts : 1 ≤ row.attempts
  status : ∃ status, row.httpStatus = some status ∧ 200 ≤ status ∧ status < 300

/-- An attempt counts as a success only with a status in 200..299 and no error. -/
def Attempt.Sound (a : Attempt) : Prop :=
  a.succeeded = true →
    a.error = none ∧ ∃ status, a.httpStatus = some status ∧ 200 ≤ status ∧ status < 300

/-- What a task is about to record is sound. -/
def Task.Sound (t : Task) : Prop :=
  ∀ now a sent ending, t.phase = .record now a sent ending → a.Sound

/-- Every row of a delivered pair is final. -/
def FinalLog (log : Option LogRow) : Prop :=
  ∀ row, log = some row → row.succeeded = true → row.Final

theorem conclude_sound (sub : Subscriptions.Subscription) (answer : Except DeliveryError Int) :
    (conclude sub answer).1.Sound := by
  intro hs
  cases answer with
  | ok status =>
    have hok : okStatus status = true := hs
    have hrange := hok
    rw [okStatus, Bool.and_eq_true, decide_eq_true_eq, decide_eq_true_eq] at hrange
    refine ⟨?_, status, rfl, hrange⟩
    show (if okStatus status = true then none else _) = none
    rw [if_pos hok]
  | error e => cases e <;> cases hs

/-- The two attempts that are recorded without a send failed. -/
theorem afterClaim_sound (sub : Subscriptions.Subscription) (t now : Time) (a : Attempt)
    (sent : Option (Except DeliveryError Int)) (ending : Ending)
    (h : afterClaim sub t = .record now a sent ending) : a.Sound := by
  rw [afterClaim] at h
  intro hs
  split at h
  · cases h
  · cases h
  · cases h
    cases hs
  · cases h
    cases hs

theorem Ending.phase_ne_record (e : Ending) (now : Time) (a : Attempt)
    (sent : Option (Except DeliveryError Int)) (ending : Ending) :
    e.phase ≠ .record now a sent ending := by
  intro h
  cases e <;> cases h

/-- What a task is about to record after its step is sound. -/
theorem Effect.sound {a : Action} {t t' : Task} {w w' : World} (h : Effect a t w t' w') :
    t'.Sound := by
  intro now attempt sent ending hphase
  cases h with
  | taken sub now' => exact afterClaim_sound sub now' now attempt sent ending hphase
  | sent sub now' receiver answer =>
    cases hphase
    exact conclude_sound sub answer
  | recorded now' a' sent' ending' =>
    exact absurd hphase (ending'.phase_ne_record now attempt sent ending)
  | gone | loaded | captured | delivered | inFlight | notified | retried | died | redelivered =>
    cases hphase

/-- A sound attempt leaves a final row where it leaves a success. -/
theorem FinalLog.record {log : Option LogRow} (hlog : FinalLog log) {a : Attempt} (ha : a.Sound)
    (clock : Time) : FinalLog (record a clock log) := by
  intro row hrow hs
  obtain ⟨old, hold, rfl⟩ := Option.map_eq_some_iff.mp hrow
  by_cases hdone : old.succeeded = true
  · rw [if_pos hdone]
    exact hlog old hold hdone
  · rw [if_neg hdone] at hs ⊢
    obtain ⟨herror, hstatus⟩ := ha hs
    refine ⟨?_, rfl, Nat.le_add_left 1 _, hstatus⟩
    show cutError a.error = none
    rw [herror]
    rfl

theorem Effect.finalLog {a : Action} {t t' : Task} {w w' : World} (h : Effect a t w t' w')
    (ht : t.Sound) (hlog : FinalLog w.log) : FinalLog w'.log := by
  cases h with
  | taken sub now hphase hopen =>
    -- the row that is leased has not succeeded
    intro row hrow hs
    cases hrow
    rw [show ((getOrCreate w.clock w.log).leaseFrom now).succeeded =
      (getOrCreate w.clock w.log).succeeded from rfl, hopen] at hs
    cases hs
  | recorded now attempt sent ending hphase => exact hlog.record (ht _ _ _ _ hphase) w.clock
  | gone | loaded | captured | delivered | inFlight | sent | notified | retried | died
  | redelivered => exact hlog

/-- No step changes the row of a delivered pair. -/
theorem Effect.keeps_success {a : Action} {t t' : Task} {w w' : World} (h : Effect a t w t' w')
    {row : LogRow} (hrow : w.log = some row) (hs : row.succeeded = true) :
    w'.log = some row := by
  cases h with
  | taken sub now hphase hopen =>
    rw [hrow] at hopen
    exact absurd (hopen.symm.trans hs) Bool.false_ne_true
  | recorded now attempt sent ending =>
    show Option.map _ w.log = some row
    rw [hrow, Option.map_some, if_pos hs]
  | gone | loaded | captured | delivered | inFlight | sent | notified | retried | died
  | redelivered => exact hrow

/-- `_claim` answers `False` for a delivered pair. -/
theorem claim_of_succeeded {log : Option LogRow} {row : LogRow} (hrow : log = some row)
    (hs : row.succeeded = true) (now clock : Time) :
    claim now clock log = (.delivered, some row) := by
  subst hrow
  exact if_pos hs

/-! ### Runs -/

section Run

variable {ι : Type*} [DecidableEq ι] {c₀ c : Jobs ι}

/-- The invariant of all interleavings. -/
theorem final_of_reach (h0 : ∀ p, (c₀.loc p).task.phase = .load)
    (hempty : ∀ k, c₀.shared.rows k = none) (h : Reach nextJob anyMove c₀ c) :
    Config.Meets (fun w => ∀ k, FinalLog (w.rows k)) (fun j _ => j.task.Sound)
      (fun _ _ => True) c := by
  refine Config.invariant_of_assertions (fun _ _ _ => trivial) ?_ ?_ ?_ ?_ ?_ h
  · intro c p a j w hc _ hstep
    obtain ⟨t, v, he, rfl, rfl⟩ := stepJob_effect hstep
    refine ⟨fun k => ?_, he.sound⟩
    rw [LogWorld.write_rows]
    split
    · exact he.finalLog (hc.each p) (hc.shared _)
    · exact hc.shared k
  · intro c p a j w q hc _ _ _
    exact hc.each q
  · intros
    exact trivial
  · intro c e w hc _ henv
    cases henv
    exact ⟨hc.shared, hc.each⟩
  · refine ⟨fun k row hrow => ?_, fun p now a sent ending hphase => ?_, fun _ _ _ => trivial⟩
    · rw [hempty k] at hrow
      cases hrow
    · rw [h0 p] at hphase
      cases hphase

/-- The row of a delivered pair stays as it is, whoever takes a step. -/
theorem rows_of_reach {k : Pair} {row : LogRow} (hrow : c₀.shared.rows k = some row)
    (hs : row.succeeded = true) (h : Reach nextJob anyMove c₀ c) :
    c.shared.rows k = some row := by
  refine h.invariant (I := fun c => c.shared.rows k = some row) hrow ?_
  intro c m c' hc _ hnext
  cases m with
  | proc p a =>
    obtain ⟨j, w, hstep, rfl⟩ := Config.next_proc.mp hnext
    obtain ⟨t, v, he, rfl, rfl⟩ := stepJob_effect hstep
    show (c.shared.write (c.loc p).pair v).rows k = some row
    rw [LogWorld.write_rows]
    split
    · rename_i hk
      refine he.keeps_success ?_ hs
      show c.shared.rows (c.loc p).pair = some row
      rw [← hk]
      exact hc
    · exact hc
  | env e =>
    obtain ⟨w, hw, rfl⟩ := Config.next_env.mp hnext
    cases hw
    exact hc

/-- **Success is final.**  From an empty log, whatever tasks run on it, a row
that says `succeeded` has no error and no lease, at least one attempt and a
status in 200..299; no later step changes any of its fields, and no later
`_claim` of its pair answers `True`. -/
theorem success_is_final (h0 : ∀ p, (c₀.loc p).task.phase = .load)
    (hempty : ∀ k, c₀.shared.rows k = none) (h : Reach nextJob anyMove c₀ c) {k : Pair}
    {row : LogRow} (hrow : c.shared.rows k = some row) (hs : row.succeeded = true) :
    row.Final ∧ ∀ c', Reach nextJob anyMove c c' →
      c'.shared.rows k = some row ∧
        ∀ now clock, claim now clock (c'.shared.rows k) = (.delivered, some row) := by
  refine ⟨(final_of_reach h0 hempty h).shared k row hrow hs, fun c' hc' => ?_⟩
  have hlater := rows_of_reach hrow hs hc'
  exact ⟨hlater, fun now clock => claim_of_succeeded hlater hs now clock⟩

end Run

/-! ### A late record -/

/-- Two tasks for one pair on an empty log. -/
def emptyLog : Jobs Bool :=
  ⟨⟨0, fun _ => none, fun _ => none, fun _ => []⟩, fun _ => ⟨(1, 7), .load, 0⟩⟩

/-- The first task outlives its lease; the second one delivers and records, and
then the first records its timeout. -/
def lateRecord : List (Move Bool Action ℕ) :=
  [.proc false (.load (some hook)), .proc false .capture, .proc false .claim,
    .env 120000000, .proc true (.load (some hook)), .proc true .capture,
    .proc true .claim, .proc true (.send (.webhook (.ok 204))), .proc true .record,
    .proc false (.send (.webhook (.error .httpTimeout))), .proc false .record]

theorem success_is_final_late :
    ∃ c, Reach nextJob anyMove emptyLog c ∧ ∃ row, c.shared.rows (1, 7) = some row ∧
      (c.loc false).task.phase = .raised .httpTimeout ∧ row.Final := by
  have hrun : ((exec nextJob lateRecord emptyLog).map
      fun c => (c.shared.rows (1, 7), (c.loc false).task.phase)) =
      some (some ⟨120000000, true, 1, some 204, none, none⟩, .raised .httpTimeout) := by
    decide
  obtain ⟨c, hreach, hend⟩ := Reach.exists_of_exec anyMove hrun (along_anyMove _ _)
  have hrow := congrArg Prod.fst hend
  refine ⟨c, hreach, _, hrow, congrArg Prod.snd hend, ?_⟩
  exact (success_is_final (fun _ => rfl) (fun _ => rfl) hreach hrow rfl).1

end Deliver
