/-
The delivery lease excludes overlapping sends.

The runs are those of `Newsforge.Deliver`: any number of tasks for one pair,
started, retried and redelivered at any time, workers killed at any point, and
a clock that never goes back.  Assumed of the tasks is only what the lease is
for: who claims with captured time `t` is through, or dead, before `t + LEASE`
(`Timely`).

* `Holds` — the assertion of one task: while it holds the lease, the log row
  says so;
* `Exclusive` — no two tasks hold it;
* `Once` — a success that was observed is either recorded or about to be.

Main result: `lease_excludes_and_delivers_once`.
-/
import Newsforge.Deliver

open Tables Runs

namespace Deliver

variable {ι : Type*} [DecidableEq ι]

/-! ### Side conditions of the runs -/

/-- After the move, no live task holds a lease that has run out. -/
def Timely (c : Tasks ι) (m : Move ι Action ℕ) : Prop :=
  ∀ c' ∈ next m c, ∀ p, ∀ t ∈ (c'.loc p).phase.lease?, c'.shared.clock < t + lease

/-- The task knows an answer it has not recorded. -/
def Phase.answered : Phase → Bool
  | .record _ _ (some _) _ => true
  | _ => false

/-- No task dies between an answer and its `_record`. -/
def KeepsAnswers (c : Tasks ι) : Move ι Action ℕ → Prop
  | .proc p .die => (c.loc p).phase.answered = false
  | _ => True

def TimelyAndRecorded (c : Tasks ι) (m : Move ι Action ℕ) : Prop :=
  Timely c m ∧ KeepsAnswers c m

/-! ### The assertions -/

/-- What holds of a task while it captures, and while it holds the lease. -/
structure Holds (t : Task) (w : World) : Prop where
  captured : ∀ sub now, t.phase = .claim sub now → now ≤ w.clock
  leased : ∀ now, t.phase.lease? = some now →
    ∃ row, w.log = some row ∧ row.succeeded = false ∧ row.leasedUntil = some (now + lease)
  timely : ∀ now, t.phase.lease? = some now → w.clock < now + lease

/-- Not both tasks hold the lease. -/
def Exclusive (t u : Task) : Prop := t.phase.lease? = none ∨ u.phase.lease? = none

theorem lease?_afterClaim (sub : Subscriptions.Subscription) (now : Time) :
    (afterClaim sub now).lease? = some now := by
  rw [afterClaim]
  split <;> rfl

theorem lease?_ending (e : Ending) : e.phase.lease? = none := by
  cases e <;> rfl

theorem ending_ne_claim (e : Ending) (sub : Subscriptions.Subscription) (now : Time) :
    e.phase ≠ .claim sub now := by
  cases e <;> exact fun h => by cases h

theorem afterClaim_ne_claim (sub sub' : Subscriptions.Subscription) (now now' : Time) :
    afterClaim sub now ≠ .claim sub' now' := by
  intro h
  have hl := congrArg Phase.lease? h
  rw [lease?_afterClaim] at hl
  cases hl

/-- A task holds the lease after its step only if the step took it, or if it
held it before. -/
theorem Effect.lease?_after {a : Action} {t t' : Task} {w w' : World} (h : Effect a t w t' w')
    {now : Time} (hl : t'.phase.lease? = some now) :
    (a = .claim ∧ ∃ sub, t.phase = .claim sub now) ∨
      t.phase.lease? = some now ∧ w'.log = w.log := by
  cases h with
  | taken sub now' hphase =>
    rw [Task.goto_phase, lease?_afterClaim, Option.some_inj] at hl
    exact .inl ⟨rfl, sub, hl ▸ hphase⟩
  | sent sub now' receiver answer hphase =>
    refine .inr ⟨?_, rfl⟩
    rw [hphase]
    exact hl
  | recorded now' a sent ending =>
    rw [Task.goto_phase, lease?_ending] at hl
    cases hl
  | gone | loaded | captured | delivered | inFlight | notified | retried | died | redelivered =>
    cases hl

/-- A step that writes the log row is that of a claim, or of a holder. -/
theorem Effect.log_eq {a : Action} {t t' : Task} {w w' : World} (h : Effect a t w t' w') :
    w'.log = w.log ∨
      (∃ sub now, t.phase = .claim sub now ∧
        (∀ until_, (getOrCreate w.clock w.log).leasedUntil = some until_ → until_ ≤ now) ∧
        (getOrCreate w.clock w.log).succeeded = false) ∨
      (∃ now, t.phase.lease? = some now) := by
  cases h with
  | taken sub now hphase hopen hfree => exact .inr (.inl ⟨sub, now, hphase, hfree, hopen⟩)
  | recorded now a sent ending hphase =>
    refine .inr (.inr ⟨now, ?_⟩)
    rw [hphase]
    rfl
  | gone | loaded | captured | delivered | inFlight | sent | notified | retried | died
  | redelivered => exact .inl rfl

theorem Effect.clock_eq {a : Action} {t t' : Task} {w w' : World} (h : Effect a t w t' w') :
    w'.clock = w.clock := by
  cases h <;> rfl

/-- A task that claims finds no live holder: the lease of a live holder has
not run out when the claim captured its time. -/
theorem Holds.no_claim {t u : Task} {w : World} (hu : Holds u w)
    {sub : Subscriptions.Subscription} {now : Time} (ht : Holds t w)
    (hphase : t.phase = .claim sub now)
    (hfree : ∀ until_, (getOrCreate w.clock w.log).leasedUntil = some until_ → until_ ≤ now) :
    u.phase.lease? = none := by
  cases hl : u.phase.lease? with
  | none => rfl
  | some now' =>
    obtain ⟨row, hlog, -, hrow⟩ := hu.leased now' hl
    have hlate : now' + lease ≤ now := hfree _ (by rw [hlog]; exact hrow)
    have hcap := ht.captured sub now hphase
    have hlive : w.clock < w.clock :=
      Int.lt_of_lt_of_le (hu.timely now' hl) (Int.le_trans hlate hcap)
    exact absurd hlive (Int.lt_irrefl _)

/-- The step of a task establishes its own assertion. -/
theorem Holds.effect_own {a : Action} {t t' : Task} {w w' : World} (ht : Holds t w)
    (h : Effect a t w t' w')
    (htimely : ∀ now, t'.phase.lease? = some now → w'.clock < now + lease) :
    Holds t' w' := by
  refine ⟨fun sub now hphase => ?_, fun now hl => ?_, htimely⟩
  · cases h with
    | captured sub' =>
      cases hphase
      exact Int.le_refl _
    | taken sub' now' => exact absurd hphase (afterClaim_ne_claim _ _ _ _)
    | recorded now' a sent ending => exact absurd hphase (ending_ne_claim _ _ _)
    | gone | loaded | delivered | inFlight | sent | notified | retried | died | redelivered =>
      cases hphase
  · rcases h.lease?_after hl with ⟨rfl, sub, hphase⟩ | ⟨hheld, hlog⟩
    · cases h with
      | taken sub' now' hphase' hopen =>
        rw [Task.goto_phase, lease?_afterClaim, Option.some_inj] at hl
        exact ⟨_, rfl, hopen, by rw [← hl]; rfl⟩
      | delivered | inFlight => cases hl
    · rw [hlog]
      exact ht.leased now hheld

/-- It does not disturb the assertion of another task. -/
theorem Holds.effect_other {a : Action} {t t' u : Task} {w w' : World} (hu : Holds u w)
    (ht : Holds t w) (hex : Exclusive t u) (h : Effect a t w t' w') : Holds u w' := by
  have hclock := h.clock_eq
  refine ⟨fun sub now hphase => hclock ▸ hu.captured sub now hphase, fun now hl => ?_,
    fun now hl => hclock ▸ hu.timely now hl⟩
  -- the log is written by a claim, which finds no live holder, or by the holder
  rcases h.log_eq with hlog | ⟨sub, now', hphase, hfree, -⟩ | ⟨now', hl'⟩
  · rw [hlog]
    exact hu.leased now hl
  · rw [hu.no_claim ht hphase hfree] at hl
    cases hl
  · rcases hex with hnone | hnone
    · rw [hnone] at hl'
      cases hl'
    · rw [hnone] at hl
      cases hl

theorem Exclusive.effect {a : Action} {t t' u : Task} {w w' : World} (hex : Exclusive t u)
    (ht : Holds t w) (hu : Holds u w) (h : Effect a t w t' w') : Exclusive t' u := by
  cases hl : t'.phase.lease? with
  | none => exact .inl hl
  | some now =>
    refine .inr ?_
    rcases h.lease?_after hl with ⟨rfl, sub, hphase⟩ | ⟨hheld, -⟩
    · cases h with
      | taken sub' now' hphase' hopen hfree => exact hu.no_claim ht hphase' hfree
      | delivered | inFlight => cases hl
    · rcases hex with hnone | hnone
      · rw [hnone] at hheld
        cases hheld
      · exact hnone

/-! ### No two holders -/

/-- Every task is about to start, and nothing was sent yet. -/
structure Initial (c : Tasks ι) : Prop where
  phases : ∀ p, (c.loc p).phase = .load
  answers : c.shared.answers = []

/-- The lease invariant. -/
abbrev Leased (c : Tasks ι) : Prop := Config.Meets (fun _ => True) Holds Exclusive c

omit [DecidableEq ι] in
theorem Initial.leased {c : Tasks ι} (h : Initial c) : Leased c := by
  refine ⟨trivial, fun p => ⟨fun sub now hphase => ?_, fun now hl => ?_, fun now hl => ?_⟩,
    fun p q _ => .inl ?_⟩
  · rw [h.phases p] at hphase
    cases hphase
  · rw [h.phases p] at hl
    cases hl
  · rw [h.phases p] at hl
    cases hl
  · rw [h.phases p]
    rfl

theorem leased_of_reach {c₀ c : Tasks ι} (h0 : Initial c₀) (h : Reach next Timely c₀ c) :
    Leased c := by
  refine Config.invariant_of_assertions (G := fun _ => True) (P := Holds) (Q := Exclusive)
    (fun _ _ => Or.symm) ?_ ?_ ?_ ?_ h0.leased h
  · intro c p a t w hc hok hstep
    refine ⟨trivial, (hc.each p).effect_own (step_effect hstep) fun now hl => ?_⟩
    exact hok ⟨w, Function.update c.loc p t⟩ (Config.next_proc.mpr ⟨t, w, hstep, rfl⟩) p now
      (by simpa using hl)
  · intro c p a t w q hc hok hstep hq
    exact (hc.each q).effect_other (hc.each p) (hc.pair p q hq.symm) (step_effect hstep)
  · intro c p a t w q hc hok hstep hq
    exact (hc.pair p q hq.symm).effect (hc.each p) (hc.each q) (step_effect hstep)
  · intro c e w hc hok henv
    refine ⟨trivial, fun p => ⟨fun sub now hphase => ?_, fun now hl => ?_, fun now hl => ?_⟩⟩
    · cases henv
      exact Int.le_trans ((hc.each p).captured sub now hphase)
        (Int.le_add_of_nonneg_right (Int.natCast_nonneg e))
    · cases henv
      exact (hc.each p).leased now hl
    · exact hok ⟨w, c.loc⟩ (Config.next_env.mpr ⟨w, henv, rfl⟩) p now hl

/-! ### One success -/

/-- The log says that the pair was delivered. -/
def Recorded (w : World) : Prop := ∃ row, w.log = some row ∧ row.succeeded = true

/-- `last`: only the newest answer can be a success.  `known`: a success is
recorded, or the task that saw it is about to record it. -/
structure Once (c : Tasks ι) : Prop where
  last : ∀ a ∈ c.shared.answers.tail, success a = false
  known : (∃ a ∈ c.shared.answers, success a = true) →
    Recorded c.shared ∨ ∃ p now attempt a ending,
      (c.loc p).phase = .record now attempt (some a) ending ∧ attempt.succeeded = true

theorem conclude_succeeded (sub : Subscriptions.Subscription) (a : Except DeliveryError Int) :
    (conclude sub a).1.succeeded = success a := by
  cases a with
  | ok status => rfl
  | error e => cases e <;> rfl

theorem Recorded.record {w : World} (h : Recorded w) (a : Attempt) :
    Recorded { w with log := record a w.clock w.log } := by
  obtain ⟨row, hlog, hdone⟩ := h
  refine ⟨row, ?_, hdone⟩
  show Option.map _ w.log = some row
  rw [hlog, Option.map_some, if_pos hdone]

/-- A holder that records a success leaves it in the log. -/
theorem recorded_of_holder {w : World} {row : LogRow} (hlog : w.log = some row)
    (hopen : row.succeeded = false) {a : Attempt} (ha : a.succeeded = true) :
    Recorded { w with log := record a w.clock w.log } := by
  refine ⟨⟨w.clock, a.succeeded, row.attempts + 1, a.httpStatus, cutError a.error, none⟩, ?_, ha⟩
  show Option.map _ w.log = _
  rw [hlog, Option.map_some, if_neg (by rw [hopen]; exact Bool.false_ne_true)]

omit [DecidableEq ι] in
/-- Nobody can send once a success was observed. -/
theorem Once.no_success_before_send {c : Tasks ι} (ho : Once c) (hc : Leased c) {p : ι}
    {sub : Subscriptions.Subscription} {now : Time} (hphase : (c.loc p).phase = .send sub now) :
    ∀ a ∈ c.shared.answers, success a = false := by
  intro a ha
  by_contra hs
  rw [Bool.not_eq_false] at hs
  have hl : (c.loc p).phase.lease? = some now := by rw [hphase]; rfl
  rcases ho.known ⟨a, ha, hs⟩ with ⟨row, hlog, hdone⟩ | ⟨q, now', attempt, a', ending, hq, -⟩
  · obtain ⟨row', hlog', hopen, -⟩ := (hc.each p).leased now hl
    rw [hlog, Option.some_inj] at hlog'
    rw [← hlog', hdone] at hopen
    cases hopen
  · -- who is about to record it holds the lease too
    have hne : p ≠ q := by
      rintro rfl
      rw [hphase] at hq
      cases hq
    have hlq : (c.loc q).phase.lease? = some now' := by rw [hq]; rfl
    rcases hc.pair p q hne with hnone | hnone
    · rw [hl] at hnone
      cases hnone
    · rw [hlq] at hnone
      cases hnone

/-- A success that is known is still known after a step of a task that is not about to
record one. -/
theorem Once.known_update {c : Tasks ι} {p : ι} (ho : Once c) (t : Task)
    (hphase : ∀ now attempt s ending, (c.loc p).phase ≠ .record now attempt (some s) ending)
    (hs : ∃ a ∈ c.shared.answers, success a = true) :
    Recorded c.shared ∨ ∃ q now attempt a ending,
      ((Function.update c.loc p t) q).phase = .record now attempt (some a) ending ∧
        attempt.succeeded = true := by
  rcases ho.known hs with hdone | ⟨q, now, attempt, s, ending, hq, hsucc⟩
  · exact .inl hdone
  · have hqp : q ≠ p := by
      rintro rfl
      exact hphase _ _ _ _ hq
    refine .inr ⟨q, now, attempt, s, ending, ?_, hsucc⟩
    rw [Function.update_of_ne hqp, hq]

theorem Once.step {c : Tasks ι} {p : ι} {a : Action} {t : Task} {w : World} (ho : Once c)
    (hc : Leased c) (hdie : a = .die → (c.loc p).phase.answered = false)
    (hstep : step a (c.loc p) c.shared = some (t, w)) :
    Once (⟨w, Function.update c.loc p t⟩ : Tasks ι) := by
  have he := step_effect hstep
  have hself : (Function.update c.loc p t) p = t := Function.update_self p t c.loc
  -- a step that neither writes the log nor sends keeps what is known
  have hkeep : w.answers = c.shared.answers → w.log = c.shared.log →
      (∀ now attempt s ending, (c.loc p).phase ≠ .record now attempt (some s) ending) →
      Once (⟨w, Function.update c.loc p t⟩ : Tasks ι) := by
    intro hanswers hlog hphase
    refine ⟨?_, ?_⟩
    · show ∀ a ∈ w.answers.tail, success a = false
      rw [hanswers]
      exact ho.last
    · intro hs
      change ∃ a ∈ w.answers, success a = true at hs
      rw [hanswers] at hs
      rcases ho.known_update t hphase hs with ⟨row, hrow, hdone⟩ | hrecording
      · exact .inl ⟨row, hlog.trans hrow, hdone⟩
      · exact .inr hrecording
  cases he with
  | gone hphase => exact hkeep rfl rfl (fun _ _ _ _ h => by rw [hphase] at h; cases h)
  | loaded sub hphase => exact hkeep rfl rfl (fun _ _ _ _ h => by rw [hphase] at h; cases h)
  | captured sub hphase => exact hkeep rfl rfl (fun _ _ _ _ h => by rw [hphase] at h; cases h)
  | delivered sub now row hphase =>
    exact hkeep rfl rfl (fun _ _ _ _ h => by rw [hphase] at h; cases h)
  | inFlight sub now hphase => exact hkeep rfl rfl (fun _ _ _ _ h => by rw [hphase] at h; cases h)
  | notified instant status hphase =>
    exact hkeep rfl rfl (fun _ _ _ _ h => by rw [hphase] at h; cases h)
  | retried e hphase => exact hkeep rfl rfl (fun _ _ _ _ h => by rw [hphase] at h; cases h)
  | redelivered hphase => exact hkeep rfl rfl (fun _ _ _ _ h => by rw [hphase] at h; cases h)
  | died hlive =>
    refine hkeep rfl rfl fun now attempt s ending h => ?_
    have hd := hdie rfl
    rw [h] at hd
    cases hd
  | taken sub now hphase hopen hfree =>
    have heverys : ∀ now' attempt s ending,
        (c.loc p).phase ≠ .record now' attempt (some s) ending := by
      intro now' attempt s ending hrecord
      rw [hphase] at hrecord
      cases hrecord
    refine ⟨ho.last, fun hs => ?_⟩
    rcases ho.known_update _ heverys hs with ⟨row, hrow, hdone⟩ | hrecording
    · -- a delivered pair is not claimed
      rw [hrow] at hopen
      change row.succeeded = false at hopen
      rw [hdone] at hopen
      cases hopen
    · exact .inr hrecording
  | sent sub now receiver answer hphase hanswer =>
    -- all answers so far are failures
    have hnone := ho.no_success_before_send hc hphase
    refine ⟨hnone, ?_⟩
    rintro ⟨b, hb, hs⟩
    rcases List.mem_cons.mp hb with rfl | hb
    · refine .inr ⟨p, now, _, b, (conclude sub b).2, ?_, (conclude_succeeded sub b).trans hs⟩
      show ((Function.update c.loc p _) p).phase = _
      rw [hself]
      rfl
    · rw [hnone b hb] at hs
      cases hs
  | recorded now attempt s ending hphase =>
    refine ⟨ho.last, fun hs => ?_⟩
    -- the holder records its own answer; no other task has one
    have hl : (c.loc p).phase.lease? = some now := by rw [hphase]; rfl
    obtain ⟨row, hlog, hopen, -⟩ := (hc.each p).leased now hl
    rcases ho.known hs with hdone | ⟨q, now', attempt', s', ending', hq, hsucc⟩
    · exact .inl (hdone.record attempt)
    · by_cases hqp : q = p
      · subst hqp
        rw [hphase] at hq
        injection hq with _ hattempt
        rw [hattempt]
        exact .inl (recorded_of_holder hlog hopen hsucc)
      · refine .inr ⟨q, now', attempt', s', ending', ?_, hsucc⟩
        show ((Function.update c.loc p _) q).phase = _
        rw [Function.update_of_ne hqp, hq]

theorem once_of_reach {c₀ c : Tasks ι} (h0 : Initial c₀)
    (h : Reach next TimelyAndRecorded c₀ c) : Leased c ∧ Once c := by
  have hleased : ∀ c, Reach next TimelyAndRecorded c₀ c → Leased c :=
    fun c hc => leased_of_reach h0 (hc.mono fun _ _ hm => hm.1)
  refine ⟨hleased c h, ?_⟩
  induction h with
  | refl =>
    refine ⟨fun a ha => ?_, ?_⟩
    · rw [h0.answers] at ha
      cases ha
    · rintro ⟨a, ha, -⟩
      rw [h0.answers] at ha
      cases ha
  | @step c c' m hreach hok hnext ih =>
    cases m with
    | proc p a =>
      obtain ⟨t, w, hstep, rfl⟩ := Config.next_proc.mp hnext
      refine ih.step (hleased c hreach) (fun ha => ?_) hstep
      subst ha
      exact hok.2
    | env e =>
      obtain ⟨w, hw, rfl⟩ := Config.next_env.mp hnext
      cases hw
      exact ⟨ih.last, ih.known⟩

/-- **The lease excludes, and one success is the last send.**  As long as every
task that claims is through or dead before its lease ends, no two live tasks
are between a successful `_claim` and their `_record`; and if no task dies
between an answer and its `_record`, at most one attempt of the run observes a
success, and nothing is sent after it. -/
theorem lease_excludes_and_delivers_once {c₀ : Tasks ι} (h0 : Initial c₀) :
    (∀ c, Reach next Timely c₀ c → ∀ p q t t', (c.loc p).phase.lease? = some t →
        (c.loc q).phase.lease? = some t' → p = q) ∧
      ∀ c, Reach next TimelyAndRecorded c₀ c →
        (c.shared.answers.filter success).length ≤ 1 ∧
          ∀ a ∈ c.shared.answers.tail, success a = false := by
  constructor
  · intro c hc p q t t' hp hq
    by_contra hne
    rcases (leased_of_reach h0 hc).pair p q hne with hnone | hnone
    · rw [hp] at hnone
      cases hnone
    · rw [hq] at hnone
      cases hnone
  · intro c hc
    have hlast := (once_of_reach h0 hc).2.last
    refine ⟨?_, hlast⟩
    cases hans : c.shared.answers with
    | nil => simp
    | cons a as =>
      rw [hans, List.tail_cons] at hlast
      have hnil : as.filter success = [] :=
        List.filter_eq_nil_iff.mpr fun b hb => by simp [hlast b hb]
      rw [List.filter_cons, hnil]
      split <;> simp

/-! ### A run with an overlap -/

/-- An instant webhook subscription. -/
def hook : Subscriptions.Subscription :=
  Subscriptions.hookRow 1 1 "https://hooks.example/in".toList "s".toList

/-- Two tasks for the pair, `false` and `true`, before any of them starts. -/
def twoTasks : Tasks Bool := ⟨⟨0, none, none, []⟩, fun _ => ⟨.load, 0⟩⟩

theorem twoTasks_initial : Initial twoTasks := ⟨fun _ => rfl, rfl⟩

instance (c : Tasks Bool) (m : Move Bool Action ℕ) : Decidable (Timely c m) :=
  inferInstanceAs (Decidable (∀ c' ∈ next m c, ∀ p, ∀ t ∈ (c'.loc p).phase.lease?,
    c'.shared.clock < t + lease))

instance (c : Tasks Bool) : (m : Move Bool Action ℕ) → Decidable (KeepsAnswers c m)
  | .proc p .die => inferInstanceAs (Decidable ((c.loc p).phase.answered = false))
  | .proc _ (.load _) | .proc _ .capture | .proc _ .claim | .proc _ (.send _) | .proc _ .record
  | .proc _ (.notify _) | .proc _ .retry | .proc _ .redeliver | .env _ => isTrue trivial

instance (c : Tasks Bool) (m : Move Bool Action ℕ) :
    Decidable (TimelyAndRecorded c m) :=
  inferInstanceAs (Decidable (Timely c m ∧ KeepsAnswers c m))

/-- The second task meets the lease of the first, is retried after the first
one was answered, and finds the pair delivered. -/
def overlap : List (Move Bool Action ℕ) :=
  [.proc false (.load (some hook)), .proc false .capture, .proc false .claim, .env 5,
    .proc true (.load (some hook)), .proc true .capture, .proc true .claim,
    .proc false (.send (.webhook (.ok 200))), .proc false .record,
    .proc true .retry, .proc true (.load (some hook)), .proc true .capture, .proc true .claim]

theorem lease_excludes_and_delivers_once_overlap :
    ∃ c, Reach next TimelyAndRecorded twoTasks c ∧ (c.loc true).phase = .finished .deduped ∧
      c.shared.answers.length = 1 ∧ (c.shared.answers.filter success).length ≤ 1 ∧
      ∀ p q t t', (c.loc p).phase.lease? = some t → (c.loc q).phase.lease? = some t' → p = q := by
  have hrun : ((exec next overlap twoTasks).map
      fun c => ((c.loc true).phase, c.shared.answers.length)) = some (.finished .deduped, 1) := by
    decide
  obtain ⟨c, hreach, hend⟩ := Reach.exists_of_exec TimelyAndRecorded hrun (by decide)
  have hmain := lease_excludes_and_delivers_once twoTasks_initial
  exact ⟨c, hreach, congrArg Prod.fst hend, congrArg Prod.snd hend, (hmain.2 c hreach).1,
    hmain.1 c (hreach.mono fun _ _ hm => hm.1)⟩

end Deliver
