/-
Nothing is lost between an entry and its deliveries.

The runs are those of `Newsforge.Pipeline`: entries come in at any time, any number of
slots work on the three kinds of tasks, workers are killed and their messages come again,
staff, owners and the cleanup write their tables.

* `KeepsClaims` — no worker dies with the claim of an article, and no subscription is
  deleted;
* `ChainKnown` — an article that was processed has a holder of its claim, or its chain was
  queued;
* `Fanned` — what the fan-out of a chain found is queued, or still to be queued;
* `Tried` — what the delivery log says of a delivery, by the phase of its task;
* `AtRest`, `Settled` — nothing is left to be done, and what that means for a delivery.

Main result: `no_match_is_lost`.
-/
import Newsforge.Pipeline
import Newsforge.TagRuns

open Tables Runs

namespace Pipeline

open ArticleTable Subscriptions

variable {ι : Type*} [DecidableEq ι] {k : Normalizer.Tools} {pg : Digest.Postgres} {a : Action}
  {job job' : Job} {w w' : Database} {sent : List Message} {c₀ c c' : Jobs ι}

/-! ### The articles -/

theorem Stepped.wellFormed (h : Stepped k pg w a job job' w' sent) (hw : WellFormed w.db) :
    WellFormed w'.db := by
  cases h with
  | upsert a t t' v heffect => exact heffect.wellFormed hw
  | chain | subscription | delivery => exact hw

/-- Others leave the rows, hidden or not. -/
theorem outside_rows {e : Outside} (h : outside e w = some (w', sent)) :
    w'.db = w.db ∨ ∃ ids, w'.db = ArticleCleanup.hide ids w.db := by
  unfold outside at h
  split at h
  · cases h
    exact .inl rfl
  · cases h
  · cases h
    exact .inl rfl
  · -- nobody else writes articles
    obtain ⟨v, -, heq⟩ := Option.map_eq_some_iff.mp h
    cases heq
    exact .inl rfl
  · rename_i ids
    cases h
    exact .inr ⟨ids, rfl⟩
  · cases h
    exact .inl rfl

theorem outside_wellFormed {e : Outside} (h : outside e w = some (w', sent))
    (hw : WellFormed w.db) : WellFormed w'.db := by
  rcases outside_rows h with hsame | ⟨ids, hhide⟩
  · rw [hsame]
    exact hw
  · rw [hhide]
    exact hw.update_keeping _ (fun _ => rfl) (fun _ => rfl) (fun _ => rfl) (fun _ => rfl)

/-- Hiding leaves what was processed. -/
theorem processed_of_outside {e : Outside} (h : outside e w = some (w', sent)) {r' : Article}
    (hr' : r' ∈ w'.db.rows) (hset : r'.processedAt ≠ none) :
    ∃ r ∈ w.db.rows, r.id = r'.id ∧ r.processedAt ≠ none := by
  rcases outside_rows h with hsame | ⟨ids, hhide⟩
  · rw [hsame] at hr'
    exact ⟨r', hr', rfl, hset⟩
  · rw [hhide] at hr'
    obtain ⟨r, hr, rfl⟩ := mem_updateWhere.mp hr'
    refine ⟨r, hr, ?_, fun hopen => hset ?_⟩
    · split <;> rfl
    · split <;> exact hopen

theorem wellFormed_of_reach {ok : Jobs ι → Move ι (PoolAction Action Message) Outside → Prop}
    (hw : WellFormed c₀.shared.state.db) (h : Reach (next k pg) ok c₀ c) :
    WellFormed c.shared.state.db := by
  refine (pool_invariant (G := fun w : Database => WellFormed w.db) (P := fun _ _ => True)
    ⟨hw, fun _ _ _ => trivial⟩ (fun _ _ _ => trivial) ?_ ?_ ?_ h).1
  · exact fun a job w job' w' sent hw _ hstep => ⟨(stepped hw hstep).wellFormed hw, trivial⟩
  · exact fun _ _ _ _ _ _ _ _ _ _ _ => trivial
  · exact fun c e w' sent _ hw henv => ⟨outside_wellFormed henv hw, fun _ _ => trivial⟩

/-! ### Messages -/

theorem message_of_effect {a : ProcessArticle.Action} {t t' : ProcessArticle.Task}
    {v v' : ProcessArticle.World} (h : ProcessArticle.Effect a t v t' v') :
    t'.feedId = t.feedId ∧ t'.entry = t.entry := by
  cases h <;> exact ⟨rfl, rfl⟩

/-- A task belongs to one message. -/
theorem keeps_message : (handler k pg).Keeps Job.message fun w => WellFormed w.db where
  start m := by cases m <;> rfl
  step hw h := by
    cases stepped hw h with
    | upsert a t t' v heffect =>
      obtain ⟨hfeed, hentry⟩ := message_of_effect heffect
      show Message.entry t'.feedId t'.entry = .entry t.feedId t.entry
      rw [hfeed, hentry]
    | chain a t t' found v hstep =>
      exact congrArg Message.chain (Tagging.step_did hstep).article_eq
    | subscription | delivery => rfl

/-! ### Claims -/

/-- The article whose claim a task holds. -/
def Job.holds : Job → Option ℕ
  | .upsert t => t.phase.holds
  | _ => none

/-- No worker dies while its task holds a claim, and no subscription is deleted. -/
def KeepsClaims (c : Jobs ι) : Move ι (PoolAction Action Message) Outside → Prop
  | .proc p (.run (.upsert .die)) => ∀ job, c.loc p = some job → job.holds = none
  | .env (.staff (.setSubs subs)) => ∀ id, deletes c.shared.state.subs subs id = false
  | _ => True

/-- Of the articles that were not processed `before`, each that is has a holder of its
claim, or its chain was queued. -/
def ChainKnown (before : List Article) (c : Jobs ι) : Prop :=
  ∀ r ∈ c.shared.state.db.rows, r.processedAt ≠ none →
    (∃ r₀ ∈ before, r₀.id = r.id ∧ r₀.processedAt ≠ none) ∨
      (∃ p job, c.loc p = some job ∧ job.holds = some r.id) ∨
        Handed Job.message (.chain r.id) c

/-- A holder that goes on, or any other slot. -/
theorem holder_moved {p q : ι} {job' u : Job} {id : ℕ} (hq : c.loc q = some u)
    (hholds : u.holds = some id) (hmover : q = p → job'.holds = some id) :
    ∃ p' u', Function.update c.loc p (some job') p' = some u' ∧ u'.holds = some id := by
  by_cases heq : q = p
  · subst heq
    exact ⟨q, job', Function.update_self .., hmover rfl⟩
  · exact ⟨q, u, (Function.update_of_ne heq ..).trans hq, hholds⟩

/-- **A chain is queued for every article**, as long as no worker dies with a claim. -/
theorem ChainKnown.moved {before : List Article} {mv : Move ι (PoolAction Action Message) Outside}
    (h : ChainKnown before c) (hw : WellFormed c.shared.state.db) (hok : KeepsClaims c mv)
    (hmoved : Moved (handler k pg) outside c mv c') : ChainKnown before c' := by
  intro r' hr' hset'
  -- a row that was processed before the move
  have hold : ∀ r ∈ c.shared.state.db.rows, r.id = r'.id → r.processedAt ≠ none →
      (∀ p job, c.loc p = some job → job.holds = some r.id →
        (∃ q u, c'.loc q = some u ∧ u.holds = some r.id) ∨
          Handed Job.message (.chain r.id) c') →
      (∃ r₀ ∈ before, r₀.id = r'.id ∧ r₀.processedAt ≠ none) ∨
        (∃ p job, c'.loc p = some job ∧ job.holds = some r'.id) ∨
          Handed Job.message (.chain r'.id) c' := by
    intro r hr hid hset hholder
    rw [← hid]
    rcases h r hr hset with hbefore | ⟨p, job, hp, hholds⟩ | hhanded
    · exact .inl hbefore
    · exact .inr (hholder p job hp hholds)
    · exact .inr (.inr (hhanded.moved keeps_message hw hmoved))
  cases hmoved with
  | took p m hfree hin =>
    refine hold r' hr' rfl hset' fun q u hq hholds => .inl ⟨q, u, ?_, hholds⟩
    have hne : q ≠ p := by
      rintro rfl
      rw [hfree] at hq
      cases hq
    exact (Function.update_of_ne hne ..).trans hq
  | others e s sent henv =>
    obtain ⟨r, hr, hid, hset⟩ := processed_of_outside henv hr' hset'
    exact hold r hr hid hset fun q u hq hholds => .inl ⟨q, u, hq, hholds⟩
  | ran p a job job' s sent hloc hstep =>
    cases stepped hw hstep with
    | upsert a t t' v heffect =>
      rcases heffect.processed_before hr' hset' with ⟨r, hr, hid, hset, hrelease⟩ | hclaimed
      · refine hold r hr hid hset fun q u hq hholds => ?_
        by_cases heq : q = p
        · subst heq
          rw [hloc] at hq
          cases hq
          have hdie : a ≠ .die := by
            rintro rfl
            rw [hok _ hloc] at hholds
            cases hholds
          -- the holder goes on holding, or has queued the chain
          rcases heffect.holds_after hholds hdie fun ha => hrelease ha hholds with hheld | hqueued
          · exact .inl ⟨q, .upsert t', Function.update_self .., hheld⟩
          · exact .inr (.sent (List.mem_map_of_mem hqueued))
        · exact .inl ⟨q, u, (Function.update_of_ne heq ..).trans hq, hholds⟩
      · exact .inr (.inl ⟨p, .upsert t', Function.update_self .., hclaimed⟩)
    | chain | subscription | delivery =>
      refine hold r' hr' rfl hset' fun q u hq hholds => .inl ?_
      refine holder_moved hq hholds ?_
      rintro rfl
      rw [hloc] at hq
      cases hq
      cases hholds

theorem chainKnown_of_reach (hw : WellFormed c₀.shared.state.db)
    (h : Reach (next k pg) KeepsClaims c₀ c) : ChainKnown c₀.shared.state.db.rows c := by
  refine (h.knowing fun c hc => wellFormed_of_reach hw hc).invariant
    (I := ChainKnown c₀.shared.state.db.rows) (fun r hr hset => .inl ⟨r, hr, rfl, hset⟩) ?_
  exact fun c mv c' hc hok hnext => hc.moved hok.1 hok.2 (poolNext_moved hnext)

/-! ### Fan-outs -/

/-- The fan-out has read the tables, and its worker is alive. -/
def isPublishing : Tagging.Phase → Bool
  | .publish _ | .done => true
  | _ => false

variable {t t' : Tagging.Task} {v v' : Tagging.World} {found : List ℕ}

/-- A step of a chain behind which it publishes: the query, or the next delivery. -/
theorem publishing_step {a : Tagging.Action} (h : Tagging.step k pg a t v = some (t', v'))
    (hpublishing : isPublishing t'.phase = true) :
    (∃ ids, a = .select ids ∧ ids.Perm (Tagging.instantMatches pg v t.article) ∧
        t' = t.goto (.publish ids)) ∨
      ((∃ raises, a = .publish raises) ∧ t.phase = .publish [] ∧ t' = t.goto .done ∧ v' = v) ∨
        ∃ sub ids, (∃ raises, a = .publish raises) ∧ t.phase = .publish (sub :: ids) ∧
          t' = t.goto (.publish ids) ∧
          v' = { v with queued := (sub, t.article) :: v.queued } := by
  cases a with
  | select ids =>
    simp only [Tagging.step.eq_def] at h
    split at h
    · split at h
      · rename_i hperm
        cases h
        exact .inl ⟨ids, rfl, hperm, rfl⟩
      · cases h
    · cases h
  | publish raises =>
    simp only [Tagging.step.eq_def] at h
    split at h
    · rename_i hphase
      cases h
      exact .inr (.inl ⟨⟨raises, rfl⟩, hphase, rfl, rfl⟩)
    · rename_i sub ids hphase
      split at h
      · -- the broker has refused: the chain has failed
        cases h
        cases hpublishing
      · cases h
        exact .inr (.inr ⟨sub, ids, ⟨raises, rfl⟩, hphase, rfl, rfl⟩)
    · cases h
  | get | load | lookup | insert | die | redeliver =>
    -- no other step leads there
    refine absurd hpublishing ?_
    have hnot : isPublishing t'.phase = false := by
      simp only [Tagging.step.eq_def] at h
      repeat' split at h
      all_goals cases h
      all_goals rfl
    rw [hnot]
    exact Bool.false_ne_true

/-- What is known of a chain that publishes in the slot `p`: when its fan-out read the
tables, and that each subscription it found is queued or still on its list. -/
structure Fanned (k : Normalizer.Tools) (pg : Digest.Postgres) (c₀ c : Jobs ι) (p : ι)
    (t : Tagging.Task) (found : List ℕ) : Prop where
  read : ∃ c₁ c₂, Reach (next k pg) KeepsClaims c₀ c₁ ∧
    next k pg (.proc p (.run (.chain (.select found)))) c₁ = some c₂ ∧
      Reach (next k pg) KeepsClaims c₂ c ∧
        found.Perm (Tagging.instantMatches pg c₁.shared.state.tagging t.article)
  owed : ∀ sub ∈ found, (∃ rest, t.phase = .publish rest ∧ sub ∈ rest) ∨
    Handed Job.message (.delivery (sub, t.article)) c

/-- Another move. -/
theorem Fanned.moved {mv : Move ι (PoolAction Action Message) Outside} {p : ι}
    (h : Fanned k pg c₀ c p t found) (hw : WellFormed c.shared.state.db) (hok : KeepsClaims c mv)
    (hnext : next k pg mv c = some c') : Fanned k pg c₀ c' p t found where
  read := by
    obtain ⟨c₁, c₂, hbefore, hselect, hafter, hperm⟩ := h.read
    exact ⟨c₁, c₂, hbefore, hselect, hafter.step hok hnext, hperm⟩
  owed sub hsub :=
    (h.owed sub hsub).imp_right fun hhanded =>
      hhanded.moved keeps_message hw (poolNext_moved hnext)

/-- **What a fan-out finds is queued.** -/
theorem fanned_of_reach (hfree : ∀ p, c₀.loc p = none) (hw : WellFormed c₀.shared.state.db)
    (h : Reach (next k pg) KeepsClaims c₀ c) {p : ι} (hp : c.loc p = some (.chain t found))
    (hpublishing : isPublishing t.phase = true) : Fanned k pg c₀ c p t found := by
  induction h generalizing p t found with
  | refl =>
    rw [hfree p] at hp
    cases hp
  | @step c c' mv h hok hnext ih =>
    have hdb := wellFormed_of_reach hw h
    cases hmoved : poolNext_moved hnext with
    | took q m hfree' hin =>
      by_cases heq : p = q
      · -- a chain that starts does not publish yet
        subst heq
        simp only [Function.update_self] at hp
        cases m with
        | chain article =>
          cases hp
          cases hpublishing
        | entry | delivery => cases hp
      · have hp : c.loc p = some (.chain t found) := (Function.update_of_ne heq ..).symm.trans hp
        exact (ih hp hpublishing).moved hdb hok hnext
    | others e s sent henv => exact (ih hp hpublishing).moved hdb hok hnext
    | ran q a job job' s sent hloc hstep =>
      by_cases heq : p = q
      · subst heq
        simp only [Function.update_self] at hp
        cases hp
        cases stepped hdb hstep with
        | chain a t₀ t' found₀ v hchain =>
          rcases publishing_step hchain hpublishing with ⟨ids, rfl, hperm, rfl⟩ |
            ⟨⟨raises, rfl⟩, hphase, rfl, rfl⟩ | ⟨sub, ids, ⟨raises, rfl⟩, hphase, rfl, rfl⟩
          · -- the query
            exact ⟨⟨c, _, h, hnext, .refl, hperm⟩, fun sub hsub => .inl ⟨ids, rfl, hsub⟩⟩
          · -- nothing was left to be queued
            have hold := (ih hloc (by rw [hphase]; rfl)).moved hdb hok hnext
            refine ⟨hold.read, fun x hx => .inr ?_⟩
            rcases hold.owed x hx with ⟨rest, hrest, hin⟩ | hhanded
            · rw [hphase] at hrest
              cases hrest
              cases hin
            · exact hhanded
          · -- one delivery more
            have hold := (ih hloc (by rw [hphase]; rfl)).moved hdb hok hnext
            refine ⟨hold.read, fun x hx => ?_⟩
            rcases hold.owed x hx with ⟨rest, hrest, hin⟩ | hhanded
            · rw [hphase] at hrest
              cases hrest
              rcases List.mem_cons.mp hin with rfl | hin
              · exact .inr (.sent List.mem_cons_self)
              · exact .inl ⟨ids, rfl, hin⟩
            · exact .inr hhanded
      · have hp : c.loc p = some (.chain t found) := (Function.update_of_ne heq ..).symm.trans hp
        exact (ih hp hpublishing).moved hdb hok hnext

/-! ### Deliveries -/

/-- What a task has come to say of its delivery: it succeeded, or did not.  A subscription
or an article that is gone, and a pair that another task delivers, leave that open. -/
def outcome : Deliver.Phase → Option Bool
  | .notify _ => some true
  | .finished (.answered _ ok) => some ok
  | .finished .deduped => some true
  | .finished .gone => none
  | .finished _ => some false
  | .raised .inFlight => none
  | .raised _ => some false
  | _ => none

/-- The log goes on: rows stay, attempts are counted, and a success is kept. -/
def Grown (log log' : Option Deliver.LogRow) : Prop :=
  ∀ row, log = some row → ∃ row', log' = some row' ∧ row.attempts ≤ row'.attempts ∧
    (row.succeeded = true → row'.succeeded = true)

theorem Grown.refl (log : Option Deliver.LogRow) : Grown log log :=
  fun row hrow => ⟨row, hrow, le_rfl, id⟩

variable {u u' : Deliver.Task} {x x' : Deliver.World} {log log' : Option Deliver.LogRow}

/-- `_record` on a row. -/
theorem record_row (a : Deliver.Attempt) (clock : Time) (row : Deliver.LogRow) :
    ∃ row', Deliver.record a clock (some row) = some row' ∧ row.attempts ≤ row'.attempts ∧
      (row.succeeded = true → row'.succeeded = true) ∧
        (row'.succeeded = true ∨ a.succeeded = false ∧ 0 < row'.attempts) := by
  by_cases hdone : row.succeeded = true
  · exact ⟨row, congrArg some (if_pos hdone), le_rfl, id, .inl hdone⟩
  · refine ⟨_, congrArg some (if_neg hdone), Nat.le_succ _, fun hs => absurd hs hdone, ?_⟩
    cases hattempt : a.succeeded with
    | true => exact .inl rfl
    | false => exact .inr ⟨rfl, Nat.succ_pos _⟩

theorem grown_of_effect {a : Deliver.Action} (h : Deliver.Effect a u x u' x') :
    Grown x.log x'.log := by
  intro row hrow
  cases h with
  | taken sub now hphase hopen =>
    refine ⟨_, rfl, ?_, fun hs => ?_⟩
    · rw [hrow]
      exact le_rfl
    · rw [hrow] at hopen
      exact absurd (hs.symm.trans hopen) (by decide)
  | recorded now a sent ending =>
    obtain ⟨row', hrow', hattempts, hsucceeded, -⟩ := record_row a x.clock row
    refine ⟨row', ?_, hattempts, hsucceeded⟩
    show Deliver.record a x.clock x.log = some row'
    rw [hrow, hrow']
  | gone | loaded | captured | delivered | inFlight | sent | notified | retried | died
  | redelivered => exact ⟨row, hrow, le_rfl, id⟩

/-- What the log says of a delivery, by the phase of its task. -/
structure Tried (u : Deliver.Task) (log : Option Deliver.LogRow) : Prop where
  leased : ∀ now, u.phase.lease? = some now → ∃ row, log = some row
  agrees : ∀ now a sent ending, u.phase = .record now a sent ending →
    ∀ ok, outcome ending.phase = some ok → a.succeeded = ok
  logged : ∀ ok, outcome u.phase = some ok →
    ∃ row, log = some row ∧ (row.succeeded = true ∨ ok = false ∧ 0 < row.attempts)

/-- A task that has said nothing yet, and holds no lease. -/
theorem Tried.of_open (hlease : u.phase.lease? = none) (houtcome : outcome u.phase = none) :
    Tried u log where
  leased now h := by
    rw [hlease] at h
    cases h
  agrees now a sent ending hphase := by
    rw [hphase] at hlease
    cases hlease
  logged ok h := by
    rw [houtcome] at h
    cases h

/-- The log goes on while another task works. -/
theorem Tried.grown (h : Tried u log) (hgrown : Grown log log') : Tried u log' where
  leased now hlease := by
    obtain ⟨row, hrow⟩ := h.leased now hlease
    obtain ⟨row', hrow', -⟩ := hgrown row hrow
    exact ⟨row', hrow'⟩
  agrees := h.agrees
  logged ok hok := by
    obtain ⟨row, hrow, hcase⟩ := h.logged ok hok
    obtain ⟨row', hrow', hattempts, hsucceeded⟩ := hgrown row hrow
    exact ⟨row', hrow', hcase.imp hsucceeded (And.imp_right fun hpos => hpos.trans_le hattempts)⟩

/-- The attempt that is recorded says what the task goes on to say. -/
theorem conclude_agrees (sub : Subscription) (answer : Except Deliver.DeliveryError Int) {ok : Bool}
    (h : outcome (Deliver.conclude sub answer).2.phase = some ok) :
    (Deliver.conclude sub answer).1.succeeded = ok := by
  cases answer with
  | ok status =>
    simp only [Deliver.conclude] at h ⊢
    split at h
    · rename_i hnotify
      cases h
      rw [Bool.and_eq_true] at hnotify
      exact hnotify.1
    · exact Option.some.inj h
  | error e =>
    cases e with
    | inFlight => cases h
    | _ =>
      cases h
      rfl

/-- The recorded failures of a subscription that nothing can be sent to. -/
theorem tried_afterClaim (sub : Subscription) (now : Time) (row : Deliver.LogRow) (retries : ℕ) :
    Tried ⟨Deliver.afterClaim sub now, retries⟩ (some row) where
  leased _ _ := ⟨row, rfl⟩
  agrees now' a sent ending hphase ok hok := by
    simp only [Deliver.afterClaim] at hphase
    split at hphase <;> cases hphase <;> cases hok <;> rfl
  logged ok hok := by
    simp only [Deliver.afterClaim] at hok
    split at hok <;> cases hok

/-- **A delivery that is over is in the log.** -/
theorem Tried.effect {a : Deliver.Action} (h : Tried u x.log) (heffect : Deliver.Effect a u x u' x') :
    Tried u' x'.log := by
  cases heffect with
  | taken sub now => exact tried_afterClaim sub now _ _
  | delivered sub now row hphase hlog hdone =>
    refine ⟨fun _ hlease => (nomatch hlease), fun _ _ _ _ hphase => (nomatch hphase), ?_⟩
    exact fun _ _ => ⟨row, hlog, .inl hdone⟩
  | sent sub now receiver answer hphase =>
    refine ⟨fun _ _ => h.leased now (by rw [hphase]; rfl), ?_, fun _ hok => (nomatch hok)⟩
    intro now' a sent ending hrecord ok hok
    cases hrecord
    exact conclude_agrees sub answer hok
  | recorded now a sent ending hphase =>
    obtain ⟨row, hrow⟩ := h.leased now (by rw [hphase]; rfl)
    refine ⟨fun now' hlease => ?_, fun now' a' sent' ending' hrecord => ?_, fun ok hok => ?_⟩
    · rw [Deliver.Task.goto_phase, Deliver.lease?_ending] at hlease
      cases hlease
    · exact absurd hrecord (ending.phase_ne_record now' a' sent' ending')
    · have hagrees := h.agrees now a sent ending hphase ok hok
      obtain ⟨row', hrow', -, -, hsaid⟩ := record_row a x.clock row
      refine ⟨row', ?_, hsaid.imp_right fun hfailed => ⟨?_, hfailed.2⟩⟩
      · show Deliver.record a x.clock x.log = some row'
        rw [hrow, hrow']
      · exact hagrees.symm.trans hfailed.1
  | notified instant status hphase =>
    refine ⟨fun _ hlease => (nomatch hlease), fun _ _ _ _ hphase => (nomatch hphase), ?_⟩
    intro ok hok
    cases hok
    exact h.logged true (by rw [hphase]; rfl)
  | gone | loaded | captured | inFlight | retried | died | redelivered => exact .of_open rfl rfl

/-- What the log says of the delivery of a job. -/
def JobTried (w : Database) : Job → Prop
  | .delivery j _ => Tried j.task (w.log.rows j.pair)
  | _ => True

theorem grown_of_stepped (h : Stepped k pg w a job job' w' sent) (pair : Deliver.Pair) :
    Grown (w.log.rows pair) (w'.log.rows pair) := by
  cases h with
  | upsert | chain | subscription => exact .refl _
  | delivery a j sub t v heffect =>
    show Grown _ ((w.log.write j.pair v).rows pair)
    rw [Deliver.LogWorld.write_rows]
    split
    · rename_i hpair
      subst hpair
      exact grown_of_effect heffect
    · exact .refl _

omit [DecidableEq ι] in
/-- Others leave the log, if they delete no subscription. -/
theorem outside_log {e : Outside} (hok : KeepsClaims c (.env e))
    (h : outside e c.shared.state = some (w, sent)) (pair : Deliver.Pair) :
    w.log.rows pair = c.shared.state.log.rows pair := by
  unfold outside at h
  split at h
  · cases h
    rfl
  · cases h
  · cases h
    exact if_neg (by rw [hok pair.1]; exact Bool.false_ne_true)
  · obtain ⟨v, -, heq⟩ := Option.map_eq_some_iff.mp h
    cases heq
    rfl
  · cases h
    rfl
  · cases h
    rfl

theorem tried_of_reach (hfree : ∀ p, c₀.loc p = none) (hw : WellFormed c₀.shared.state.db)
    (h : Reach (next k pg) KeepsClaims c₀ c) {p : ι} (hp : c.loc p = some job) :
    JobTried c.shared.state job := by
  refine (pool_invariant (G := fun w : Database => WellFormed w.db)
    (P := fun job w => JobTried w job) ⟨hw, fun p job hp => ?_⟩ ?_ ?_ ?_ ?_ h).2 p job hp
  · rw [hfree p] at hp
    cases hp
  · intro m w hw
    cases m with
    | delivery => exact Tried.of_open rfl rfl
    | entry | chain => trivial
  · intro a job w job' w' sent hw htried hstep
    have hstepped := stepped hw hstep
    refine ⟨hstepped.wellFormed hw, ?_⟩
    cases hstepped with
    | upsert | chain => trivial
    | subscription => exact htried
    | delivery a j sub t v heffect =>
      show Tried t ((w.log.write j.pair v).rows j.pair)
      rw [Deliver.LogWorld.write_rows, if_pos rfl]
      exact Tried.effect (x := w.log.view j.pair) htried heffect
  · intro a job w job' w' sent u hw _ htried hstep
    cases u with
    | delivery j => exact Tried.grown htried (grown_of_stepped (stepped hw hstep) j.pair)
    | upsert | chain => trivial
  · intro c e w' sent hok hw henv
    refine ⟨outside_wellFormed henv hw, fun u htried => ?_⟩
    cases u with
    | delivery j =>
      show Tried j.task (w'.log.rows j.pair)
      rw [outside_log hok henv]
      exact htried
    | upsert | chain => trivial

/-! ### At rest -/

/-- Nothing is left to be done for the message of a task. -/
def Job.isOver : Job → Bool
  | .upsert t =>
    match t.phase with
    | .finished _ | .failed _ => true
    | _ => false
  | .chain t _ => t.phase == .done || t.phase == .failed
  | .delivery j _ =>
    match j.task.phase with
    | .finished _ => true
    | .raised e => !(Deliver.autoretry e && j.task.retries < Deliver.maxRetries)
    | _ => false

/-- Nothing is queued, and nobody works. -/
structure AtRest (c : Jobs ι) : Prop where
  waiting : c.shared.waiting = []
  ended : ∀ p job, c.loc p = some job → job.isOver = true

/-- A delivery that is over: the subscription or the article was gone, another task had the
lease, or the log says that it succeeded, or how often it failed. -/
def Settled (u : Deliver.Task) (log : Option Deliver.LogRow) : Prop :=
  u.phase = .finished .gone ∨ u.phase = .raised .inFlight ∨
    ∃ row, log = some row ∧ (row.succeeded = true ∨ outcome u.phase = some false ∧ 0 < row.attempts)

theorem Tried.settled {j : Deliver.Job} {sub : Option (Option Subscription)}
    (h : Tried j.task log) (hover : (Job.delivery j sub).isOver = true) : Settled j.task log := by
  have hlogged : ∀ ok, outcome j.task.phase = some ok → Settled j.task log := by
    intro ok hok
    obtain ⟨row, hrow, hcase⟩ := h.logged ok hok
    refine .inr (.inr ⟨row, hrow, hcase.imp_right fun hfailed => ⟨?_, hfailed.2⟩⟩)
    rw [hok, hfailed.1]
  rw [Job.isOver] at hover
  cases hphase : j.task.phase with
  | finished r =>
    cases r with
    | gone => exact .inl hphase
    | deduped => exact hlogged true (by rw [hphase]; rfl)
    | answered status ok => exact hlogged ok (by rw [hphase]; rfl)
    | noSecret | noTarget | blocked => exact hlogged false (by rw [hphase]; rfl)
  | raised e =>
    cases e with
    | inFlight => exact .inr (.inl hphase)
    | _ => exact hlogged false (by rw [hphase]; rfl)
  | _ =>
    rw [hphase] at hover
    cases hover

/-- A job that answers the message of a chain or of a delivery. -/
theorem of_message {article : ℕ} (h : job.message = .chain article) :
    ∃ t found, job = .chain t found ∧ t.article = article := by
  cases job with
  | chain t found => exact ⟨t, found, rfl, Message.chain.inj h⟩
  | upsert | delivery => cases h

theorem of_message_delivery {pair : Deliver.Pair} (h : job.message = .delivery pair) :
    ∃ j sub, job = .delivery j sub ∧ j.pair = pair := by
  cases job with
  | delivery j sub => exact ⟨j, sub, rfl, Message.delivery.inj h⟩
  | upsert | chain => cases h

/-- The fan-out of the article has run in the slot `p`: its query read the tables in some
state on the way, and each subscription that matched then had a delivery that is settled. -/
def FannedOut (k : Normalizer.Tools) (pg : Digest.Postgres) (c₀ c : Jobs ι) (p : ι)
    (article : ℕ) : Prop :=
  ∃ ids c₁ c₂, Reach (next k pg) KeepsClaims c₀ c₁ ∧
    next k pg (.proc p (.run (.chain (.select ids)))) c₁ = some c₂ ∧
      Reach (next k pg) KeepsClaims c₂ c ∧
        ∀ sub ∈ Tagging.instantMatches pg c₁.shared.state.tagging article,
          ∃ q j found, c.loc q = some (.delivery j found) ∧ j.pair = (sub, article) ∧
            Settled j.task (c.shared.state.log.rows (sub, article))

/-- **No match is lost.**  As long as no worker dies with the claim of an article and no
subscription is deleted, once
nothing is queued and nobody works: every article that was processed since the start had a
chain, and unless that failed, the subscriptions that matched when its fan-out read the
tables had their deliveries. -/
theorem no_match_is_lost (hfree : ∀ p, c₀.loc p = none) (hw : WellFormed c₀.shared.state.db)
    (h : Reach (next k pg) KeepsClaims c₀ c) (hrest : AtRest c) {r : Article}
    (hr : r ∈ c.shared.state.db.rows) (hset : r.processedAt ≠ none)
    (hnew : ∀ r₀ ∈ c₀.shared.state.db.rows, r₀.id = r.id → r₀.processedAt = none) :
    ∃ p t found, c.loc p = some (.chain t found) ∧ t.article = r.id ∧
      (t.phase = .failed ∨ FannedOut k pg c₀ c p r.id) := by
  rcases chainKnown_of_reach hw h r hr hset with ⟨r₀, hr₀, hid, hset₀⟩ | ⟨p, job, hp, hholds⟩ | hhanded
  · exact absurd (hnew r₀ hr₀ hid) hset₀
  · -- who holds a claim is not over
    have hover := hrest.ended p job hp
    cases job with
    | upsert t =>
      rw [Job.isOver] at hover
      rw [Job.holds] at hholds
      split at hover
      · rename_i hphase
        rw [hphase] at hholds
        cases hholds
      · rename_i hphase
        rw [hphase] at hholds
        cases hholds
      · cases hover
    | chain | delivery => cases hholds
  · obtain ⟨p, job, hp, hmessage⟩ := hhanded.taken hrest.waiting
    obtain ⟨t, found, rfl, harticle⟩ := of_message hmessage
    refine ⟨p, t, found, hp, harticle, ?_⟩
    have hover := hrest.ended p _ hp
    rw [Job.isOver, Bool.or_eq_true, beq_iff_eq, beq_iff_eq] at hover
    rcases hover with hdone | hfailed
    · have hfanned := fanned_of_reach hfree hw h hp (by rw [hdone]; rfl)
      obtain ⟨c₁, c₂, hbefore, hselect, hafter, hperm⟩ := hfanned.read
      rw [← harticle]
      refine .inr ⟨found, c₁, c₂, hbefore, hselect, hafter, fun sub hsub => ?_⟩
      rcases hfanned.owed sub (hperm.mem_iff.mpr hsub) with ⟨rest, hpublish, -⟩ | hdelivery
      · rw [hdone] at hpublish
        cases hpublish
      · obtain ⟨q, job, hq, hmessage⟩ := hdelivery.taken hrest.waiting
        obtain ⟨j, found, rfl, hpair⟩ := of_message_delivery hmessage
        have htried : Tried j.task (c.shared.state.log.rows j.pair) := tried_of_reach hfree hw h hq
        rw [hpair] at htried
        exact ⟨q, j, found, hq, hpair, htried.settled (hrest.ended q _ hq)⟩
    · exact .inl hfailed

/-! ### One entry -/

/-- The slots the run needs: one for the entry, one for the chain, one for the mail. -/
inductive Slot
  | entry
  | chain
  | mail
  deriving DecidableEq

/-- An entry is queued, and one user has subscribed. -/
def oneEntry : Jobs Slot where
  shared := ⟨⟨Db.empty, [], [], [], [mailRow 3 1 "me@example.org".toList], [(1, false)],
    ⟨0, fun _ => none, fun _ => none, fun _ => []⟩⟩, [.entry 1 (storyWith "g".toList "h".toList)]⟩
  loc _ := none

/-- It becomes an article, has its chain, and is sent. -/
def oneMail : List (Move Slot (PoolAction Action Message) Outside) :=
  [.proc .entry (.take (.entry 1 (storyWith "g".toList "h".toList)))] ++
    ([.insert 5, .claim 6, .send false, .ack] : List ProcessArticle.Action).map
      (fun a => .proc .entry (.run (.upsert a))) ++
    [.proc .chain (.take (.chain 1))] ++
    ([.get, .load [], .lookup, .select [3], .publish false, .publish false] : List Tagging.Action).map
      (fun a => .proc .chain (.run (.chain a))) ++
    [.proc .mail (.take (.delivery (3, 1))), .proc .mail (.run .subscription)] ++
    ([.load (some (mailRow 3 1 "me@example.org".toList)), .capture, .claim, .send (.mail (.ok ())),
      .record, .notify true] : List Deliver.Action).map fun a => .proc .mail (.run (.delivery a))

/-- What the run leaves behind. -/
def leaves (c : Jobs Slot) : List (ℕ × Option Time) × Bool × List (Option Bool) :=
  (c.shared.state.db.rows.map fun r => (r.id, r.processedAt), c.shared.waiting.isEmpty,
    [c.loc .entry, c.loc .chain, c.loc .mail].map (Option.map Job.isOver))

theorem oneMail_keepsClaims (c : Jobs Slot) :
    Along (next Tagging.plainTexts Digest.everything) KeepsClaims oneMail c := by
  refine along_of_forall (fun m hm c => ?_) c
  have hdie : ∀ p, m ≠ .proc p (.run (.upsert .die)) := by
    rintro p rfl
    simp [oneMail] at hm
  have henv : ∀ e, m ≠ .env e := by
    rintro e rfl
    simp [oneMail] at hm
  unfold KeepsClaims
  split
  · exact absurd rfl (hdie _)
  · exact absurd rfl (henv _)
  · trivial

theorem no_match_is_lost_mail :
    ∃ c, Reach (next Tagging.plainTexts Digest.everything) KeepsClaims oneEntry c ∧
      ∃ p t found, c.loc p = some (.chain t found) ∧ t.article = 1 := by
  have hrun : (exec (next Tagging.plainTexts Digest.everything) oneMail oneEntry).map leaves =
      some ([(1, some 6)], true, [some true, some true, some true]) := by decide
  obtain ⟨c, hreach, hleaves⟩ := Reach.exists_of_exec KeepsClaims hrun (oneMail_keepsClaims _)
  simp only [leaves, Prod.mk.injEq, List.map_cons, List.map_nil, List.cons.injEq, and_true,
    List.isEmpty_iff] at hleaves
  obtain ⟨hrows, hwaiting, hentry, hchain, hmail⟩ := hleaves
  have hover : ∀ p : Slot, (c.loc p).map Job.isOver = some true := by
    intro p
    cases p with
    | entry => exact hentry
    | chain => exact hchain
    | mail => exact hmail
  -- nothing waits and every slot has ended
  have hrest : AtRest c := by
    refine ⟨hwaiting, fun p job hp => ?_⟩
    have hjob := hover p
    rw [hp] at hjob
    exact Option.some.inj hjob
  -- the store was empty, so the one row is new
  obtain ⟨r, hr, hrow⟩ := List.mem_map.mp (hrows ▸ List.mem_singleton_self (1, some (6 : Time)))
  obtain ⟨hid, hset⟩ := Prod.mk.inj hrow
  have hset' : r.processedAt ≠ none := by
    rw [hset]
    exact Option.some_ne_none _
  obtain ⟨p, t, found, hp, harticle, -⟩ := no_match_is_lost (fun _ => rfl) WellFormed.empty hreach
    hrest hr hset' (fun r₀ hr₀ => (nomatch hr₀))
  exact ⟨c, hreach, p, t, found, hp, harticle.trans hid⟩

end Pipeline
