/-
Is every article announced?

`process_article` claims the article (`processed_at`), queues the
tag-and-fan-out chain, and undoes the claim when queueing raises.  The runs are
those of `Newsforge.ProcessArticle`: any number of tasks, workers killed at any
point, messages redelivered.

Main results: `claimed_article_is_announced` (as long as no worker dies while
it holds a claim, a claimed article was announced or has a live holder) and
`death_before_queueing` (a worker that dies in between leaves an article that
no redelivery announces).
-/
import Newsforge.ProcessArticle

open Tables Runs

namespace ProcessArticle

open ArticleTable

/-! ### Claims and their holders -/

/-- The article whose claim a task holds. -/
def Phase.holds : Phase → Option Nat
  | .send res | .release res => some res.articleId
  | _ => none

/-- A processed row was processed before the step, and not released by it, or
the step claimed it. -/
theorem Effect.processed_before {a : Action} {t t' : Task} {w w' : World}
    (h : Effect a t w t' w') {r' : Article} (hr' : r' ∈ w'.db.rows)
    (hset : r'.processedAt ≠ none) :
    (∃ r ∈ w.db.rows, r.id = r'.id ∧ r.processedAt ≠ none ∧
        (a = .release → t.phase.holds ≠ some r.id)) ∨
      t'.phase.holds = some r'.id := by
  cases h with
  | inserted now =>
    rcases List.mem_append.mp hr' with hr | hr
    · exact .inl ⟨r', hr, rfl, hset, fun ha => by cases ha⟩
    · rw [List.mem_singleton.mp hr] at hset
      exact absurd rfl hset
  | edited now x =>
    obtain ⟨r, hr, rfl⟩ := mem_updateWhere.mp hr'
    refine .inl ⟨r, hr, ?_, ?_, fun ha => by cases ha⟩
    · split <;> rfl
    · intro hopen
      apply hset
      split <;> exact hopen
  | touched now x =>
    obtain ⟨r, hr, rfl⟩ := mem_updateWhere.mp hr'
    refine .inl ⟨r, hr, ?_, ?_, fun ha => by cases ha⟩
    · split <;> rfl
    · intro hopen
      apply hset
      split <;> exact hopen
  | claimed now res =>
    obtain ⟨r, hr, rfl⟩ := mem_updateWhere.mp hr'
    by_cases hid : (r.id == res.articleId) = true
    · rw [if_pos hid]
      refine .inr ?_
      show some res.articleId = some r.id
      rw [beq_iff_eq.mp hid]
    · rw [if_neg hid] at hset ⊢
      exact .inl ⟨r, hr, rfl, hset, fun ha => by cases ha⟩
  | released res hphase =>
    obtain ⟨r, hr, rfl⟩ := mem_updateWhere.mp hr'
    by_cases hid : (r.id == res.articleId) = true
    · rw [if_pos hid] at hset
      exact absurd rfl hset
    · rw [if_neg hid] at hset ⊢
      refine .inl ⟨r, hr, rfl, hset, fun _ hheld => hid ?_⟩
      rw [hphase] at hheld
      exact beq_iff_eq.mpr (Option.some_inj.mp hheld).symm
  | conflicted | unedited | lost | unclaimed | queued | raised | acked | died | redelivered =>
    exact .inl ⟨r', hr', rfl, hset, fun ha => by cases ha⟩

/-- A processed row stays processed, unless the task released it and failed. -/
theorem Effect.processed_after {a : Action} {t t' : Task} {w w' : World}
    (h : Effect a t w t' w') {r : Article} (hr : r ∈ w.db.rows) (hset : r.processedAt ≠ none) :
    (∃ r' ∈ w'.db.rows, r'.id = r.id ∧ r'.processedAt ≠ none) ∨ t'.phase = .failed .send := by
  have hupdate : ∀ (id : Nat) (f : Article → Article), (∀ x, (f x).id = x.id) →
      (∀ x, x.processedAt ≠ none → (f x).processedAt ≠ none) →
      ∃ r' ∈ updateWhere (fun x => x.id == id) f w.db.rows, r'.id = r.id ∧
        r'.processedAt ≠ none := by
    intro id f hid hf
    by_cases he : r.id = id
    · exact ⟨f r, mem_updateWhere_of hr (by simpa using he), hid r, hf r hset⟩
    · exact ⟨r, mem_updateWhere_of_not hr (by simpa using he), rfl, hset⟩
  cases h with
  | inserted => exact .inl ⟨r, List.mem_append_left _ hr, rfl, hset⟩
  | edited now x => exact .inl (hupdate x.id _ (fun _ => rfl) fun _ hx => hx)
  | touched now x => exact .inl (hupdate x.id _ (fun _ => rfl) fun _ hx => hx)
  | claimed now res =>
    exact .inl (hupdate res.articleId _ (fun _ => rfl) fun _ _ => Option.some_ne_none _)
  | released => exact .inr rfl
  | conflicted | unedited | lost | unclaimed | queued | raised | acked | died | redelivered =>
    exact .inl ⟨r, hr, rfl, hset⟩

/-- A holder goes on holding, or has queued the chain, unless it releases the
claim or dies. -/
theorem Effect.holds_after {a : Action} {t t' : Task} {w w' : World} (h : Effect a t w t' w')
    {id : Nat} (hheld : t.phase.holds = some id) (hdie : a ≠ .die) (hrelease : a ≠ .release) :
    t'.phase.holds = some id ∨ id ∈ w'.queued := by
  cases h with
  | queued res hphase =>
    rw [hphase] at hheld
    cases hheld
    exact .inr List.mem_cons_self
  | raised res hphase =>
    rw [hphase] at hheld
    exact .inl hheld
  | released => exact absurd rfl hrelease
  | died => exact absurd rfl hdie
  | inserted _ hphase => simp [hphase, Phase.holds] at hheld
  | conflicted _ hphase => simp [hphase, Phase.holds] at hheld
  | edited _ _ hphase => simp [hphase, Phase.holds] at hheld
  | unedited _ _ hphase => simp [hphase, Phase.holds] at hheld
  | touched _ _ hphase => simp [hphase, Phase.holds] at hheld
  | lost _ hphase => simp [hphase, Phase.holds] at hheld
  | claimed _ _ _ hphase => simp [hphase, Phase.holds] at hheld
  | unclaimed _ _ hphase => simp [hphase, Phase.holds] at hheld
  | acked _ hphase => simp [hphase, Phase.holds] at hheld
  | redelivered hphase => simp [hphase, Phase.holds] at hheld

/-- What is queued stays queued. -/
theorem Effect.queued_subset {a : Action} {t t' : Task} {w w' : World} (h : Effect a t w t' w') :
    w.queued ⊆ w'.queued := by
  intro id hid
  cases h with
  | queued res => exact List.mem_cons_of_mem _ hid
  | _ => exact hid

/-- A task that failed takes no further step. -/
theorem Effect.not_failed {a : Action} {t t' : Task} {w w' : World} (h : Effect a t w t' w')
    (e : TaskError) : t.phase ≠ .failed e := by
  intro hf
  cases h with
  | died hlive =>
    rw [hf] at hlive
    cases hlive
  | inserted _ hphase => rw [hphase] at hf; cases hf
  | conflicted _ hphase => rw [hphase] at hf; cases hf
  | edited _ _ hphase => rw [hphase] at hf; cases hf
  | unedited _ _ hphase => rw [hphase] at hf; cases hf
  | touched _ _ hphase => rw [hphase] at hf; cases hf
  | lost _ hphase => rw [hphase] at hf; cases hf
  | claimed _ _ _ hphase => rw [hphase] at hf; cases hf
  | unclaimed _ _ hphase => rw [hphase] at hf; cases hf
  | queued _ hphase => rw [hphase] at hf; cases hf
  | raised _ hphase => rw [hphase] at hf; cases hf
  | released _ hphase => rw [hphase] at hf; cases hf
  | acked _ hphase => rw [hphase] at hf; cases hf
  | redelivered hphase => rw [hphase] at hf; cases hf

/-! ### The invariant -/

variable {ι : Type*} [DecidableEq ι]

/-- No worker dies while its task holds a claim: between a successful
`claim_processing` and the end of `article_created.send` or of
`release_processing`. -/
def NoDeathWhileHolding (c : Tasks ι) : Move ι Action Empty → Prop
  | .proc p .die => (c.loc p).phase.holds = none
  | _ => True

/-- The chain of every processed article was queued. -/
def Announced (w : World) : Prop :=
  ∀ r ∈ w.db.rows, r.processedAt ≠ none → r.id ∈ w.queued

/-- The upsert and the claim of a task are behind it. -/
def Phase.past : Phase → Option UpsertResult
  | .ack res | .finished res => some res
  | _ => none

/-- `held`: a processed article was announced, or a live task holds its claim.
`past`: a task that is past its claim left its article processed or announced,
unless some task failed to queue it. -/
structure ClaimsHeld (c : Tasks ι) : Prop where
  table : WellFormed c.shared.db
  located : ∀ p, Located (c.loc p) c.shared
  held : ∀ r ∈ c.shared.db.rows, r.processedAt ≠ none →
    r.id ∈ c.shared.queued ∨ ∃ p, (c.loc p).phase.holds = some r.id
  past : ∀ p res, (c.loc p).phase.past = some res →
    (∃ r ∈ c.shared.db.rows, r.id = res.articleId ∧ r.processedAt ≠ none) ∨
      res.articleId ∈ c.shared.queued ∨ ∃ q, (c.loc q).phase = .failed .send

theorem ClaimsHeld.step {c : Tasks ι} {p : ι} {a : Action} {t : Task} {w : World}
    (hc : ClaimsHeld c) (hok : NoDeathWhileHolding c (.proc p a))
    (hstep : step a (c.loc p) c.shared = some (t, w)) :
    ClaimsHeld ⟨w, Function.update c.loc p t⟩ := by
  have he := step_effect hc.table hstep
  have hown : ∀ q, (Function.update c.loc p t) q = if q = p then t else c.loc q := by
    intro q
    by_cases hq : q = p
    · subst hq
      simp
    · simp [hq]
  -- a failed task is still failed
  have hfailed : ∀ q, (c.loc q).phase = .failed .send →
      ((Function.update c.loc p t) q).phase = .failed .send := by
    intro q hq
    have hqp : q ≠ p := fun h => he.not_failed .send (h ▸ hq)
    rw [hown, if_neg hqp, hq]
  have hkeep : ∀ res : UpsertResult,
      ((∃ r ∈ c.shared.db.rows, r.id = res.articleId ∧ r.processedAt ≠ none) ∨
        res.articleId ∈ c.shared.queued ∨ ∃ q, (c.loc q).phase = .failed .send) →
      (∃ r ∈ w.db.rows, r.id = res.articleId ∧ r.processedAt ≠ none) ∨
        res.articleId ∈ w.queued ∨ ∃ q, ((Function.update c.loc p t) q).phase = .failed .send := by
    rintro res (⟨r, hr, hid, hset⟩ | hqueued | ⟨q, hq⟩)
    · rcases he.processed_after hr hset with ⟨r', hr', hid', hset'⟩ | hfail
      · exact .inl ⟨r', hr', hid'.trans hid, hset'⟩
      · refine .inr (.inr ⟨p, ?_⟩)
        rw [hown, if_pos rfl, hfail]
    · exact .inr (.inl (he.queued_subset hqueued))
    · exact .inr (.inr ⟨q, hfailed q hq⟩)
  refine ⟨he.wellFormed hc.table, fun q => ?_, fun r' hr' hset' => ?_, fun q res hpast => ?_⟩
  · show Located ((Function.update c.loc p t) q) w
    rw [hown]
    split
    · exact (hc.located p).effect_own he
    · exact (hc.located q).effect_other he
  · -- `held`: the row was processed before, or the step claimed it
    rcases he.processed_before hr' hset' with ⟨r, hr, hid, hset, hrel⟩ | heveryed
    · rcases hc.held r hr hset with hqueued | ⟨q, hq⟩
      · exact .inl (hid ▸ he.queued_subset hqueued)
      · by_cases hqp : q = p
        · subst hqp
          have hdie : a ≠ .die := by
            rintro rfl
            rw [show (c.loc q).phase.holds = none from hok] at hq
            cases hq
          -- the mover was the holder: it goes on holding, or has queued the chain
          rcases he.holds_after hq hdie (fun ha => hrel ha hq) with hheld | hqueued
          · refine .inr ⟨q, ?_⟩
            show ((Function.update c.loc q t) q).phase.holds = _
            rw [hown, if_pos rfl, hheld, hid]
          · exact .inl (hid ▸ hqueued)
        · refine .inr ⟨q, ?_⟩
          show ((Function.update c.loc p t) q).phase.holds = _
          rw [hown, if_neg hqp, hq, hid]
    · refine .inr ⟨p, ?_⟩
      show ((Function.update c.loc p t) p).phase.holds = _
      rw [hown, if_pos rfl, heveryed]
  · -- `past`: the mover came past its claim now, or what was known stays known
    change ((Function.update c.loc p t) q).phase.past = some res at hpast
    rw [hown] at hpast
    by_cases hqp : q = p
    · rw [if_pos hqp] at hpast
      cases he with
      | unclaimed now res' hphase htaken =>
        cases hpast
        obtain ⟨r, hr, hid, -⟩ := hc.located p res (by rw [hphase]; rfl)
        exact .inl ⟨r, hr, hid, htaken r hr hid⟩
      | queued res' hphase =>
        cases hpast
        exact .inr (.inl List.mem_cons_self)
      | acked res' hphase =>
        cases hpast
        exact hkeep res (hc.past p res (by rw [hphase]; rfl))
      | _ => cases hpast
    · rw [if_neg hqp] at hpast
      exact hkeep res (hc.past q res hpast)

theorem claimsHeld_of_reach {c₀ c : Tasks ι} (h0 : Initial c₀) (hann : Announced c₀.shared)
    (h : Reach next NoDeathWhileHolding c₀ c) : ClaimsHeld c := by
  refine h.invariant ⟨h0.table, fun p res hres => ?_, fun r hr hset => ?_, fun p res hpast => ?_⟩ ?_
  · rw [h0.phases p] at hres
    cases hres
  · exact .inl (hann r hr hset)
  · rw [h0.phases p] at hpast
    cases hpast
  · intro c m c' hc hok hnext
    cases m with
    | proc p a =>
      obtain ⟨t, w, hstep, rfl⟩ := Config.next_proc.mp hnext
      exact hc.step hok hstep
    | env e => exact e.elim

/-- **While no worker dies holding a claim, no article stays un-announced.**
A processed article was announced or has a live holder; and once every task
that started has finished without an exception, the article of each of them
was announced. -/
theorem claimed_article_is_announced {c₀ c : Tasks ι} (h0 : Initial c₀)
    (hann : Announced c₀.shared) (h : Reach next NoDeathWhileHolding c₀ c) :
    (∀ r ∈ c.shared.db.rows, r.processedAt ≠ none →
        r.id ∈ c.shared.queued ∨ ∃ p, (c.loc p).phase.holds = some r.id) ∧
      ((∀ p, (c.loc p).phase = .insert ∨ ∃ res, (c.loc p).phase = .finished res) →
        ∀ p res, (c.loc p).phase = .finished res → res.articleId ∈ c.shared.queued) := by
  have hc := claimsHeld_of_reach h0 hann h
  refine ⟨hc.held, fun hall p res hp => ?_⟩
  rcases hc.past p res (by rw [hp]; rfl) with ⟨r, hr, hid, hset⟩ | hqueued | ⟨q, hq⟩
  · rcases hc.held r hr hset with hqueued | ⟨q, hq⟩
    · exact hid ▸ hqueued
    · -- no task is left that could hold the claim
      rcases hall q with hphase | ⟨res', hphase⟩
      · rw [hphase] at hq
        cases hq
      · rw [hphase] at hq
        cases hq
  · exact hqueued
  · rcases hall q with hphase | ⟨res', hphase⟩
    · rw [hphase] at hq
      cases hq
    · rw [hphase] at hq
      cases hq

/-! ### A worker that dies with the claim -/

/-- Two deliveries of one entry. -/
def twoDeliveries : Tasks (Fin 2) where
  shared := ⟨Db.empty, []⟩
  loc := fun _ => ⟨1, storyWith "a".toList "old".toList, .insert⟩

theorem twoDeliveries_initial : Initial twoDeliveries :=
  ⟨WellFormed.empty, fun _ => rfl⟩

theorem twoDeliveries_announced : Announced twoDeliveries.shared := by
  intro r hr
  exact absurd hr List.not_mem_nil

instance {n : Nat} (c : Tasks (Fin n)) :
    (m : Move (Fin n) Action Empty) → Decidable (NoDeathWhileHolding c m)
  | .proc p .die => inferInstanceAs (Decidable ((c.loc p).phase.holds = none))
  | .proc _ (.edit _ _) | .proc _ (.insert _) | .proc _ (.touch _) | .proc _ (.claim _)
  | .proc _ (.send _) | .proc _ .release | .proc _ .ack | .proc _ .redeliver => isTrue trivial

/-- The first worker dies right before its claim and the message is
redelivered; the second task, a duplicate, claims the article and announces it. -/
def deathBeforeClaim : List (Move (Fin 2) Action Empty) :=
  [.proc 0 (.insert 1), .proc 0 .die, .proc 1 (.insert 2), .proc 1 (.edit 3 false),
    .proc 1 (.touch 4), .proc 1 (.claim 5), .proc 1 (.send false), .proc 1 .ack,
    .proc 0 .redeliver, .proc 0 (.insert 6), .proc 0 (.edit 7 false), .proc 0 (.touch 8),
    .proc 0 (.claim 9), .proc 0 .ack]

theorem claimed_article_is_announced_duplicate :
    ∃ c, Reach next NoDeathWhileHolding twoDeliveries c ∧
      (∀ p, (c.loc p).phase = .finished ⟨1, false, false⟩) ∧ 1 ∈ c.shared.queued := by
  have hrun : ((exec next deathBeforeClaim twoDeliveries).map
      fun c => decide (∀ p, (c.loc p).phase = .finished ⟨1, false, false⟩)) = some true := by
    decide
  obtain ⟨c, hreach, hfin⟩ := Reach.exists_of_exec NoDeathWhileHolding hrun (by decide)
  have hfin : ∀ p, (c.loc p).phase = .finished ⟨1, false, false⟩ := of_decide_eq_true hfin
  refine ⟨c, hreach, hfin, ?_⟩
  exact (claimed_article_is_announced twoDeliveries_initial twoDeliveries_announced hreach).2
    (fun p => .inr ⟨_, hfin p⟩) 0 _ (hfin 0)

/-- The worker of the first task dies between its claim and
`article_created.send`; the redelivered task and a duplicate find the article
processed and end normally. -/
def deathAfterClaim : List (Move (Fin 2) Action Empty) :=
  [.proc 0 (.insert 1), .proc 0 (.claim 2), .proc 0 .die, .proc 0 .redeliver,
    .proc 0 (.insert 3), .proc 0 (.edit 4 false), .proc 0 (.touch 5), .proc 0 (.claim 6),
    .proc 0 .ack, .proc 1 (.insert 7), .proc 1 (.edit 8 false), .proc 1 (.touch 9),
    .proc 1 (.claim 10), .proc 1 .ack]

/-- Every task has finished without an exception, and nothing was queued. -/
theorem death_before_queueing :
    ¬ ∀ c, Reach next anyMove twoDeliveries c →
      (∀ p, ∃ res, (c.loc p).phase = .finished res) →
      ∀ p res, (c.loc p).phase = .finished res → res.articleId ∈ c.shared.queued := by
  intro hall
  have hrun : ((exec next deathAfterClaim twoDeliveries).map fun c =>
      decide (∀ p, (c.loc p).phase = .finished ⟨1, false, false⟩) && c.shared.queued.isEmpty) =
      some true := by decide
  obtain ⟨c, hreach, hend⟩ := Reach.exists_of_exec anyMove hrun (along_anyMove _ _)
  rw [Bool.and_eq_true, decide_eq_true_eq, List.isEmpty_iff] at hend
  have hmem := hall c hreach (fun p => ⟨_, hend.1 p⟩) 0 _ (hend.1 0)
  rw [hend.2] at hmem
  exact List.not_mem_nil hmem

end ProcessArticle
