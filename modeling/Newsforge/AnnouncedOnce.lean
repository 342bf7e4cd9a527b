/-
No article is announced twice.

`release_processing` clears a claim without a look at who has it.  The runs are
those of `Newsforge.ProcessArticle`: any number of tasks, workers killed at any
point, messages redelivered, and a signal that may raise instead of queueing.

* `QueuedOnce` — the chains that were queued: each once, and only of processed
  articles;
* `HoldsOpen` — who holds a claim holds it on a processed article whose chain
  was not queued;
* `NotBoth` — no two tasks hold the claim of one article.

Main result: `announced_at_most_once`.
-/
import Newsforge.Announcement

open Tables Runs

namespace ProcessArticle

open ArticleTable

/-! ### Claims and queued chains -/

/-- The article is there, and is marked as processed. -/
def Processed (id : Nat) (w : World) : Prop :=
  ∃ r ∈ w.db.rows, r.id = id ∧ r.processedAt ≠ none

/-- The chain of an article is queued once, and while the article is processed. -/
structure QueuedOnce (w : World) : Prop where
  table : WellFormed w.db
  nodup : w.queued.Nodup
  processed : ∀ id ∈ w.queued, Processed id w

/-- A claim is held on a processed article whose chain was not queued. -/
def HoldsOpen (t : Task) (w : World) : Prop :=
  ∀ id, t.phase.holds = some id → id ∉ w.queued ∧ Processed id w

/-- Not both tasks hold the claim of one article. -/
def NotBoth (t u : Task) : Prop :=
  ∀ id, t.phase.holds = some id → u.phase.holds ≠ some id

theorem NotBoth.symm {t u : Task} (h : NotBoth t u) : NotBoth u t :=
  fun id hu ht => h id ht hu

/-- Only its holder makes a processed article unprocessed. -/
theorem Effect.processed_kept {a : Action} {t t' : Task} {w w' : World} (h : Effect a t w t' w')
    {id : Nat} (hset : Processed id w) (hother : t.phase.holds ≠ some id) : Processed id w' := by
  obtain ⟨r, hr, rfl, hset⟩ := hset
  cases h with
  | released res hphase =>
    have hne : r.id ≠ res.articleId := by
      rintro heq
      apply hother
      rw [hphase, heq]
      rfl
    exact ⟨r, mem_updateWhere_of_not hr (by simpa using hne), rfl, hset⟩
  | inserted now => exact ⟨r, List.mem_append_left _ hr, rfl, hset⟩
  | edited now x =>
    by_cases hid : r.id = x.id
    · exact ⟨_, mem_updateWhere_of hr (by simpa using hid), rfl, hset⟩
    · exact ⟨r, mem_updateWhere_of_not hr (by simpa using hid), rfl, hset⟩
  | touched now x =>
    by_cases hid : r.id = x.id
    · exact ⟨_, mem_updateWhere_of hr (by simpa using hid), rfl, hset⟩
    · exact ⟨r, mem_updateWhere_of_not hr (by simpa using hid), rfl, hset⟩
  | claimed now res =>
    by_cases hid : r.id = res.articleId
    · exact ⟨_, mem_updateWhere_of hr (by simpa using hid), rfl, Option.some_ne_none now⟩
    · exact ⟨r, mem_updateWhere_of_not hr (by simpa using hid), rfl, hset⟩
  | conflicted | unedited | lost | unclaimed | queued | raised | acked | died | redelivered =>
    exact ⟨r, hr, rfl, hset⟩

/-- A holder after its step held the claim before, or has claimed the article,
which was open; it has queued nothing. -/
theorem Effect.holds_before {a : Action} {t t' : Task} {w w' : World} (hw : WellFormed w.db)
    (h : Effect a t w t' w') {id : Nat} (hheld : t'.phase.holds = some id) :
    w'.queued = w.queued ∧
      (t.phase.holds = some id ∧ w' = w ∨ ¬ Processed id w ∧ Processed id w') := by
  cases h with
  | raised res hphase =>
    refine ⟨rfl, .inl ⟨?_, rfl⟩⟩
    rw [hphase]
    exact hheld
  | claimed now res r hphase hr hid hopen =>
    cases hheld
    refine ⟨rfl, .inr ⟨?_, ?_⟩⟩
    · -- the row that was claimed is the only one with its id
      rintro ⟨x, hx, hxid, hset⟩
      rw [hw.eq_of_id hx hr (hxid.trans hid.symm)] at hset
      exact hset hopen
    · exact ⟨_, mem_updateWhere_of hr (by simpa using hid), hid, Option.some_ne_none now⟩
  | inserted | conflicted | edited | unedited | touched | lost | unclaimed | queued | released
  | acked | died | redelivered => cases hheld

/-- Only a holder queues a chain, and it then has its claim no more. -/
theorem Effect.queued_eq {a : Action} {t t' : Task} {w w' : World} (h : Effect a t w t' w') :
    w'.queued = w.queued ∨ ∃ id, t.phase.holds = some id ∧ w'.queued = id :: w.queued ∧
      w'.db = w.db := by
  cases h with
  | queued res hphase =>
    refine .inr ⟨res.articleId, ?_, rfl, rfl⟩
    rw [hphase]
    rfl
  | inserted | conflicted | edited | unedited | touched | lost | claimed | unclaimed | raised
  | released | acked | died | redelivered => exact .inl rfl

/-! ### What a step keeps -/

theorem QueuedOnce.effect {a : Action} {t t' : Task} {w w' : World} (hq : QueuedOnce w)
    (ht : HoldsOpen t w) (h : Effect a t w t' w') : QueuedOnce w' := by
  have htable := h.wellFormed hq.table
  rcases h.queued_eq with hsame | ⟨id, hheld, hnew, hdb⟩
  · refine ⟨htable, hsame ▸ hq.nodup, fun id hid => ?_⟩
    rw [hsame] at hid
    -- nobody holds the claim of an article whose chain was queued
    exact h.processed_kept (hq.processed id hid) fun hheld => (ht id hheld).1 hid
  · obtain ⟨hopen, hset⟩ := ht id hheld
    refine ⟨htable, ?_, fun x hx => ?_⟩
    · rw [hnew]
      exact List.nodup_cons.mpr ⟨hopen, hq.nodup⟩
    · rw [hnew] at hx
      have hxw : Processed x w := by
        rcases List.mem_cons.mp hx with rfl | hx
        · exact hset
        · exact hq.processed x hx
      rw [Processed, hdb]
      exact hxw

theorem HoldsOpen.effect_own {a : Action} {t t' : Task} {w w' : World} (hq : QueuedOnce w)
    (ht : HoldsOpen t w) (h : Effect a t w t' w') : HoldsOpen t' w' := by
  intro id hheld
  obtain ⟨hqueued, ⟨hbefore, rfl⟩ | ⟨hopen, hset⟩⟩ := h.holds_before hq.table hheld
  · exact ht id hbefore
  · refine ⟨fun hid => ?_, hset⟩
    rw [hqueued] at hid
    exact hopen (hq.processed id hid)

theorem HoldsOpen.effect_other {a : Action} {t t' u : Task} {w w' : World} (hu : HoldsOpen u w)
    (hne : NotBoth t u) (h : Effect a t w t' w') : HoldsOpen u w' := by
  intro id hheld
  obtain ⟨hopen, hset⟩ := hu id hheld
  have hother : t.phase.holds ≠ some id := fun ht => hne id ht hheld
  refine ⟨fun hid => ?_, h.processed_kept hset hother⟩
  rcases h.queued_eq with hsame | ⟨x, hx, hnew, -⟩
  · exact hopen (hsame ▸ hid)
  · rw [hnew] at hid
    rcases List.mem_cons.mp hid with rfl | hid
    · exact hother hx
    · exact hopen hid

theorem NotBoth.effect {a : Action} {t t' u : Task} {w w' : World} (hne : NotBoth t u)
    (hq : QueuedOnce w) (hu : HoldsOpen u w) (h : Effect a t w t' w') : NotBoth t' u := by
  intro id ht' hheld
  obtain ⟨-, ⟨hbefore, -⟩ | ⟨hopen, -⟩⟩ := h.holds_before hq.table ht'
  · exact hne id hbefore hheld
  · exact hopen (hu id hheld).2

/-! ### Runs -/

section Run

variable {ι : Type*} [DecidableEq ι] {c₀ c : Tasks ι}

/-- The invariant of all interleavings. -/
theorem queuedOnce_of_reach (h0 : Initial c₀) (hq : QueuedOnce c₀.shared)
    (h : Reach next anyMove c₀ c) : Config.Meets QueuedOnce HoldsOpen NotBoth c := by
  refine Config.invariant_of_assertions (fun _ _ => NotBoth.symm) ?_ ?_ ?_ ?_ ?_ h
  · intro c p a t w hc _ hstep
    have he := step_effect hc.shared.table hstep
    exact ⟨hc.shared.effect (hc.each p) he, (hc.each p).effect_own hc.shared he⟩
  · intro c p a t w q hc _ hstep hqp
    exact (hc.each q).effect_other (hc.pair p q hqp.symm) (step_effect hc.shared.table hstep)
  · intro c p a t w q hc _ hstep hqp
    exact (hc.pair p q hqp.symm).effect hc.shared (hc.each q)
      (step_effect hc.shared.table hstep)
  · intro _ e
    exact e.elim
  · refine ⟨hq, fun p id hheld => ?_, fun p q _ id hheld => ?_⟩
    · rw [h0.phases p] at hheld
      cases hheld
    · rw [h0.phases p] at hheld
      cases hheld

/-- **At most one announcement.**  The chain of an article is queued at most
once, whatever workers die.  And if all articles that were processed before are
announced, and no worker dies while it holds a claim, then whenever no task
holds one, exactly the articles whose chain was queued are processed. -/
theorem announced_at_most_once (h0 : Initial c₀) (hq : QueuedOnce c₀.shared) :
    (∀ c, Reach next anyMove c₀ c → ∀ id, c.shared.queued.count id ≤ 1) ∧
      (Announced c₀.shared → ∀ c, Reach next NoDeathWhileHolding c₀ c →
        (∀ p, (c.loc p).phase.holds = none) →
        ∀ r ∈ c.shared.db.rows, r.processedAt ≠ none ↔ r.id ∈ c.shared.queued) := by
  constructor
  · intro c hc id
    exact List.nodup_iff_count_le_one.mp (queuedOnce_of_reach h0 hq hc).shared.nodup id
  · intro hann c hc hfree r hr
    have hqueued := (queuedOnce_of_reach h0 hq (hc.mono fun _ _ _ => trivial)).shared
    constructor
    · intro hset
      rcases (claimsHeld_of_reach h0 hann hc).held r hr hset with hmem | ⟨p, hheld⟩
      · exact hmem
      · rw [hfree p] at hheld
        cases hheld
    · intro hmem
      obtain ⟨x, hx, hid, hset⟩ := hqueued.processed r.id hmem
      rwa [hqueued.table.eq_of_id hx hr hid] at hset

end Run

/-! ### A released claim -/

/-- The first task cannot queue the chain and gives its claim back; the second
delivery of the entry then announces it. -/
def releasedClaim {ι : Type} (first second : ι) : List (Move ι Action Empty) :=
  [.proc first (.insert 1), .proc first (.claim 2), .proc first (.send true),
    .proc first .release, .proc second (.insert 3), .proc second (.edit 4 false),
    .proc second (.touch 5), .proc second (.claim 6), .proc second (.send false),
    .proc second .ack]

theorem announced_at_most_once_released :
    ∃ c, Reach next NoDeathWhileHolding twoDeliveries c ∧ c.shared.queued.count 1 ≤ 1 ∧
      (c.loc 0).phase = .failed .send ∧ (c.loc 1).phase = .finished ⟨1, false, false⟩ ∧
      ∀ r ∈ c.shared.db.rows, r.processedAt ≠ none ↔ r.id ∈ c.shared.queued := by
  have hrun : ((exec next (releasedClaim 0 1) twoDeliveries).map fun c =>
      ((c.loc 0).phase, (c.loc 1).phase)) =
      some (.failed .send, .finished ⟨1, false, false⟩) := by
    decide
  obtain ⟨c, hreach, hend⟩ := Reach.exists_of_exec NoDeathWhileHolding hrun (by decide)
  have h0 : (c.loc 0).phase = .failed .send := congrArg Prod.fst hend
  have h1 : (c.loc 1).phase = .finished ⟨1, false, false⟩ := congrArg Prod.snd hend
  have honce : QueuedOnce twoDeliveries.shared :=
    ⟨WellFormed.empty, List.nodup_nil, fun _ hid => absurd hid List.not_mem_nil⟩
  have hmain := announced_at_most_once twoDeliveries_initial honce
  refine ⟨c, hreach, hmain.1 c (hreach.mono fun _ _ _ => trivial) 1, h0, h1, ?_⟩
  refine hmain.2 twoDeliveries_announced c hreach fun p => ?_
  match p with
  | 0 => rw [h0]; rfl
  | 1 => rw [h1]; rfl

end ProcessArticle
