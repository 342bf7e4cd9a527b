/-
From an entry of a feed to the deliveries, as one system.

A queued entry starts `process_article`, which queues the chain of a new article
(`apply_tag_rules`, then `fanout_instant`), which queues a `deliver` for each
subscription.  The tasks are those of `Newsforge.ProcessArticle`, `Newsforge.TagEngine` and
`Newsforge.DeliveryLog`, here on one database and one broker.

* `Database`, `Message` — the database with the delivery log, and what is queued;
* `Job`, `step` — a task of any of the three kinds, and one step of it;
* `outside` — feeds bring entries, staff and owners write their tables, the cleanup hides
  articles, time passes; the rows of the log go with their subscription;
* `next` — any number of slots, each with the message it takes, as in `Newsforge.Pools`.

A chain remembers in `found` what the query of its fan-out brought, until its worker dies.

Main result: `stepped`, what a step of a job does.
-/
import Newsforge.Announcement
import Newsforge.Cleanup
import Newsforge.DeliveryLog
import Newsforge.Pools
import Newsforge.TagEngine

open Tables Runs

namespace Pipeline

open ArticleTable Subscriptions

/-! ### Database and broker -/

/-- The database. -/
structure Database where
  db : Db
  tags : List ℕ
  rules : List Tagging.TagRule
  links : List (ℕ × ℕ)
  subs : List Subscription
  feeds : List (ℕ × Bool)
  log : Deliver.LogWorld

/-- What is queued: an entry of a feed, the chain of an article, or a delivery. -/
inductive Message
  | entry (feedId : ℕ) (entry : NormalizedEntry)
  | chain (article : ℕ)
  | delivery (pair : Deliver.Pair)
  deriving DecidableEq

/-- The part of the database that `process_article` sees. -/
def Database.articles (w : Database) : ProcessArticle.World := ⟨w.db, []⟩

/-- The part of the database that a chain sees. -/
def Database.tagging (w : Database) : Tagging.World :=
  ⟨w.db.rows, w.tags, w.rules, w.links, w.subs, w.feeds, []⟩

/-- The tables but the articles, as they are now. -/
def Database.withTagging (w : Database) (v : Tagging.World) : Database :=
  { w with tags := v.tags, rules := v.rules, links := v.links, subs := v.subs, feeds := v.feeds }

/-- The first query of `deliver`: an active subscription. -/
def Database.subscription (w : Database) (id : ℕ) : Option Subscription :=
  w.subs.find? fun sub => sub.id == id && sub.isActive

/-- The second query of `deliver`: a live article of a live feed. -/
def Database.hasArticle (w : Database) (id : ℕ) : Bool :=
  w.db.rows.any fun a => a.id == id && !a.isDeleted && w.feeds.contains (a.feedId, false)

/-- A task with its message; a delivery with what its first query has brought, until the
second one. -/
inductive Job
  | upsert (t : ProcessArticle.Task)
  | chain (t : Tagging.Task) (found : List ℕ)
  | delivery (j : Deliver.Job) (sub : Option (Option Subscription))

/-- The message a task was started with. -/
def Job.message : Job → Message
  | .upsert t => .entry t.feedId t.entry
  | .chain t _ => .chain t.article
  | .delivery j _ => .delivery j.pair

def start : Message → Job
  | .entry feedId entry => .upsert ⟨feedId, entry, .insert⟩
  | .chain article => .chain ⟨article, [], [], .start⟩ []
  | .delivery pair => .delivery ⟨pair, .load, 0⟩ none

/-! ### Steps -/

inductive Action
  | upsert (a : ProcessArticle.Action)
  | chain (a : Tagging.Action)
  /-- the first query of `deliver` -/
  | subscription
  | delivery (a : Deliver.Action)

/-- What a chain remembers of its fan-out. -/
def remember : Tagging.Action → List ℕ → List ℕ
  | .select ids, _ => ids
  | .die, _ => []
  | _, found => found

/-- What the database lets a delivery do.  With the second query, `deliver` has what both
brought. -/
def reads (w : Database) (k : Deliver.Pair) (sub : Option (Option Subscription)) :
    Deliver.Action → Bool
  | .load found =>
    match sub with
    | some sub => found == if w.hasArticle k.2 then sub else none
    | none => false
  -- the row refers to its subscription; a claim that comes too late is not modelled
  | .claim => w.subs.any fun sub => sub.id == k.1
  | _ => true

/-- One step of a job, and what it queues. -/
def step (k : Normalizer.Tools) (pg : Digest.Postgres) :
    Action → Job → Database → Option (Job × Database × List Message)
  | .upsert a, .upsert t, w =>
    (ProcessArticle.step a t w.articles).map fun r =>
      (.upsert r.1, { w with db := r.2.db }, r.2.queued.map .chain)
  | .chain a, .chain t found, w =>
    (Tagging.step k pg a t w.tagging).map fun r =>
      (.chain r.1 (remember a found), w.withTagging r.2, r.2.queued.map .delivery)
  | .subscription, .delivery j sub, w =>
    match j.task.phase, sub with
    | .load, none => some (.delivery j (some (w.subscription j.pair.1)), w, [])
    | _, _ => none
  | .delivery a, .delivery j sub, w =>
    if reads w j.pair sub a then
      (Deliver.stepJob a j w.log).map fun r => (.delivery r.1 none, { w with log := r.2 }, [])
    else none
  | _, _, _ => none

/-- Whether a write of the subscriptions deletes the one with this id. -/
def deletes (old subs : List Subscription) (id : ℕ) : Bool :=
  (old.any fun sub => sub.id == id) && !subs.any fun sub => sub.id == id

/-- `on_delete=CASCADE`: the rows of a subscription go with it. -/
def cascade (old subs : List Subscription) (log : Deliver.LogWorld) : Deliver.LogWorld :=
  { log with rows := fun k => if deletes old subs k.1 then none else log.rows k }

/-- What anyone else does: `fetch_feed` queues an entry, staff and owners write their tables,
`cleanup_old_articles` hides articles, and time passes. -/
inductive Outside
  | fetched (feedId : ℕ) (entry : NormalizedEntry)
  | staff (e : Tagging.Outside)
  | cleanup (ids : List ℕ)
  | elapse (time : ℕ)

def outside : Outside → Database → Option (Database × List Message)
  | .fetched feedId entry, w => some (w, [.entry feedId entry])
  -- nobody writes articles by hand
  | .staff (.write _), _ => none
  | .staff (.setSubs subs), w =>
    some ({ w with subs := subs, log := cascade w.subs subs w.log }, [])
  | .staff e, w => (Tagging.outside e w.tagging).map fun v => (w.withTagging v, [])
  | .cleanup ids, w => some ({ w with db := ArticleCleanup.hide ids w.db }, [])
  | .elapse time, w => some ({ w with log := { w.log with clock := w.log.clock + time } }, [])

/-- The tasks as they answer messages. -/
def handler (k : Normalizer.Tools) (pg : Digest.Postgres) : Handler Database Job Action Message :=
  ⟨start, step k pg⟩

abbrev Jobs (ι : Type*) := Pool ι Database Job Message

def next {ι : Type*} [DecidableEq ι] (k : Normalizer.Tools) (pg : Digest.Postgres) :
    Move ι (PoolAction Action Message) Outside → Jobs ι → Option (Jobs ι) :=
  poolNext (handler k pg) outside

/-! ### What a step does -/

/-- What a step of a job does. -/
inductive Stepped (k : Normalizer.Tools) (pg : Digest.Postgres) (w : Database) :
    Action → Job → Job → Database → List Message → Prop
  | upsert (a : ProcessArticle.Action) (t t' : ProcessArticle.Task) (v : ProcessArticle.World)
      (heffect : ProcessArticle.Effect a t w.articles t' v) :
      Stepped k pg w (.upsert a) (.upsert t) (.upsert t') { w with db := v.db }
        (v.queued.map .chain)
  | chain (a : Tagging.Action) (t t' : Tagging.Task) (found : List ℕ) (v : Tagging.World)
      (hstep : Tagging.step k pg a t w.tagging = some (t', v)) :
      Stepped k pg w (.chain a) (.chain t found) (.chain t' (remember a found)) (w.withTagging v)
        (v.queued.map .delivery)
  | subscription (j : Deliver.Job) (hphase : j.task.phase = .load) :
      Stepped k pg w .subscription (.delivery j none)
        (.delivery j (some (w.subscription j.pair.1))) w []
  | delivery (a : Deliver.Action) (j : Deliver.Job) (sub : Option (Option Subscription))
      (t : Deliver.Task) (v : Deliver.World)
      (heffect : Deliver.Effect a j.task (w.log.view j.pair) t v)
      (hreads : reads w j.pair sub a = true) :
      Stepped k pg w (.delivery a) (.delivery j sub) (.delivery ⟨j.pair, t⟩ none)
        { w with log := w.log.write j.pair v } []

variable {k : Normalizer.Tools} {pg : Digest.Postgres} {a : Action} {job job' : Job}
  {w w' : Database} {sent : List Message}

theorem stepped (hw : WellFormed w.db) (h : step k pg a job w = some (job', w', sent)) :
    Stepped k pg w a job job' w' sent := by
  cases a with
  | upsert a =>
    cases job with
    | upsert t =>
      obtain ⟨⟨t', v⟩, hstep, heq⟩ := Option.map_eq_some_iff.mp h
      cases heq
      exact .upsert a t t' v (ProcessArticle.step_effect hw hstep)
    | chain | delivery => cases h
  | chain a =>
    cases job with
    | chain t found =>
      obtain ⟨⟨t', v⟩, hstep, heq⟩ := Option.map_eq_some_iff.mp h
      cases heq
      exact .chain a t t' found v hstep
    | upsert | delivery => cases h
  | subscription =>
    cases job with
    | delivery j sub =>
      simp only [step.eq_def] at h
      split at h
      · rename_i hphase
        cases h
        exact .subscription j hphase
      · cases h
    | upsert | chain => cases h
  | delivery a =>
    cases job with
    | delivery j sub =>
      rw [step] at h
      split at h
      · rename_i hreads
        obtain ⟨⟨j', log⟩, hstep, heq⟩ := Option.map_eq_some_iff.mp h
        cases heq
        obtain ⟨t, v, heffect, rfl, rfl⟩ := Deliver.stepJob_effect hstep
        exact .delivery a j sub t v heffect hreads
      · cases h
    | upsert | chain => cases h

end Pipeline
