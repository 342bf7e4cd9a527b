/-
The daily digest (`tasks/digest.py`).

* `Postgres`, `wanted`, `matchSql` — `_MATCH_SQL`;
* `since` — the lower bound of the window of a subscription;
* `Phase`, `advance` — `daily_digest`, statement by statement;
* `State`, `next` — its runs, one after another, next to inserts of articles
  and deletions of subscriptions;
* `Effect`, `advance_effect` — what each step of a run does, said once.

`World.windows` and `World.ended` are ghosts: the windows that runs have saved
for each subscription, and the `now` of the runs that ended; the newest first.
-/
import Mathlib.Data.List.Sort
import Newsforge.ArticleTable
import Newsforge.Runs
import Newsforge.Subscription
import Newsforge.Windows

open PyText Tables Runs Windows

namespace Digest

open ArticleTable SafeHttp Subscriptions

/-! ### The query -/

/-- `published_at DESC NULLS LAST`. -/
def NewestFirst : Option Time → Option Time → Prop
  | some a, some b => b ≤ a
  | _, none => True
  | none, some _ => False

/-- What PostgreSQL does for the query: `tsv @@ websearch_to_tsquery(…)` of an
article, and `ORDER BY`, which leaves ties open. -/
structure Postgres where
  tsMatch : Article → Text → Bool
  order : List Article → List Article
  perm : ∀ l, (order l).Perm l
  sorted : ∀ l, (order l).Pairwise fun a b => NewestFirst a.publishedAt b.publishedAt

/-- The tables a digest only reads: feeds with `is_deleted`, and the tags of
articles. -/
structure Catalog where
  feeds : List (ℕ × Bool)
  articleTags : List (ℕ × ℕ)

/-- `MAX_ARTICLES_PER_DIGEST`. -/
def maxArticlesPerDigest : ℕ := 100

/-- 24 hours in microseconds. -/
def day : Time := 86400000000

/-- The conditions of `_MATCH_SQL` but the window. -/
def wanted (pg : Postgres) (cat : Catalog) (sub : Subscription) (a : Article) : Bool :=
  (cat.feeds.any fun f => f.1 == a.feedId && !f.2) && !a.isDeleted && pg.tsMatch a sub.q &&
    (sub.feeds.isEmpty || sub.feeds.contains a.feedId) &&
      (sub.tagIds.isEmpty ||
        cat.articleTags.any fun t => t.1 == a.id && sub.tagIds.contains t.2)

/-- The articles of a window. -/
def matching (pg : Postgres) (cat : Catalog) (sub : Subscription) (w : Window Time)
    (articles : List Article) : List Article :=
  articles.filter fun a => wanted pg cat sub a && decide (w.Contains a.createdAt)

/-- `_MATCH_SQL`. -/
def matchSql (pg : Postgres) (cat : Catalog) (sub : Subscription) (w : Window Time)
    (articles : List Article) : List ℕ :=
  ((pg.order (matching pg cat sub w articles)).take maxArticlesPerDigest).map Article.id

/-- `sub.last_notified_at or now - timedelta(hours=24)`. -/
def since (sub : Subscription) (now : Time) : Time := sub.lastNotifiedAt.getD (now - day)

/-- The window of a run for a subscription it loaded. -/
def window (sub : Subscription) (now : Time) : Window Time := ⟨since sub now, now⟩

theorem mem_matching {pg : Postgres} {cat : Catalog} {sub : Subscription} {w : Window Time}
    {articles : List Article} {a : Article} :
    a ∈ matching pg cat sub w articles ↔
      a ∈ articles ∧ wanted pg cat sub a = true ∧ w.Contains a.createdAt := by
  rw [matching, List.mem_filter, Bool.and_eq_true, decide_eq_true_iff]

theorem length_matchSql_le (pg : Postgres) (cat : Catalog) (sub : Subscription) (w : Window Time)
    (articles : List Article) :
    (matchSql pg cat sub w articles).length ≤ maxArticlesPerDigest := by
  rw [matchSql, List.length_map, List.length_take]
  exact Nat.min_le_left _ _

/-- Without an overflow, the query finds the articles of the window. -/
theorem matchSql_perm {pg : Postgres} {cat : Catalog} {sub : Subscription} {w : Window Time}
    {articles : List Article}
    (hroom : (matching pg cat sub w articles).length ≤ maxArticlesPerDigest) :
    (matchSql pg cat sub w articles).Perm ((matching pg cat sub w articles).map Article.id) := by
  have hperm := pg.perm (matching pg cat sub w articles)
  rw [matchSql, List.take_of_length_le (hperm.length_eq ▸ hroom)]
  exact hperm.map _

/-! ### The save -/

/-- The table after `save(update_fields=["last_notified_at"])` of the row `id`,
whose target has the key `key`. -/
def noted (id : ℕ) (now : Time) (key : Text) (subs : List Subscription) : List Subscription :=
  updateWhere (fun r => r.id == id)
    (fun r => { r with lastNotifiedAt := some now, targetKey := key }) subs

/-- What the digest never writes. -/
def fixed (r : Subscription) : Subscription := { r with lastNotifiedAt := none, targetKey := [] }

/-- A row was noted, or it is as before. -/
theorem mem_noted {id : ℕ} {now : Time} {key : Text} {subs : List Subscription} {y : Subscription}
    (hy : y ∈ noted id now key subs) :
    (y.id = id ∧ y.lastNotifiedAt = some now ∧ ∃ r ∈ subs, r.id = id ∧ fixed y = fixed r) ∨
      y.id ≠ id ∧ y ∈ subs := by
  obtain ⟨r, hr, rfl⟩ := mem_updateWhere.mp hy
  by_cases hid : r.id = id
  · rw [if_pos (beq_iff_eq.mpr hid)]
    exact .inl ⟨hid, rfl, r, hr, hid, rfl⟩
  · rw [if_neg (by simpa using hid)]
    exact .inr ⟨hid, hr⟩

theorem mem_noted_of_ne {id : ℕ} {now : Time} {key : Text} {subs : List Subscription}
    {r : Subscription} (hr : r ∈ subs) (hid : r.id ≠ id) : r ∈ noted id now key subs :=
  mem_updateWhere_of_not hr (beq_eq_false_iff_ne.mpr hid)

theorem map_id_noted (id : ℕ) (now : Time) (key : Text) (subs : List Subscription) :
    (noted id now key subs).map Subscription.id = subs.map Subscription.id := by
  refine map_updateWhere ?_ subs
  exact fun _ => rfl

/-! ### A run -/

/-- What runs share with the rest of the system. -/
structure World where
  clock : Time
  articles : List Article
  /-- executed inserts that are not committed -/
  pending : List Article
  nextId : ℕ
  subs : List Subscription
  /-- calls of `deliver.apply_async`, the newest last -/
  queued : List (ℕ × ℕ)
  windows : List (ℕ × Window Time)
  ended : List Time

/-- Where a run of `daily_digest` stands. -/
inductive Phase
  | idle
  | taken (now : Time)
  | loop (now : Time) (todo : List Subscription) (sent : ℕ)
  | queueing (now : Time) (sub : Subscription) (ids : List ℕ) (todo : List Subscription) (sent : ℕ)
  | returned (sent : ℕ)
  /-- an exception left the task -/
  | failed
  deriving DecidableEq

/-- `filter(is_active=True, interval=DAILY)`. -/
def isDaily (sub : Subscription) : Bool := sub.isActive && sub.interval == .daily

/-- The subscriptions a run has loaded and not saved. -/
def Phase.unsaved : Phase → List Subscription
  | .loop _ todo _ => todo
  | .queueing _ sub _ todo _ => sub :: todo
  | _ => []

/-- The next statement of a run. -/
def advance (t : HostTables) (pg : Postgres) (cat : Catalog) (phase : Phase) (w : World) :
    Option (Phase × World) :=
  match phase with
  | .taken now => some (.loop now (w.subs.filter isDaily) 0, w)
  | .loop now [] sent => some (.returned sent, { w with ended := now :: w.ended })
  -- the query runs on what is committed by now
  | .loop now (sub :: todo) sent =>
    some (.queueing now sub (matchSql pg cat sub (window sub now) w.articles) todo sent, w)
  | .queueing now sub (id :: ids) todo sent =>
    some (.queueing now sub ids todo (sent + 1), { w with queued := w.queued ++ [(sub.id, id)] })
  | .queueing now sub [] todo sent =>
    -- nothing catches the exception of a row that is gone
    match savePartial t (fun r => { r with lastNotifiedAt := some now }) sub w.subs with
    | none => some (.failed, w)
    | some subs =>
      some (.loop now todo sent,
        { w with subs := subs, windows := (sub.id, window sub now) :: w.windows })
  | .idle | .returned _ | .failed => none

/-- The phase and the world. -/
structure State extends World where
  phase : Phase

/-- What happens next. -/
inductive Move
  /-- time passes -/
  | tick (elapsed : ℕ)
  /-- an `INSERT` is executed; `created_at` is its start -/
  | insert (a : Article)
  /-- an insert is committed -/
  | commit (id : ℕ)
  /-- an owner deletes a subscription -/
  | delete (id : ℕ)
  /-- a run takes its `now` -/
  | begin
  /-- the run goes on -/
  | run

/-- No run is going on. -/
def Phase.resting : Phase → Bool
  | .idle | .returned _ | .failed => true
  | _ => false

/-- The row an `INSERT` writes. -/
def stamped (c : State) (a : Article) : Article := { a with id := c.nextId, createdAt := c.clock }

/-- One move. -/
def next (t : HostTables) (pg : Postgres) (cat : Catalog) (m : Move) (c : State) : Option State :=
  match m with
  | .tick elapsed => some { c with clock := c.clock + elapsed }
  | .insert a =>
    some { c with pending := c.pending ++ [stamped c a], nextId := c.nextId + 1 }
  | .commit id =>
    (c.pending.find? fun a => a.id == id).map fun a =>
      { c with
        pending := c.pending.erase a
        articles := c.articles ++ [a] }
  | .delete id => some { c with subs := c.subs.filter fun r => r.id != id }
  | .begin => if c.phase.resting then some { c with phase := .taken c.clock } else none
  | .run => (advance t pg cat c.phase c.toWorld).map fun r => ⟨r.2, r.1⟩

/-! ### What a step of a run does -/

/-- What each statement of a run does. -/
inductive Effect (t : HostTables) (pg : Postgres) (cat : Catalog) :
    Phase → World → Phase → World → Prop
  | loaded {w} (now : Time) :
      Effect t pg cat (.taken now) w (.loop now (w.subs.filter isDaily) 0) w
  | returned {w} (now : Time) (sent : ℕ) :
      Effect t pg cat (.loop now [] sent) w (.returned sent) { w with ended := now :: w.ended }
  | matched {w} (now : Time) (sub : Subscription) (todo : List Subscription) (sent : ℕ) :
      Effect t pg cat (.loop now (sub :: todo) sent) w
        (.queueing now sub (matchSql pg cat sub (window sub now) w.articles) todo sent) w
  | queued {w} (now : Time) (sub : Subscription) (id : ℕ) (ids : List ℕ)
      (todo : List Subscription) (sent : ℕ) :
      Effect t pg cat (.queueing now sub (id :: ids) todo sent) w
        (.queueing now sub ids todo (sent + 1)) { w with queued := w.queued ++ [(sub.id, id)] }
  | saved {w} (now : Time) (sub : Subscription) (todo : List Subscription) (sent : ℕ) (key : Text)
      (hkey : sub.key t = .ok key) (hfound : ∃ r ∈ w.subs, r.id = sub.id) :
      Effect t pg cat (.queueing now sub [] todo sent) w (.loop now todo sent)
        { w with
          subs := noted sub.id now key w.subs
          windows := (sub.id, window sub now) :: w.windows }
  | failed {w} (now : Time) (sub : Subscription) (todo : List Subscription) (sent : ℕ)
      (hfail : ∀ key, sub.key t = .ok key → ∀ r ∈ w.subs, r.id ≠ sub.id) :
      Effect t pg cat (.queueing now sub [] todo sent) w .failed w

/-- **Inversion of `advance`.** -/
theorem advance_effect {t : HostTables} {pg : Postgres} {cat : Catalog} {l l' : Phase}
    {w w' : World} (h : advance t pg cat l w = some (l', w')) : Effect t pg cat l w l' w' := by
  cases l with
  | taken now =>
    cases h
    exact .loaded now
  | loop now todo sent =>
    cases todo with
    | nil =>
      cases h
      exact .returned now sent
    | cons sub todo =>
      cases h
      exact .matched now sub todo sent
  | queueing now sub ids todo sent =>
    cases ids with
    | nil =>
      rw [advance] at h
      cases hs : savePartial t (fun r => { r with lastNotifiedAt := some now }) sub w.subs with
      | none =>
        rw [hs] at h
        cases h
        refine .failed now sub todo sent fun key hkey r hr hid => ?_
        have hsome : savePartial t (fun r => { r with lastNotifiedAt := some now }) sub w.subs =
            some _ := savePartial_eq_some.mpr ⟨key, hkey, ⟨r, hr, hid⟩, rfl⟩
        rw [hs] at hsome
        cases hsome
      | some subs =>
        obtain ⟨key, hkey, hfound, rfl⟩ := savePartial_eq_some.mp hs
        rw [hs] at h
        cases h
        exact .saved now sub todo sent key hkey hfound
    | cons id ids =>
      cases h
      exact .queued now sub id ids todo sent
  | idle | returned sent | failed => cases h

/-! ### Samples -/

instance : DecidableRel NewestFirst
  | some a, some b => inferInstanceAs (Decidable (b ≤ a))
  | some _, none | none, none => isTrue trivial
  | none, some _ => isFalse id

theorem newestFirst_total (a b : Option Time) : NewestFirst a b ∨ NewestFirst b a := by
  cases a with
  | none => exact .inr (by cases b <;> trivial)
  | some a =>
    cases b with
    | none => exact .inl trivial
    | some b => exact Int.le_total b a

theorem NewestFirst.trans {a b c : Option Time} (hab : NewestFirst a b) (hbc : NewestFirst b c) :
    NewestFirst a c := by
  cases c with
  | none => cases a <;> trivial
  | some c =>
    cases b with
    | none => exact hbc.elim
    | some b =>
      cases a with
      | none => exact hab.elim
      | some a => exact Int.le_trans hbc hab

/-- A query that every article meets, and ties in the order of the table. -/
def everything : Postgres where
  tsMatch := fun _ _ => true
  order := List.insertionSort fun a b => NewestFirst a.publishedAt b.publishedAt
  perm := fun l => List.perm_insertionSort _ l
  sorted := fun l =>
    have : Std.Total fun a b : Article => NewestFirst a.publishedAt b.publishedAt :=
      ⟨fun _ _ => newestFirst_total _ _⟩
    have : IsTrans Article fun a b => NewestFirst a.publishedAt b.publishedAt :=
      ⟨fun _ _ _ => NewestFirst.trans⟩
    List.pairwise_insertionSort _ l

/-- One live feed without tags. -/
def oneFeed : Catalog := ⟨[(1, false)], []⟩

/-- A daily subscription to everything. -/
def dailyRow (id owner : ℕ) (last : Option Time) : Subscription :=
  { mailRow id owner "me@example.org".toList with interval := .daily, lastNotifiedAt := last }

end Digest
