/-
Tag rules and the fan-out behind them (`apps/tags/engine.py`, `tasks/tags.py`,
`fanout_instant` of `tasks/notifications.py`).

* `TagRule.applies` — a rule against the visible text of an article;
* `instantMatches` — `_MATCH_INSTANT_SQL`;
* `step` — one step of the chain that `on_article_created` queues for an article:
  `apply_rules_to_article` statement by statement, with `get_or_create` as a look-up, an
  insert and a second look-up, and `fanout_instant` behind it;
* `outside` — what staff, owners and other tasks do to the tables;
* `next` — any number of chains, of one article or of many, interleaved.

The rules come from one query, whose order is open.  Whether a rule applies depends on no
later statement, so the loop is one over the tags of the rules that do.  What is raised ends
the chain: `plain_text` may raise for the text of the article, and the broker may refuse a
delivery.

Main results: `applies_iff`, and `step_did`, what a step does.
-/
import Newsforge.Digest
import Newsforge.Normalizer

open PyText Tables Runs

namespace Tagging

open ArticleTable Digest Normalizer Subscriptions

/-! ### Rules -/

/-- `TagRule.Match`. -/
inductive Match
  | any
  | all
  deriving DecidableEq, Repr

/-- A row of `tags_tagrule`, with the columns that the engine reads. -/
structure TagRule where
  id : ℕ
  keywords : List Text
  mode : Match
  language : Option Text
  tagId : ℕ
  isActive : Bool
  deriving DecidableEq, Repr

/-- `_haystack`. -/
def haystack (k : Tools) (a : Article) : Except Text Text := do
  let visible ← visibleTexts k.toHtml [a.summary, a.body]
  return lower k.unicode (join ' ' (a.title :: visible))

/-- The keywords that count. -/
def TagRule.kws (u : UnicodeTables) (r : TagRule) : List Text :=
  (r.keywords.filter fun kw => !kw.isEmpty).map (lower u)

/-- `sum(1 for kw in kws if kw in text)`. -/
def hitCount (kws : List Text) (text : Text) : ℕ := kws.countP fun kw => kw <:+: text

/-- The rule is for the language. -/
def TagRule.speaks (r : TagRule) (language : Text) : Bool :=
  r.language.all fun l => l.isEmpty || l == language

/-- The body of the loop over the rules, up to `if matched`; `text` is the haystack. -/
def TagRule.applies (u : UnicodeTables) (text : Text) (a : Article) (r : TagRule) : Bool :=
  let kws := r.kws u
  let hits := hitCount kws text
  r.speaks a.language && !kws.isEmpty &&
    match r.mode with
    | .any => 0 < hits
    | .all => hits == kws.length

/-- **A rule applies** to the articles of its language that have one of its keywords, or
all of them; without a keyword it applies to none. -/
theorem applies_iff {u : UnicodeTables} {text : Text} {a : Article} {r : TagRule} :
    r.applies u text a = true ↔ r.speaks a.language = true ∧
      (∃ kw ∈ r.keywords, kw ≠ [] ∧ (r.mode = .any → lower u kw <:+: text)) ∧
        (r.mode = .all → ∀ kw ∈ r.keywords, kw ≠ [] → lower u kw <:+: text) := by
  have hmem : ∀ kw, kw ∈ r.kws u ↔ ∃ x ∈ r.keywords, x ≠ [] ∧ lower u x = kw := by
    simp [TagRule.kws, and_assoc]
  rw [TagRule.applies]
  cases hmode : r.mode with
  | any =>
    simp only [Bool.and_eq_true, decide_eq_true_eq, hitCount, List.countP_pos_iff, reduceCtorEq,
      false_implies, and_true, forall_const]
    constructor
    · rintro ⟨⟨hspeaks, -⟩, kw, hkw, hin⟩
      obtain ⟨x, hx, hne, rfl⟩ := (hmem kw).mp hkw
      exact ⟨hspeaks, x, hx, hne, hin⟩
    · rintro ⟨hspeaks, x, hx, hne, hin⟩
      have hkw := (hmem _).mpr ⟨x, hx, hne, rfl⟩
      refine ⟨⟨hspeaks, ?_⟩, _, hkw, hin⟩
      simpa using List.ne_nil_of_mem hkw
  | all =>
    simp only [Bool.and_eq_true, beq_iff_eq, hitCount, List.countP_eq_length, decide_eq_true_eq,
      reduceCtorEq, false_implies, and_true, forall_const]
    constructor
    · rintro ⟨⟨hspeaks, hsome⟩, hall⟩
      obtain ⟨kw, hkw⟩ := List.exists_mem_of_ne_nil (r.kws u) (by simpa using hsome)
      obtain ⟨x, hx, hne, -⟩ := (hmem kw).mp hkw
      exact ⟨hspeaks, ⟨x, hx, hne⟩, fun y hy hne => hall _ ((hmem _).mpr ⟨y, hy, hne, rfl⟩)⟩
    · rintro ⟨hspeaks, ⟨x, hx, hne⟩, hall⟩
      have hkw := (hmem _).mpr ⟨x, hx, hne, rfl⟩
      refine ⟨⟨hspeaks, by simpa using List.ne_nil_of_mem hkw⟩, fun kw hkw => ?_⟩
      obtain ⟨y, hy, hne, rfl⟩ := (hmem kw).mp hkw
      exact hall y hy hne

/-! ### Tables -/

/-- The tables; in `links`, `article_id` and `tag_id` of the rows of `tags_articletag`, and
in `queued` the arguments of the `deliver` tasks. -/
structure World where
  articles : List Article
  tags : List ℕ
  rules : List TagRule
  links : List (ℕ × ℕ)
  subs : List Subscription
  feeds : List (ℕ × Bool)
  queued : List (ℕ × ℕ)

/-- The ids of the articles. -/
def World.articleIds (w : World) : List ℕ := w.articles.map Article.id

/-- `INSERT INTO tags_articletag`; `none` is an `IntegrityError` of `tags_articletag_unique`
or of a foreign key. -/
def World.insert (w : World) (l : ℕ × ℕ) : Option World :=
  if l ∈ w.links ∨ l.1 ∉ w.articleIds ∨ l.2 ∉ w.tags then none
  else some { w with links := l :: w.links }

/-- `_MATCH_INSTANT_SQL`. -/
def instantMatches (pg : Postgres) (w : World) (article : ℕ) : List ℕ :=
  (w.subs.filter fun sub => sub.isActive && sub.interval == .instant &&
    w.articles.any fun a => a.id == article && wanted pg ⟨w.feeds, w.links⟩ sub a).map
      Subscription.id

/-! ### One chain -/

/-- In front of the chain, with the article, at the next tag, at the insert, at the second
look-up, behind `apply_tag_rules`, with the deliveries that are left, and over. -/
inductive Phase
  | start
  | loaded (a : Article)
  | assign (todo : List ℕ)
  | create (tag : ℕ) (todo : List ℕ)
  | again (tag : ℕ) (todo : List ℕ)
  | fanout
  | publish (ids : List ℕ)
  | done
  | failed
  | died (tagged : Bool)
  deriving DecidableEq

/-- A chain for an article, the tags of the rules that applied, and `assigned`. -/
structure Task where
  article : ℕ
  matched : List ℕ
  assigned : List ℕ
  phase : Phase
  deriving DecidableEq

def Task.goto (t : Task) (phase : Phase) : Task := { t with phase := phase }

inductive Action
  | get
  | load (rules : List TagRule)
  | lookup
  | insert
  | select (ids : List ℕ)
  | publish (raises : Bool)
  | die
  | redeliver
  deriving DecidableEq

/-- The chain is not over. -/
def Phase.live : Phase → Bool
  | .done | .failed | .died _ => false
  | _ => true

/-- `apply_tag_rules` has returned. -/
def Phase.tagged : Phase → Bool
  | .fanout | .publish _ => true
  | _ => false

/-- One step. -/
def step (k : Tools) (pg : Postgres) : Action → Task → World → Option (Task × World)
  | .get, t, w =>
    match t.phase with
    | .start =>
      match w.articles.find? fun a => a.id == t.article && !a.isDeleted with
      | some a => some (t.goto (.loaded a), w)
      | none => some (t.goto .failed, w)
    | _ => none
  | .load rules, t, w =>
    match t.phase with
    | .loaded a =>
      -- the haystack is made before the query
      match haystack k a with
      | .error _ => some (t.goto .failed, w)
      | .ok text =>
        if rules.Perm (w.rules.filter TagRule.isActive) then
          let tags := (rules.filter (TagRule.applies k.unicode text a)).map TagRule.tagId
          some ({ t with matched := tags, assigned := [], phase := .assign tags }, w)
        else none
    | _ => none
  | .lookup, t, w =>
    match t.phase with
    | .assign [] => some (t.goto .fanout, w)
    | .assign (tag :: todo) =>
      if (t.article, tag) ∈ w.links then some (t.goto (.assign todo), w)
      else some (t.goto (.create tag todo), w)
    | .again tag todo =>
      if (t.article, tag) ∈ w.links then some (t.goto (.assign todo), w)
      else some (t.goto .failed, w)
    | _ => none
  | .insert, t, w =>
    match t.phase with
    | .create tag todo =>
      match w.insert (t.article, tag) with
      | some w' => some ({ t with assigned := t.assigned ++ [tag], phase := .assign todo }, w')
      | none => some (t.goto (.again tag todo), w)
    | _ => none
  | .select ids, t, w =>
    match t.phase with
    | .fanout =>
      if ids.Perm (instantMatches pg w t.article) then some (t.goto (.publish ids), w) else none
    | _ => none
  | .publish raises, t, w =>
    match t.phase with
    | .publish [] => some (t.goto .done, w)
    | .publish (sub :: ids) =>
      if raises then some (t.goto .failed, w)
      else some (t.goto (.publish ids), { w with queued := (sub, t.article) :: w.queued })
    | _ => none
  | .die, t, w => if t.phase.live then some (t.goto (.died t.phase.tagged), w) else none
  -- `acks_late`: the task of the chain that was running starts again
  | .redeliver, t, w =>
    match t.phase with
    | .died true => some (t.goto .fanout, w)
    | .died false => some ({ t with matched := [], assigned := [], phase := .start }, w)
    | _ => none

/-! ### The others -/

/-- What anyone else does: a tag is attached to an article or detached, created or deleted
with its rules and links; rules, articles, feeds and subscriptions change. -/
inductive Outside
  | attach (article tag : ℕ)
  | detach (article tag : ℕ)
  | createTag (tag : ℕ)
  | deleteTag (tag : ℕ)
  | setRules (rules : List TagRule)
  | write (a : Article)
  | setFeeds (feeds : List (ℕ × Bool))
  | setSubs (subs : List Subscription)

/-- One of these, done by others. -/
def outside : Outside → World → Option World
  | .attach article tag, w => w.insert (article, tag)
  | .detach article tag, w => some { w with links := w.links.filter (· ≠ (article, tag)) }
  | .createTag tag, w => if tag ∈ w.tags then none else some { w with tags := tag :: w.tags }
  | .deleteTag tag, w =>
    some { w with
      tags := w.tags.filter (· ≠ tag)
      rules := w.rules.filter fun r => r.tagId ≠ tag
      links := w.links.filter fun l => l.2 ≠ tag }
  | .setRules rules, w => some { w with rules := rules }
  | .write a, w => some { w with articles := put Article.id a w.articles }
  | .setFeeds feeds, w => some { w with feeds := feeds }
  | .setSubs subs, w => some { w with subs := subs }

abbrev Chains (ι : Type*) := Config ι World Task

def next {ι : Type*} [DecidableEq ι] (k : Tools) (pg : Postgres) :
    Move ι Action Outside → Chains ι → Option (Chains ι) :=
  Config.next (step k pg) outside

/-! ### What a step does -/

variable {k : Tools} {pg : Postgres} {t t' : Task} {w w' : World}

theorem insert_eq_some {l : ℕ × ℕ} :
    w.insert l = some w' ↔ l ∉ w.links ∧ l.1 ∈ w.articleIds ∧ l.2 ∈ w.tags ∧
      w' = { w with links := l :: w.links } := by
  rw [World.insert]
  by_cases h : l ∈ w.links ∨ l.1 ∉ w.articleIds ∨ l.2 ∉ w.tags
  · rw [if_pos h]
    simp only [reduceCtorEq, false_iff]
    rintro ⟨hnew, harticle, htag, -⟩
    exact h.elim hnew fun h => h.elim (· harticle) (· htag)
  · rw [if_neg h, Option.some_inj]
    push Not at h
    exact ⟨fun heq => ⟨h.1, h.2.1, h.2.2, heq.symm⟩, fun heq => heq.2.2.2.symm⟩

theorem insert_eq_none {l : ℕ × ℕ} (h : w.insert l = none) :
    l ∈ w.links ∨ l.1 ∉ w.articleIds ∨ l.2 ∉ w.tags := by
  rw [World.insert] at h
  split at h
  · rename_i hno
    exact hno
  · cases h

/-- What a step does. -/
inductive Did (k : Tools) (pg : Postgres) (t : Task) (w : World) : Task → World → Prop
  | got (a : Article) : t.phase = .start → a ∈ w.articles → a.id = t.article →
    a.isDeleted = false → Did k pg t w (t.goto (.loaded a)) w
  | missing : t.phase = .start → Did k pg t w (t.goto .failed) w
  | unread (a : Article) (m : Text) : t.phase = .loaded a → haystack k a = .error m →
    Did k pg t w (t.goto .failed) w
  | loaded (a : Article) (text : Text) (tags : List ℕ) : t.phase = .loaded a →
    haystack k a = .ok text →
    (∀ tag, tag ∈ tags ↔ ∃ r ∈ w.rules, r.isActive = true ∧
      r.applies k.unicode text a = true ∧ r.tagId = tag) →
    Did k pg t w { t with matched := tags, assigned := [], phase := .assign tags } w
  | tagged : t.phase = .assign [] → Did k pg t w (t.goto .fanout) w
  | found (tag : ℕ) (todo : List ℕ) : t.phase = .assign (tag :: todo) ∨ t.phase = .again tag todo →
    (t.article, tag) ∈ w.links → Did k pg t w (t.goto (.assign todo)) w
  | unfound (tag : ℕ) (todo : List ℕ) : t.phase = .assign (tag :: todo) →
    Did k pg t w (t.goto (.create tag todo)) w
  | lost (tag : ℕ) (todo : List ℕ) : t.phase = .again tag todo → (t.article, tag) ∉ w.links →
    Did k pg t w (t.goto .failed) w
  | created (tag : ℕ) (todo : List ℕ) : t.phase = .create tag todo →
    (t.article, tag) ∉ w.links → t.article ∈ w.articleIds → tag ∈ w.tags →
    Did k pg t w { t with assigned := t.assigned ++ [tag], phase := .assign todo }
      { w with links := (t.article, tag) :: w.links }
  | raised (tag : ℕ) (todo : List ℕ) : t.phase = .create tag todo →
    ((t.article, tag) ∈ w.links ∨ t.article ∉ w.articleIds ∨ tag ∉ w.tags) →
    Did k pg t w (t.goto (.again tag todo)) w
  | selected (ids : List ℕ) : t.phase = .fanout → ids.Perm (instantMatches pg w t.article) →
    Did k pg t w (t.goto (.publish ids)) w
  | finished : t.phase = .publish [] → Did k pg t w (t.goto .done) w
  | published (sub : ℕ) (ids : List ℕ) : t.phase = .publish (sub :: ids) →
    Did k pg t w (t.goto (.publish ids)) { w with queued := (sub, t.article) :: w.queued }
  | refused (sub : ℕ) (ids : List ℕ) : t.phase = .publish (sub :: ids) →
    Did k pg t w (t.goto .failed) w
  | died : t.phase.live = true → Did k pg t w (t.goto (.died t.phase.tagged)) w
  | resumed : t.phase = .died true → Did k pg t w (t.goto .fanout) w
  | restarted : t.phase = .died false →
    Did k pg t w { t with matched := [], assigned := [], phase := .start } w

/-- The tags of the rules that a query found and that apply. -/
theorem mem_matched {rules : List TagRule} {u : UnicodeTables} {text : Text} {a : Article}
    (h : rules.Perm (w.rules.filter TagRule.isActive)) (tag : ℕ) :
    tag ∈ (rules.filter (TagRule.applies u text a)).map TagRule.tagId ↔
      ∃ r ∈ w.rules, r.isActive = true ∧ r.applies u text a = true ∧ r.tagId = tag := by
  simp only [List.mem_map, List.mem_filter, h.mem_iff, and_assoc]

theorem step_did {a : Action} (h : step k pg a t w = some (t', w')) : Did k pg t w t' w' := by
  cases a with
  | get =>
    cases hphase : t.phase with
    | start =>
      simp only [step.eq_def, hphase] at h
      split at h
      · rename_i a hfind
        cases h
        have hp := List.find?_some hfind
        simp only [Bool.and_eq_true, beq_iff_eq, Bool.not_eq_true'] at hp
        exact .got a hphase (List.mem_of_find?_eq_some hfind) hp.1 hp.2
      · cases h
        exact .missing hphase
    | _ => simp [step.eq_def, hphase] at h
  | load rules =>
    cases hphase : t.phase with
    | loaded a =>
      simp only [step.eq_def, hphase] at h
      split at h
      · rename_i m hread
        cases h
        exact .unread a m hphase hread
      · rename_i text hread
        split at h
        · rename_i hperm
          cases h
          exact .loaded a text _ hphase hread (mem_matched hperm)
        · cases h
    | _ => simp [step.eq_def, hphase] at h
  | lookup =>
    cases hphase : t.phase with
    | assign todo =>
      cases todo with
      | nil =>
        simp only [step.eq_def, hphase] at h
        cases h
        exact .tagged hphase
      | cons tag todo =>
        simp only [step.eq_def, hphase] at h
        split at h
        · rename_i hin
          cases h
          exact .found tag todo (.inl hphase) hin
        · cases h
          exact .unfound tag todo hphase
    | again tag todo =>
      simp only [step.eq_def, hphase] at h
      split at h
      · rename_i hin
        cases h
        exact .found tag todo (.inr hphase) hin
      · rename_i hno
        cases h
        exact .lost tag todo hphase hno
    | _ => simp [step.eq_def, hphase] at h
  | insert =>
    cases hphase : t.phase with
    | create tag todo =>
      simp only [step.eq_def, hphase] at h
      split at h
      · rename_i w₁ hinsert
        cases h
        obtain ⟨hnew, harticle, htag, rfl⟩ := insert_eq_some.mp hinsert
        exact .created tag todo hphase hnew harticle htag
      · rename_i hinsert
        cases h
        exact .raised tag todo hphase (insert_eq_none hinsert)
    | _ => simp [step.eq_def, hphase] at h
  | select ids =>
    cases hphase : t.phase with
    | fanout =>
      simp only [step.eq_def, hphase] at h
      split at h
      · rename_i hperm
        cases h
        exact .selected ids hphase hperm
      · cases h
    | _ => simp [step.eq_def, hphase] at h
  | publish raises =>
    cases hphase : t.phase with
    | publish ids =>
      cases ids with
      | nil =>
        simp only [step.eq_def, hphase] at h
        cases h
        exact .finished hphase
      | cons sub ids =>
        cases raises with
        | true =>
          simp only [step.eq_def, hphase] at h
          cases h
          exact .refused sub ids hphase
        | false =>
          simp only [step.eq_def, hphase] at h
          cases h
          exact .published sub ids hphase
    | _ => simp [step.eq_def, hphase] at h
  | die =>
    simp only [step.eq_def] at h
    split at h
    · rename_i hlive
      cases h
      exact .died hlive
    · cases h
  | redeliver =>
    cases hphase : t.phase with
    | died tagged =>
      cases tagged with
      | true =>
        simp only [step.eq_def, hphase] at h
        cases h
        exact .resumed hphase
      | false =>
        simp only [step.eq_def, hphase] at h
        cases h
        exact .restarted hphase
    | _ => simp [step.eq_def, hphase] at h

end Tagging
