/-
The listing of articles (`apps/articles/views.py`).

* `Catalogue`, `Filters` — the tables, and the query parameters of `ArticleFilter`;
* `listing` — the query: joins, conditions, `DISTINCT` and the order;
* `Listed` — which articles a request asks for, in its own words;
* `Newer` — the order of the listing;
* `listing_newestFirst`, `mem_listing_iff` — the query answers that.

Main result: `articles_are_listed_once`.  Only one list has these articles in this order,
and a client that follows the links sees it, as far as the largest offset lets it.
-/
import Mathlib
import Newsforge.LimitOffset
import Newsforge.SearchPages

open PyText Tables Paging LimitOffset

namespace ArticleApi

open ArticleTable Search

/-! ### The query -/

/-- The tables: tags with their slugs, and the links of articles and tags. -/
structure Catalogue extends Database where
  tags : List (ℕ × Text)
  links : List (ℕ × ℕ)

/-- The query parameters that are given and not empty. -/
structure Filters where
  feed : Option ℕ
  language : Option Text
  tag : Option Text
  publishedAfter : Option Time
  publishedBefore : Option Time
  deriving DecidableEq

/-- The language `filter_language` looks for. -/
def filterLanguage (u : UnicodeTables) (value : Text) : Text :=
  (langAliases.lookup (lower u value)).getD (lower u value)

/-- The conditions on the row of an article. -/
def meets (u : UnicodeTables) (f : Filters) (a : Article) : Bool :=
  !a.isDeleted && f.feed.all (fun feed => a.feedId == feed) &&
    f.language.all (fun value => a.language == filterLanguage u value) &&
    notBefore f.publishedAfter a.publishedAt && before f.publishedBefore a.publishedAt

/-- The join of `article_tags__tag__slug`, one row for each link to a tag of the slug; it is
left out if the request names no tag. -/
def joinTags (db : Catalogue) (tag : Option Text) (rows : List Article) : List Article :=
  match tag with
  | none => rows
  | some slug => rows.flatMap fun a =>
      (db.links.filter fun l => l.1 == a.id).flatMap fun l =>
        (db.tags.filter fun t => t.1 == l.2 && t.2 == slug).map fun _ => a

/-- `published_at DESC NULLS LAST, id DESC`. -/
def newest (a : Article) : WithBot Time ×ₗ ℕ := toLex (nullsLast a.publishedAt, a.id)

/-- `get_queryset` with the filters of the request. -/
def listing (u : UnicodeTables) (db : Catalogue) (f : Filters) : List Article :=
  orderBy newest ((joinTags db f.tag (joined db.toDatabase)).filter (meets u f)).dedup

/-! ### What it answers -/

variable {u : UnicodeTables} {db : Catalogue} {f : Filters} {a : Article}

/-- What the request asks for: live articles of live feeds, of the feed and the language,
with a tag of the slug, published in the span of time. -/
structure Listed (u : UnicodeTables) (db : Catalogue) (f : Filters) (a : Article) : Prop where
  stored : a ∈ db.articles
  live : a.isDeleted = false
  feedLive : (a.feedId, false) ∈ db.feeds
  feed : ∀ feed ∈ f.feed, a.feedId = feed
  language : ∀ value ∈ f.language, a.language = filterLanguage u value
  tag : ∀ slug ∈ f.tag, ∃ tag, (a.id, tag) ∈ db.links ∧ (tag, slug) ∈ db.tags
  after : ∀ start ∈ f.publishedAfter, ∃ published ∈ a.publishedAt, start ≤ published
  before : ∀ stop ∈ f.publishedBefore, ∃ published ∈ a.publishedAt, published < stop

theorem mem_joined (db : Database) :
    a ∈ joined db ↔ a ∈ db.articles ∧ (a.feedId, false) ∈ db.feeds := by
  rw [joined, List.mem_flatMap]
  constructor
  · rintro ⟨x, hx, hmem⟩
    obtain ⟨feed, hfeed, rfl⟩ := List.mem_map.mp hmem
    obtain ⟨hfeed, hcond⟩ := List.mem_filter.mp hfeed
    simp only [Bool.and_eq_true, beq_iff_eq, Bool.not_eq_true'] at hcond
    refine ⟨hx, ?_⟩
    rw [← hcond.1, ← hcond.2]
    exact hfeed
  · rintro ⟨ha, hfeed⟩
    refine ⟨a, ha, List.mem_map.mpr ⟨(a.feedId, false), ?_, rfl⟩⟩
    exact List.mem_filter.mpr ⟨hfeed, by simp⟩

theorem mem_joinTags {tag : Option Text} {rows : List Article} :
    a ∈ joinTags db tag rows ↔ a ∈ rows ∧
      ∀ slug ∈ tag, ∃ tag, (a.id, tag) ∈ db.links ∧ (tag, slug) ∈ db.tags := by
  cases tag with
  | none => exact ⟨fun h => ⟨h, fun slug hslug => by cases hslug⟩, fun h => h.1⟩
  | some slug =>
    simp only [joinTags, List.mem_flatMap, List.mem_map, List.mem_filter, Bool.and_eq_true,
      beq_iff_eq]
    constructor
    · rintro ⟨x, hx, ⟨article, tag⟩, ⟨hlink, rfl⟩, ⟨tag', slug'⟩, ⟨htag, rfl, rfl⟩, rfl⟩
      refine ⟨hx, fun s hs => ?_⟩
      cases hs
      exact ⟨_, hlink, htag⟩
    · rintro ⟨ha, htag⟩
      obtain ⟨tag, hlink, hslug⟩ := htag slug rfl
      exact ⟨a, ha, (a.id, tag), ⟨hlink, rfl⟩, (tag, slug), ⟨hslug, rfl, rfl⟩, rfl⟩

theorem notBefore_iff {start published : Option Time} :
    notBefore start published = true ↔ ∀ t ∈ start, ∃ p ∈ published, t ≤ p := by
  cases start <;> cases published <;> simp [notBefore]

theorem before_iff {stop published : Option Time} :
    Search.before stop published = true ↔ ∀ t ∈ stop, ∃ p ∈ published, p < t := by
  cases stop <;> cases published <;> simp [Search.before]

/-- **The query finds what the request asks for.** -/
theorem mem_listing_iff : a ∈ listing u db f ↔ Listed u db f a := by
  rw [listing, (orderBy_perm _ _).mem_iff, List.mem_dedup, List.mem_filter, mem_joinTags,
    mem_joined, meets]
  simp only [Bool.and_eq_true, Bool.not_eq_true', Option.all_eq_true, beq_iff_eq,
    notBefore_iff, before_iff]
  constructor
  · rintro ⟨⟨⟨hstored, hfeedLive⟩, htag⟩, ⟨⟨⟨hlive, hfeed⟩, hlanguage⟩, hafter⟩, hbefore⟩
    exact ⟨hstored, hlive, hfeedLive, hfeed, hlanguage, htag, hafter, hbefore⟩
  · intro h
    exact ⟨⟨⟨h.stored, h.feedLive⟩, h.tag⟩, ⟨⟨⟨⟨h.live, h.feed⟩, h.language⟩, h.after⟩, h.before⟩⟩

/-! ### The order -/

/-- The article `a` comes before `b`: it is newer, articles without a date come last, and
of two with the same date the younger row comes first. -/
def Newer (a b : Article) : Prop :=
  match a.publishedAt, b.publishedAt with
  | some s, some t => t < s ∨ s = t ∧ b.id < a.id
  | some _, none => True
  | none, some _ => False
  | none, none => b.id < a.id

theorem newer_iff {a b : Article} : Newer a b ↔ newest b < newest a := by
  rw [newest, newest, Prod.Lex.toLex_lt_toLex, Newer]
  cases a.publishedAt with
  | none =>
    cases b.publishedAt with
    | none => simp [nullsLast]
    | some t => simp [nullsLast]
  | some s =>
    cases b.publishedAt with
    | none => simp [nullsLast]
    | some t => simp [nullsLast, eq_comm]

/-- A list is in the order of the listing, without repetitions. -/
def NewestFirst (l : List Article) : Prop := l.Pairwise Newer

theorem newest_inj {a b : Article} (ha : a ∈ db.articles) (hb : b ∈ db.articles)
    (h : newest a = newest b) : a = b :=
  List.inj_on_of_nodup_map db.articles_nodup ha hb (congrArg (fun x => (ofLex x).2) h)

/-- **No article is listed twice**, however many tags with the slug it has. -/
theorem listing_newestFirst : NewestFirst (listing u db f) := by
  have hnodup : (listing u db f).Nodup := (orderBy_perm _ _).nodup_iff.mpr (List.nodup_dedup _)
  refine (List.Pairwise.and (orderBy_pairwise newest _) hnodup).imp_of_mem ?_
  intro a b ha hb ⟨hle, hne⟩
  refine newer_iff.mpr (lt_of_le_of_ne hle fun heq => hne ?_)
  exact (newest_inj (mem_listing_iff.mp hb).stored (mem_listing_iff.mp ha).stored heq).symm

/-- There is one list with these articles in this order. -/
theorem eq_of_newestFirst {l l' : List Article} (h : NewestFirst l) (h' : NewestFirst l')
    (hmem : ∀ a, a ∈ l ↔ a ∈ l') : l = l' := by
  have hnodup : ∀ {l : List Article}, NewestFirst l → l.Nodup := by
    intro l h
    refine h.imp ?_
    rintro a b hnewer rfl
    exact lt_irrefl _ (newer_iff.mp hnewer)
  have hperm : l.Perm l' := (List.perm_ext_iff_of_nodup (hnodup h) (hnodup h')).mpr hmem
  refine hperm.eq_of_pairwise (fun a b _ _ hab hba => ?_) h h'
  exact absurd (newer_iff.mp hab) (lt_asymm (newer_iff.mp hba))

/-- **Every article is listed once.**  One list has the articles that the request asks for,
the newest first; and a client that follows the links sees that list, as far as the largest
offset lets it. -/
theorem articles_are_listed_once (u : UnicodeTables) (db : Catalogue) (f : Filters)
    (limit : Option Int) :
    ∃! l : List Article, NewestFirst l ∧ (∀ a, a ∈ l ↔ Listed u db f a) ∧
      follow limit (listing u db f) 0 =
        l.take ((maxOffset / getLimit limit + 1) * getLimit limit) := by
  refine ⟨listing u db f, ⟨listing_newestFirst, fun a => mem_listing_iff, follow_eq_take⟩, ?_⟩
  rintro l ⟨horder, hmem, -⟩
  exact eq_of_newestFirst horder listing_newestFirst fun a => (hmem a).trans mem_listing_iff.symm

end ArticleApi
