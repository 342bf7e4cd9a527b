/-
Search (`run_search` and its three queries).

The tables and what PostgreSQL knows of texts are given; `Database` keeps the keys of
its tables distinct.

* `searchRankSql`, `searchDateSql`, `trgmFallbackSql` — the queries, clause by clause;
* `runSearch` — which of them answers;
* `results` — what there is to be paged through: the full-text hits if there are any,
  else the fuzzy ones of a short query.

Main result: `runSearch_pages`, every page is cut from that one list.
-/
import Mathlib.Order.WithBot
import Newsforge.ArticleTable
import Newsforge.Highlight
import Newsforge.Paging

open PyText HtmlText Tables Paging

namespace Search

open ArticleTable

/-! ### Languages -/

/-- `SUPPORTED_LANGS`. -/
def supportedLangs : List Text := ["russian".toList, "english".toList, "simple".toList]

/-- `LANG_ALIASES`. -/
def langAliases : List (Text × Text) :=
  [("ru".toList, "russian".toList), ("en".toList, "english".toList)]

/-- `coerce_lang(lang)`. -/
def coerceLang (u : UnicodeTables) : Option Text → Option Text
  | none => none
  | some lang =>
    if lang.isEmpty then none
    else if supportedLangs.contains (lower u lang) then some (lower u lang)
    else some ((langAliases.lookup (lower u lang)).getD "simple".toList)

/-! ### Tables and rows -/

/-- The tables: articles, and feeds with `is_deleted`. -/
structure Database where
  articles : List Article
  feeds : List (ℕ × Bool)
  articles_nodup : (articles.map Article.id).Nodup
  feeds_nodup : (feeds.map Prod.fst).Nodup

/-- What PostgreSQL does with texts: `unaccent`, `websearch_to_tsquery` and `||`, the
operators and functions of text search, and those of trigrams. -/
structure Postgres (Query Rank : Type*) where
  unaccent : Text → Text
  websearchToTsquery : Text → Text → Query
  either : Query → Query → Query
  tsMatch : Article → Query → Bool
  tsRankCd : Article → Query → Rank
  tsHeadline : Text → Text → Query → Text → Text
  zero : Rank
  isSimilar : Text → Text → Bool
  isWordSimilar : Text → Text → Bool
  similarity : Text → Text → Rank
  wordSimilarity : Text → Text → Rank

/-- The parameters of the queries but `limit` and `offset`. -/
structure Params where
  cfg : Option Text
  query : Text
  feeds : List ℕ
  dateFrom : Option Time
  dateTo : Option Time
  byDate : Bool

/-- A row of `hits`. -/
structure Hit (Rank : Type*) where
  id : ℕ
  title : Text
  summary : Text
  url : Text
  feedId : ℕ
  publishedAt : Option Time
  language : Text
  rank : Rank

/-- A row of the answer. -/
structure Row (Rank : Type*) extends Hit Rank where
  highlight : Text

variable {Query Rank : Type*}

def hitOf (rank : Article → Rank) (a : Article) : Hit Rank where
  id := a.id
  title := a.title
  summary := a.summary
  url := a.url
  feedId := a.feedId
  publishedAt := a.publishedAt
  language := a.language
  rank := rank a

/-! ### WHERE and ORDER BY -/

/-- `%(from)s IS NULL OR a.published_at >= %(from)s`. -/
def notBefore : Option Time → Option Time → Bool
  | none, _ => true
  | some start, some published => start ≤ published
  | some _, none => false

/-- `%(to)s IS NULL OR a.published_at < %(to)s`. -/
def before : Option Time → Option Time → Bool
  | none, _ => true
  | some stop, some published => published < stop
  | some _, none => false

/-- `articles_article a JOIN feeds_feed f ON f.id = a.feed_id AND NOT f.is_deleted`. -/
def joined (db : Database) : List Article :=
  db.articles.flatMap fun a =>
    (db.feeds.filter fun f => f.1 == a.feedId && !f.2).map fun _ => a

/-- The conditions that do not look at texts. -/
def wanted (p : Params) (a : Article) : Bool :=
  !a.isDeleted && notBefore p.dateFrom a.publishedAt && before p.dateTo a.publishedAt &&
    (p.feeds.isEmpty || p.feeds.contains a.feedId)

/-- The CTE `q`. -/
def tsq (pg : Postgres Query Rank) (p : Params) : Query :=
  let parsed cfg := pg.websearchToTsquery cfg (pg.unaccent p.query)
  match p.cfg with
  | some cfg => parsed cfg
  | none =>
    pg.either (pg.either (parsed "english".toList) (parsed "russian".toList))
      (parsed "simple".toList)

/-- `published_at DESC NULLS LAST`. -/
def nullsLast : Option Time → WithBot Time
  | some t => t
  | none => ⊥

/-- `published_at DESC NULLS LAST, id DESC`. -/
def newest (h : Hit Rank) : WithBot Time ×ₗ ℕ := toLex (nullsLast h.publishedAt, h.id)

/-- `rank DESC, published_at DESC NULLS LAST, id DESC`. -/
def byRank (h : Hit Rank) : Rank ×ₗ WithBot Time ×ₗ ℕ := toLex (h.rank, newest h)

/-- `CASE WHEN %(by_date)s THEN published_at END DESC NULLS LAST`, then `byRank`. -/
def fuzzyKey (byDate : Bool) (h : Hit Rank) : WithBot Time ×ₗ Rank ×ₗ WithBot Time ×ₗ ℕ :=
  toLex (nullsLast (if byDate then h.publishedAt else none), byRank h)

/-! ### Headlines -/

/-- `regexp_replace(s, '<[^>]*>', ' ', 'g')`, within a tag or not. -/
def dropTags : Bool → Text → Text
  | _, [] => []
  | true, c :: s => dropTags (c != '>') s
  | false, c :: s =>
    if c == '<' && s.contains '>' then ' ' :: dropTags true s else c :: dropTags false s

/-- `translate(s, '<>' || marks, '‹›')`. -/
def translate (s : Text) : Text :=
  s.filterMap fun c =>
    if c = '<' then some '‹' else if c = '>' then some '›' else if isMark c then none else some c

/-- `replace(s, c || c, d)`. -/
def replaceDoubled (c d : Char) : Text → Text
  | x :: y :: s =>
    if x = c ∧ y = c then d :: replaceDoubled c d s else x :: replaceDoubled c d (y :: s)
  | s => s

/-- `HEADLINE_OPTIONS`. -/
def headlineOptions : Text :=
  "MaxFragments=2, MinWords=5, MaxWords=20, StartSel=\"".toList ++ [markStart] ++
    "\", StopSel=\"".toList ++ [markStop, '\x22']

/-- The column `highlight`. -/
def headline (pg : Postgres Query Rank) (p : Params) (h : Hit Rank) : Text :=
  pg.tsHeadline (p.cfg.getD h.language)
    (replaceDoubled '›' '»' (replaceDoubled '‹' '«'
      (translate (pg.unaccent (dropTags false (h.summary.take 2000))))))
    (tsq pg p) headlineOptions

/-! ### The queries -/

/-- The articles that the words of the query match. -/
def matching (pg : Postgres Query Rank) (db : Database) (p : Params) : List Article :=
  (joined db).filter fun a => wanted p a && pg.tsMatch a (tsq pg p)

/-- The articles with a similar title. -/
def similar (pg : Postgres Query Rank) (db : Database) (p : Params) : List Article :=
  (joined db).filter fun a =>
    wanted p a && (pg.isSimilar a.title p.query || pg.isWordSimilar a.title p.query)

variable [LinearOrder Rank]

/-- `search_rank.sql`. -/
def searchRankSql (pg : Postgres Query Rank) (db : Database) (p : Params) (limit offset : ℕ) :
    List (Row Rank) :=
  let hits := page limit offset
    (orderBy byRank ((matching pg db p).map (hitOf fun a => pg.tsRankCd a (tsq pg p))))
  orderBy (fun r => byRank r.toHit) (hits.map fun h => { h with highlight := headline pg p h })

/-- `search_date.sql`. -/
def searchDateSql (pg : Postgres Query Rank) (db : Database) (p : Params) (limit offset : ℕ) :
    List (Row Rank) :=
  page limit offset
    (orderBy (fun r => newest r.toHit) ((matching pg db p).map fun a =>
      { hitOf (fun _ => pg.zero) a with highlight := [] }))

/-- `greatest(similarity(a.title, query), word_similarity(query, a.title))`. -/
def titleRank (pg : Postgres Query Rank) (p : Params) (a : Article) : Rank :=
  max (pg.similarity a.title p.query) (pg.wordSimilarity p.query a.title)

/-- `trgm_fallback.sql`. -/
def trgmFallbackSql (pg : Postgres Query Rank) (db : Database) (p : Params) (limit offset : ℕ) :
    List (Row Rank) :=
  page limit offset
    (orderBy (fun r => fuzzyKey p.byDate r.toHit) ((similar pg db p).map fun a =>
      { hitOf (titleRank pg p) a with highlight := [] }))

/-! ### run_search -/

/-- The arguments of `run_search` but `limit` and `offset`. -/
structure Args where
  query : Text
  lang : Option Text
  sort : Text
  feeds : Option (List ℕ)
  dateFrom : Option Time
  dateTo : Option Time

def params (u : UnicodeTables) (s : Args) : Params where
  cfg := coerceLang u s.lang
  query := s.query
  feeds := s.feeds.getD []
  dateFrom := s.dateFrom
  dateTo := s.dateTo
  byDate := s.sort = "date".toList

/-- `TRGM_MAX_QUERY_CHARS`. -/
def trgmMaxQueryChars : ℕ := 24

/-- `row["highlight"] = render_highlight(row["highlight"])`. -/
def renderRow (e : Entities) (row : Row Rank) : Option (Row Rank) :=
  (renderHighlight e row.highlight).map fun t => { row with highlight := t }

/-- `run_search`; `none` is an exception of `render_highlight`. -/
def runSearch (pg : Postgres Query Rank) (e : Entities) (u : UnicodeTables) (db : Database)
    (s : Args) (limit offset : ℕ) : Option (List (Row Rank)) :=
  let p := params u s
  let sql := if s.sort = "date".toList then searchDateSql pg db p else searchRankSql pg db p
  ((sql limit offset).mapM (renderRow e)).map fun rows =>
    if !rows.isEmpty || decide (trgmMaxQueryChars < s.query.length) then rows
    -- paged past the last full-text hit; not a reason to go fuzzy
    else if offset != 0 && !(sql 1 0).isEmpty then rows
    else trgmFallbackSql pg db p limit offset

/-! ### What there is to be paged through -/

/-- All full-text hits, in the order of the request. -/
def fullText (pg : Postgres Query Rank) (db : Database) (p : Params) : List (Row Rank) :=
  if p.byDate then
    orderBy (fun r => newest r.toHit) ((matching pg db p).map fun a =>
      { hitOf (fun _ => pg.zero) a with highlight := [] })
  else
    orderBy (fun r => byRank r.toHit) ((matching pg db p).map fun a =>
      let h := hitOf (fun a => pg.tsRankCd a (tsq pg p)) a
      { h with highlight := headline pg p h })

/-- All fuzzy hits. -/
def fuzzy (pg : Postgres Query Rank) (db : Database) (p : Params) : List (Row Rank) :=
  orderBy (fun r => fuzzyKey p.byDate r.toHit) ((similar pg db p).map fun a =>
    { hitOf (titleRank pg p) a with highlight := [] })

/-- The full-text hits if there are any, else the fuzzy ones of a short query. -/
def results (pg : Postgres Query Rank) (db : Database) (p : Params) : List (Row Rank) :=
  if fullText pg db p ≠ [] then fullText pg db p
  else if p.query.length ≤ trgmMaxQueryChars then fuzzy pg db p
  else []

/-- The query cuts its page from the full-text hits: ordering the rows of the page once
more, with their headlines, changes nothing. -/
theorem searchRankSql_eq (pg : Postgres Query Rank) (db : Database) {p : Params}
    (hrank : p.byDate = false) (limit offset : ℕ) :
    searchRankSql pg db p limit offset = page limit offset (fullText pg db p) := by
  have hrows : fullText pg db p
      = (orderBy byRank ((matching pg db p).map (hitOf fun a => pg.tsRankCd a (tsq pg p)))).map
          fun h => { h with highlight := headline pg p h } := by
    rw [fullText, if_neg (by simp [hrank]),
      map_orderBy (k := fun r : Row Rank => byRank r.toHit) (fun _ => rfl), List.map_map]
    rfl
  show orderBy _ (List.map _ (page _ _ _)) = _
  rw [hrows, map_page, map_orderBy (k := fun r : Row Rank => byRank r.toHit) (fun _ => rfl),
    orderBy_page]

theorem searchDateSql_eq (pg : Postgres Query Rank) (db : Database) {p : Params}
    (hdate : p.byDate = true) (limit offset : ℕ) :
    searchDateSql pg db p limit offset = page limit offset (fullText pg db p) := by
  rw [searchDateSql, fullText, if_pos hdate]

theorem trgmFallbackSql_eq (pg : Postgres Query Rank) (db : Database) (p : Params)
    (limit offset : ℕ) :
    trgmFallbackSql pg db p limit offset = page limit offset (fuzzy pg db p) := rfl

/-! ### Rendering -/

omit [LinearOrder Rank] in
theorem renderRow_of_nil (e : Entities) {row : Row Rank} (h : row.highlight = []) :
    renderRow e row = some row := by
  have hnil : renderHighlight e [] = some [] := rfl
  rw [renderRow, h, hnil, Option.map_some, ← h]

omit [LinearOrder Rank] in
theorem mapM_renderRow_of_nil (e : Entities) {rows : List (Row Rank)}
    (h : ∀ row ∈ rows, row.highlight = []) : rows.mapM (renderRow e) = some rows := by
  induction rows with
  | nil => rfl
  | cons row rows ih =>
    rw [List.mapM_cons, renderRow_of_nil e (h row List.mem_cons_self),
      ih fun r hr => h r (List.mem_cons_of_mem _ hr)]
    rfl

theorem highlight_of_mem_fuzzy {pg : Postgres Query Rank} {db : Database} {p : Params}
    {row : Row Rank} (h : row ∈ fuzzy pg db p) : row.highlight = [] := by
  obtain ⟨a, _, rfl⟩ := List.mem_map.mp ((orderBy_perm _ _).mem_iff.mp h)
  rfl

theorem isEmpty_of_mapM {α β : Type*} {f : α → Option β} {xs : List α} {ys : List β}
    (h : xs.mapM f = some ys) : ys.isEmpty = xs.isEmpty := by
  rw [Bool.eq_iff_iff, List.isEmpty_iff_length_eq_zero, List.isEmpty_iff_length_eq_zero,
    IPAddress.mapM_length h]

/-! ### Pages -/

/-- Both queries of words cut their pages from the full-text hits. -/
theorem sql_eq (pg : Postgres Query Rank) (db : Database) (u : UnicodeTables) (s : Args)
    (limit offset : ℕ) :
    (if s.sort = "date".toList then searchDateSql pg db (params u s)
      else searchRankSql pg db (params u s)) limit offset
      = page limit offset (fullText pg db (params u s)) := by
  split_ifs with hsort
  · exact searchDateSql_eq pg db (decide_eq_true hsort) limit offset
  · exact searchRankSql_eq pg db (decide_eq_false hsort) limit offset

/-- **A page of the search** is cut from the one list of results. -/
theorem runSearch_eq (pg : Postgres Query Rank) (e : Entities) (u : UnicodeTables)
    (db : Database) (s : Args) (limit offset : ℕ) :
    runSearch pg e u db s limit offset
      = (page limit offset (results pg db (params u s))).mapM (renderRow e) := by
  unfold runSearch
  simp only [sql_eq, trgmFallbackSql_eq]
  by_cases hfull : fullText pg db (params u s) = []
  · -- no word matches: the probe finds nothing either
    rw [results, if_neg (not_not.mpr hfull), hfull, page_nil, page_nil]
    show some (if !([] : List (Row Rank)).isEmpty || decide _ then _ else _) = _
    by_cases hlong : trgmMaxQueryChars < s.query.length
    · have hquery : ¬ (params u s).query.length ≤ trgmMaxQueryChars := not_le.mpr hlong
      rw [if_neg hquery, page_nil]
      simp [hlong]
    · have hquery : (params u s).query.length ≤ trgmMaxQueryChars := not_lt.mp hlong
      rw [if_pos hquery, mapM_renderRow_of_nil e fun row hrow =>
        highlight_of_mem_fuzzy ((page_sublist _ _ _).subset hrow)]
      simp [hlong]
  · rw [results, if_pos hfull]
    cases hrows : (page limit offset (fullText pg db (params u s))).mapM (renderRow e) with
    | none => rfl
    | some rows =>
      have hempty := isEmpty_of_mapM hrows
      rw [Option.map_some, Option.some.injEq]
      split_ifs with h₁ h₂
      · rfl
      · rfl
      · -- behind the last hit the probe sees the first one, and only a page of no rows
        -- is empty before it
        rw [Bool.or_eq_true, not_or, Bool.not_eq_true', Bool.not_eq_false] at h₁
        have hnil : rows = [] := List.isEmpty_iff.mp h₁.1
        rw [hempty, List.isEmpty_iff] at h₁
        have hprobe : page 1 0 (fullText pg db (params u s)) ≠ [] := fun hnil =>
          hfull (List.length_eq_zero_iff.mp (Nat.le_zero.mp ((page_eq_nil_iff Nat.one_pos).mp hnil)))
        have hoffset : offset = 0 := by
          by_contra hne
          exact h₂ (by simp [hne, hprobe])
        have hlimit : limit = 0 := by
          by_contra hne
          have := (page_eq_nil_iff (Nat.pos_of_ne_zero hne)).mp h₁.1
          rw [hoffset] at this
          exact hfull (List.length_eq_zero_iff.mp (Nat.le_zero.mp this))
        rw [hnil, hlimit, page, List.take_zero]

/-- A page is refused for a headline that cannot be rendered, and for nothing else. -/
theorem runSearch_eq_none_iff (pg : Postgres Query Rank) (e : Entities) (u : UnicodeTables)
    (db : Database) (s : Args) (limit offset : ℕ) :
    runSearch pg e u db s limit offset = none ↔
      ∃ row ∈ page limit offset (results pg db (params u s)), LongNumber row.highlight := by
  rw [runSearch_eq, mapM_eq_none_iff]
  simp only [renderRow, Option.map_eq_none_iff, renderHighlight_eq_none_iff]

/-! ### Identifiers -/

/-- An article has at most one feed. -/
theorem joined_sublist (db : Database) : (joined db).Sublist db.articles := by
  have hone (a : Article) : ((db.feeds.filter fun f => f.1 == a.feedId && !f.2).map
      fun _ => a).Sublist [a] := by
    set feeds := db.feeds.filter fun f => f.1 == a.feedId && !f.2 with hfeeds
    have hid : feeds.map Prod.fst = List.replicate feeds.length a.feedId := by
      rw [List.eq_replicate_iff, List.length_map]
      refine ⟨rfl, fun id hid => ?_⟩
      obtain ⟨f, hf, rfl⟩ := List.mem_map.mp hid
      rw [hfeeds, List.mem_filter, Bool.and_eq_true, beq_iff_eq] at hf
      exact hf.2.1
    have hnodup : (feeds.map Prod.fst).Nodup :=
      db.feeds_nodup.sublist (List.filter_sublist.map _)
    rw [hid, List.nodup_replicate] at hnodup
    rw [List.map_const']
    exact (List.replicate_sublist_replicate a).mpr hnodup
  unfold joined
  induction db.articles with
  | nil => exact List.Sublist.refl _
  | cons a articles ih => exact (hone a).append ih

omit [LinearOrder Rank] in
/-- Rows of different articles, in whatever order, have different identifiers. -/
theorem nodup_orderBy {κ : Type*} [LinearOrder κ] {key : Row Rank → κ} {f : Article → Row Rank}
    (hf : ∀ a, (f a).id = a.id) (db : Database) (p : Article → Bool) :
    ((orderBy key (((joined db).filter p).map f)).map fun r => r.id).Nodup := by
  have hids : (((joined db).filter p).map f).map (fun r => r.id)
      = ((joined db).filter p).map Article.id := by
    rw [List.map_map]
    exact List.map_congr_left fun a _ => hf a
  rw [((orderBy_perm _ _).map _).nodup_iff, hids]
  exact db.articles_nodup.sublist ((List.filter_sublist.trans (joined_sublist db)).map _)

theorem nodup_results (pg : Postgres Query Rank) (db : Database) (p : Params) :
    ((results pg db p).map fun r => r.id).Nodup := by
  unfold results
  split_ifs
  · unfold fullText
    split_ifs
    · exact nodup_orderBy (fun _ => rfl) db _
    · exact nodup_orderBy (fun _ => rfl) db _
  · exact nodup_orderBy (fun _ => rfl) db _
  · exact List.nodup_nil

/-! ### One order -/

omit [LinearOrder Rank] in
theorem id_eq_of_newest {h h' : Hit Rank} (heq : newest h = newest h') : h.id = h'.id :=
  (Prod.mk.inj (toLex.injective heq)).2

omit [LinearOrder Rank] in
theorem id_eq_of_byRank {h h' : Hit Rank} (heq : byRank h = byRank h') : h.id = h'.id :=
  id_eq_of_newest (Prod.mk.inj (toLex.injective heq)).2

omit [LinearOrder Rank] in
theorem id_eq_of_fuzzyKey {byDate : Bool} {h h' : Hit Rank}
    (heq : fuzzyKey byDate h = fuzzyKey byDate h') : h.id = h'.id :=
  id_eq_of_byRank (Prod.mk.inj (toLex.injective heq)).2

omit [LinearOrder Rank] in
/-- A key that ends in the identifier leaves no tie, so the order in which the rows were
found does not show. -/
theorem orderBy_eq_of_articles {κ : Type*} [LinearOrder κ] {key : Row Rank → κ}
    {f : Article → Row Rank} (hf : ∀ a, (f a).id = a.id)
    (hkey : ∀ r r' : Row Rank, key r = key r' → r.id = r'.id) {db db' : Database}
    (harticles : db.articles.Perm db'.articles) (hfeeds : db.feeds = db'.feeds)
    (p : Article → Bool) :
    orderBy key (((joined db).filter p).map f) = orderBy key (((joined db').filter p).map f) := by
  have hperm : (joined db).Perm (joined db') := by
    rw [joined, joined, hfeeds]
    exact harticles.flatMap_right _
  refine orderBy_eq_of_perm ((hperm.filter p).map f) fun r hr r' hr' heq => ?_
  have hnodup : ((((joined db).filter p).map f).map fun r => r.id).Nodup :=
    ((orderBy_perm key _).map _).nodup_iff.mp (nodup_orderBy hf db p)
  exact List.inj_on_of_nodup_map hnodup hr hr' (hkey r r' heq)

/-- **The results depend on the content of the tables** only. -/
theorem results_eq_of_perm (pg : Postgres Query Rank) {db db' : Database}
    (harticles : db.articles.Perm db'.articles) (hfeeds : db.feeds = db'.feeds) (p : Params) :
    results pg db p = results pg db' p := by
  have hfull : fullText pg db p = fullText pg db' p := by
    unfold fullText
    split_ifs
    · exact orderBy_eq_of_articles (fun _ => rfl) (fun _ _ => id_eq_of_newest) harticles hfeeds _
    · exact orderBy_eq_of_articles (fun _ => rfl) (fun _ _ => id_eq_of_byRank) harticles hfeeds _
  have hfuzzy : fuzzy pg db p = fuzzy pg db' p :=
    orderBy_eq_of_articles (fun _ => rfl) (fun _ _ => id_eq_of_fuzzyKey) harticles hfeeds _
  rw [results, results, hfull, hfuzzy]

/-! ### All pages -/

/-- Pages that were rendered one after another are the rendered beginning of the list. -/
theorem flatten_mapM {α β : Type*} {f : α → Option β} (xss : List (List α)) :
    (xss.mapM (List.mapM f)).map List.flatten = xss.flatten.mapM f := by
  induction xss with
  | nil => rfl
  | cons xs xss ih =>
    rw [List.mapM_cons, List.flatten_cons, List.mapM_append, ← ih]
    cases xs.mapM f with
    | none => rfl
    | some ys => cases xss.mapM (List.mapM f) <;> rfl

/-- **Search pages come from one list.**  It is the ordered full-text hits if there are
any, else the fuzzy hits of a short query, no article twice; a page is its rows from
`offset` on, `limit` of them, with their headlines rendered, so that pages read one
after another repeat, skip and mix nothing. -/
theorem runSearch_pages (pg : Postgres Query Rank) (e : Entities) (u : UnicodeTables)
    (db : Database) (s : Args) :
    ∃ rows : List (Row Rank),
      rows = (if fullText pg db (params u s) ≠ [] then fullText pg db (params u s)
        else if s.query.length ≤ trgmMaxQueryChars then fuzzy pg db (params u s) else []) ∧
      (rows.map fun r => r.id).Nodup ∧
      (∀ limit offset, runSearch pg e u db s limit offset
        = ((rows.drop offset).take limit).mapM (renderRow e)) ∧
      ∀ limit n, ((List.range n).mapM fun k => runSearch pg e u db s limit (k * limit)).map
        List.flatten = (rows.take (n * limit)).mapM (renderRow e) := by
  refine ⟨results pg db (params u s), rfl, nodup_results pg db _, runSearch_eq pg e u db s,
    fun limit n => ?_⟩
  simp only [runSearch_eq]
  rw [← flatten_pages, ← flatten_mapM, List.mapM_map]
  rfl

end Search
