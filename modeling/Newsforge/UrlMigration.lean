/-
Canonical feed URLs (`apps/feeds/migrations/0004_canonical_feed_urls.py`).

The migration visits the feeds one after another, in the order the database returns
them, and looks at the table as it is then.

* `canonical`, `forwards` — `_canonical` and `_forwards`;
* `canonical_eq` — the migration and `canonical_url` spell a URL in the same way;
* `forwards_eq_ok` — the feeds are rows that move to better places (`Relocation`);
* `forwards_urls` — URLs stay unique, and each is the old one or its canonical form;
* `Migrated` — what the table is to be afterwards.

Main result: `forwards_migrated_iff`.  It is so in every order exactly if canonical forms
that have another canonical form do no harm.
-/
import Newsforge.CanonicalUrl
import Newsforge.Feed
import Newsforge.Relocation

open PyText UrlParse SafeHttp Tables Feeds

namespace UrlMigration

/-! ### The migration -/

/-- `_DEFAULT_PORTS`. -/
def defaultPort (scheme : Text) : Option ℕ :=
  if scheme = "http".toList then some 80
  else if scheme = "https".toList then some 443
  else none

/-- The host in `_canonical`: without dots at its end, in lower case and ASCII. -/
def canonicalHost (t : HostTables) (hostname : Text) : Option Text :=
  let host := lower t.unicode (rstrip (· == '.') hostname)
  let host := if isAscii host then some host else t.idna host
  host.filter fun host => !host.isEmpty

/-- `_canonical`. -/
def canonical (t : HostTables) (url : Text) : Option Text :=
  match urlsplit t.unicode (strip isSpace url) with
  | .error _ => none
  | .ok parts =>
    match parts.port t.unicode with
    | .error _ => none
    | .ok port =>
      (canonicalHost t ((parts.hostname t.unicode).getD [])).map fun host =>
        let netloc := bracketed host
        let scheme := lower t.unicode parts.scheme
        let netloc := match port with
          | some n => if defaultPort scheme = some n then netloc else netloc ++ ':' :: natStr n
          | none => netloc
        urlunsplit ⟨scheme, netloc, orSlash parts.path, parts.query, []⟩

/-- `Feed.objects.filter(pk=id).update(url=url)`. -/
def updateUrl (id : ℕ) (url : Text) (rows : List Feed) : Except SaveError (List Feed) :=
  if taken id url rows then .error .integrityError
  else .ok (updateWhere (fun r => r.id == id) (fun r => { r with url := url }) rows)

/-- The loop of `_forwards`, for one feed. -/
def forwardsOne (t : HostTables) (rows : List Feed) (feed : Feed) :
    Except SaveError (List Feed) :=
  match canonical t feed.url with
  | none => .ok rows
  | some url =>
    if !url.isEmpty && url ≠ feed.url && !rows.any fun r => r.url = url then
      updateUrl feed.id url rows
    else .ok rows

/-- `_forwards`, with the feeds in the order of the iterator. -/
def forwards (t : HostTables) (order rows : List Feed) : Except SaveError (List Feed) :=
  order.foldlM (forwardsOne t) rows

/-! ### The canonical form -/

variable {t : HostTables} {rows order : List Feed} {url v : Text}

theorem urlunsplit_ne_nil {p : SplitResult} (h : p.netloc ≠ []) : urlunsplit p ≠ [] := by
  have hnet : p.netloc.isEmpty = false := List.isEmpty_eq_false_iff.mpr h
  rw [urlunsplit]
  simp only [hnet, Bool.not_false, if_true]
  intro hnil
  have hlen := congrArg List.length hnil
  split at hlen <;> split at hlen <;> split at hlen <;> simp at hlen

theorem canonicalHost_ne_nil {hostname host : Text} (h : canonicalHost t hostname = some host) :
    host ≠ [] := by
  have hfilter := (Option.filter_eq_some_iff.mp h).2
  simpa using hfilter

/-- A canonical form is not empty. -/
theorem canonical_ne_nil (h : canonical t url = some v) : v ≠ [] := by
  rw [canonical] at h
  split at h
  · cases h
  · split at h
    · cases h
    · obtain ⟨host, hhost, rfl⟩ := Option.map_eq_some_iff.mp h
      have hnetloc : bracketed host ≠ [] := bracketed_ne_nil (canonicalHost_ne_nil hhost)
      refine urlunsplit_ne_nil ?_
      dsimp only
      split
      · split
        · exact hnetloc
        · simp
      · exact hnetloc

theorem canonicalHost_eq (hidna : ∀ s, t.idna s ≠ some []) (hostname : Text) :
    canonicalHost t hostname = (asciiHost t hostname).toOption := by
  rw [canonicalHost, asciiHost]
  generalize lower t.unicode (rstrip (· == '.') hostname) = host
  by_cases hempty : host.isEmpty
  · obtain rfl := List.isEmpty_iff.mp hempty
    rfl
  · rw [if_neg hempty]
    by_cases hascii : isAscii host
    · rw [if_pos hascii, if_pos hascii, Option.filter_some, if_pos (by simpa using hempty)]
      rfl
    · rw [if_neg hascii, if_neg hascii]
      cases hencoded : t.idna host with
      | none => rfl
      | some encoded =>
        have hne : encoded ≠ [] := fun h => hidna host (h ▸ hencoded)
        rw [Option.filter_some, if_pos (by simpa using hne)]
        rfl

/-- **The migration spells a URL as new ones are spelled.** -/
theorem canonical_eq (hidna : ∀ s, t.idna s ≠ some []) (url : Text) :
    canonical t url = (canonicalUrl t url).toOption := by
  rw [canonical, canonicalUrl, splitUrl]
  cases urlsplit t.unicode (strip isSpace url) with
  | error m => rfl
  | ok parts =>
    dsimp only
    cases parts.port t.unicode with
    | error m => rfl
    | ok port =>
      dsimp only
      rw [canonicalHost_eq hidna]
      show _ = Except.toOption (asciiHost t ((parts.hostname t.unicode).getD []) >>= _)
      cases asciiHost t ((parts.hostname t.unicode).getD []) with
      | error m => rfl
      | ok host => rfl

/-! ### The loop -/

/-- A feed with another URL. -/
def withUrl (g : Feed → Text) (r : Feed) : Feed := { r with url := g r }

@[simp] theorem withUrl_id (g : Feed → Text) (r : Feed) : (withUrl g r).id = r.id := rfl

@[simp] theorem withUrl_url (g : Feed → Text) (r : Feed) : (withUrl g r).url = g r := rfl

theorem any_withUrl (g : Feed → Text) (c : Text) :
    ((rows.map (withUrl g)).any fun r => r.url = c) = true ↔ Relocation.Held rows g c := by
  rw [List.any_map, List.any_eq_true]
  exact exists_congr fun r => and_congr_right fun _ => decide_eq_true_iff

/-- **One feed**: the migration visits a row. -/
theorem forwardsOne_eq_ok (hids : (rows.map Feed.id).Nodup) {g : Feed → Text} {feed : Feed}
    (hfeed : feed ∈ rows) (hg : g feed = feed.url) :
    forwardsOne t (rows.map (withUrl g)) feed =
      .ok (rows.map (withUrl (Relocation.visit (canonical t) rows g feed))) := by
  rw [forwardsOne, Relocation.visit, hg]
  cases hc : canonical t feed.url with
  | none => rfl
  | some c =>
    have hne : c.isEmpty = false := List.isEmpty_eq_false_iff.mpr (canonical_ne_nil hc)
    by_cases hfree : c ≠ feed.url ∧ ¬ Relocation.Held rows g c
    · have hnone : ((rows.map (withUrl g)).any fun r => r.url = c) = false := by
        rw [← Bool.not_eq_true, any_withUrl]
        exact hfree.2
      have huntaken : taken feed.id c (rows.map (withUrl g)) = false := by
        refine List.any_eq_false.mpr fun r hr hboth => ?_
        exact List.any_eq_false.mp hnone r hr (Bool.and_eq_true_iff.mp hboth).2
      dsimp only
      rw [if_pos hfree, hnone, hne, if_pos (by simpa using hfree.1), updateUrl, huntaken,
        if_neg Bool.false_ne_true, updateWhere, List.map_map]
      refine congrArg Except.ok (List.map_congr_left fun r hr => ?_)
      rw [Function.comp_apply, withUrl_id]
      by_cases hown : r = feed
      · subst hown
        rw [if_pos (beq_self_eq_true r.id), withUrl, withUrl, Function.update_self]
      · have hid : ¬ (r.id == feed.id) = true := fun h =>
          hown (List.inj_on_of_nodup_map hids hr hfeed (eq_of_beq h))
        rw [if_neg hid, withUrl, withUrl, Function.update_of_ne hown]
    · dsimp only
      rw [if_neg hfree, if_neg]
      intro hcond
      simp only [hne, Bool.not_false, Bool.true_and, Bool.and_eq_true, decide_eq_true_eq,
        Bool.not_eq_true', ← Bool.not_eq_true, any_withUrl] at hcond
      exact hfree hcond

/-- **The migration is the loop over rows that move to better places**, and no update of
it is refused. -/
theorem forwards_withUrl (hids : (rows.map Feed.id).Nodup) {g : Feed → Text}
    (horder : order.Nodup) (hrows : ∀ r ∈ order, r ∈ rows) (hg : ∀ r ∈ order, g r = r.url) :
    forwards t order (rows.map (withUrl g)) =
      .ok (rows.map (withUrl (Relocation.relocate (canonical t) rows order g))) := by
  induction order generalizing g with
  | nil => rfl
  | cons feed order ih =>
    rw [List.nodup_cons] at horder
    rw [List.forall_mem_cons] at hrows hg
    rw [forwards, List.foldlM_cons, forwardsOne_eq_ok hids hrows.1 hg.1]
    refine ih horder.2 hrows.2 fun r hr => ?_
    -- feeds behind this one have the URL the iterator has read
    have hne : r ≠ feed := fun h => horder.1 (h ▸ hr)
    rw [Relocation.visit_of_ne hne]
    exact hg.2 r hr

theorem nodup_of_ids (hids : (rows.map Feed.id).Nodup) : rows.Nodup := hids.of_map _

theorem apart_of_urls (hurls : (rows.map Feed.url).Nodup) : Relocation.Apart rows Feed.url :=
  fun _ hr _ hr' h => List.inj_on_of_nodup_map hurls hr hr' h

theorem forwards_eq_ok (hids : (rows.map Feed.id).Nodup) (hperm : order.Perm rows) :
    forwards t order rows =
      .ok (rows.map (withUrl (Relocation.relocate (canonical t) rows order Feed.url))) := by
  have hself : rows.map (withUrl Feed.url) = rows := List.map_id rows
  have hloop := forwards_withUrl (t := t) (g := Feed.url) hids
    (hperm.nodup_iff.mpr (nodup_of_ids hids)) (fun r hr => hperm.mem_iff.mp hr) fun r _ => rfl
  rw [hself] at hloop
  exact hloop

/-! ### What the table is to be -/

/-- The table after the migration: different URLs, each the old one or its canonical form,
and a URL that is not canonical is there only because its canonical form is there too. -/
structure Migrated (t : HostTables) (rows rows' : List Feed) : Prop where
  urls : (rows'.map Feed.url).Nodup
  rows : List.Forall₂ (fun r r' => r' = { r with url := r'.url } ∧
    (r'.url = r.url ∨ canonical t r.url = some r'.url)) rows rows'
  settled : ∀ r ∈ rows', ∀ c, canonical t r.url = some c → c ≠ r.url → ∃ r' ∈ rows', r'.url = c

/-- **Whatever the order**, URLs stay unique, and each is the old one or its canonical
form. -/
theorem forwards_urls (hids : (rows.map Feed.id).Nodup) (hurls : (rows.map Feed.url).Nodup)
    (hperm : order.Perm rows) : ∃ rows', forwards t order rows = .ok rows' ∧
      (rows'.map Feed.url).Nodup ∧
      List.Forall₂ (fun r r' => r' = { r with url := r'.url } ∧
        (r'.url = r.url ∨ canonical t r.url = some r'.url)) rows rows' := by
  refine ⟨_, forwards_eq_ok hids hperm, ?_, ?_⟩
  · rw [List.map_map]
    exact (List.nodup_map_iff_inj_on (nodup_of_ids hids)).mpr fun r hr r' hr' heq =>
      Relocation.relocate_apart (apart_of_urls hurls) order r hr r' hr' heq
  · rw [List.forall₂_map_right_iff, List.forall₂_same]
    intro r _
    refine ⟨rfl, ?_⟩
    have hnodup : order.Nodup := hperm.nodup_iff.mpr (nodup_of_ids hids)
    obtain hsame | hmoved :=
      Relocation.relocate_value (f := Feed.url) hnodup r
    · exact .inl hsame
    · exact .inr hmoved.1

/-- The rest is whether the loop settles the table. -/
theorem migrated_iff (hids : (rows.map Feed.id).Nodup) (hurls : (rows.map Feed.url).Nodup)
    (hperm : order.Perm rows) :
    (∃ rows', forwards t order rows = .ok rows' ∧ Migrated t rows rows') ↔
      Relocation.Settles (canonical t) rows
        (Relocation.relocate (canonical t) rows order Feed.url) := by
  obtain ⟨rows', hok, hnodup, hrows⟩ := forwards_urls (t := t) hids hurls hperm
  have hend := hok.symm.trans (forwards_eq_ok hids hperm)
  rw [Except.ok.injEq] at hend
  rw [hok]
  subst hend
  constructor
  · rintro ⟨_, hsame, h⟩ r hr c hc
    obtain rfl := Except.ok.inj hsame
    obtain ⟨r', hr', hurl⟩ := h.settled _ (List.mem_map_of_mem hr) c hc.1 hc.2
    obtain ⟨r₀, hr₀, rfl⟩ := List.mem_map.mp hr'
    exact ⟨r₀, hr₀, hurl⟩
  · intro h
    refine ⟨_, rfl, hnodup, hrows, fun r hr c hc hne => ?_⟩
    obtain ⟨r₀, hr₀, rfl⟩ := List.mem_map.mp hr
    obtain ⟨r', hr', hurl⟩ := h r₀ hr₀ c ⟨hc, hne⟩
    exact ⟨_, List.mem_map_of_mem hr', hurl⟩

/-- **The migration.**  In every order of the feeds it comes to an end and leaves the
table as it is to be, exactly if the chains of canonical forms allow it. -/
theorem forwards_migrated_iff (hids : (rows.map Feed.id).Nodup)
    (hurls : (rows.map Feed.url).Nodup) :
    (∀ order : List Feed, order.Perm rows →
        ∃ rows', forwards t order rows = .ok rows' ∧ Migrated t rows rows') ↔
      Relocation.Chains (canonical t) rows Feed.url := by
  rw [← Relocation.settles_iff (nodup_of_ids hids) (apart_of_urls hurls)]
  exact forall₂_congr fun order hperm => migrated_iff hids hurls hperm

/-! ### Two tables -/

/-- A feed with this id and URL. -/
def feedAt (id : ℕ) (url : Text) : Feed where
  id := id
  url := url
  siteUrl := []
  title := []
  language := .simple
  etag := none
  lastModified := none
  intervalSeconds := 1800
  lastFetchedAt := none
  nextFetchAt := 0
  lastStatus := none
  consecutiveErrors := 0
  disabledUntil := none
  isActive := true
  isDeleted := false

/-- A feed whose URL is canonical, and one whose canonical form is the URL of the other. -/
def clashing : List Feed :=
  [feedAt 1 "https://dup.example/rss".toList, feedAt 2 "https://DUP.example/rss".toList]

/-- The canonical form has no other one, so the second feed is left for the operator. -/
theorem forwards_migrated_iff_clashing :
    Relocation.Chains (canonical bookHosts) clashing Feed.url ∧
      ∀ order : List Feed, order.Perm clashing →
        ∃ rows', forwards bookHosts order clashing = .ok rows' ∧
          Migrated bookHosts clashing rows' := by
  have hchains : Relocation.Chains (canonical bookHosts) clashing Feed.url := by
    rintro u c d ⟨r, hr, rfl⟩ hc hd
    have hcanonical : ∀ r ∈ clashing,
        canonical bookHosts r.url = some "https://dup.example/rss".toList := by decide
    have hsettled : canonical bookHosts "https://dup.example/rss".toList =
        some "https://dup.example/rss".toList := by decide
    obtain rfl := Option.some.inj ((hcanonical r hr).symm.trans hc.1)
    exact absurd (Option.some.inj (hd.1.symm.trans hsettled)) hd.2
  exact ⟨hchains, (forwards_migrated_iff (by decide) (by decide)).mpr hchains⟩

/-- **A canonical form that is not canonical.**  The host ends in an ideographic full stop,
which becomes a dot that the next canonical form has not. -/
theorem forwards_leaves_dot :
    forwards bookHosts [feedAt 1 "https://bücher.example。/rss".toList]
        [feedAt 1 "https://bücher.example。/rss".toList] =
      .ok [feedAt 1 "https://xn--bcher-kva.example./rss".toList] ∧
    canonical bookHosts "https://xn--bcher-kva.example./rss".toList =
      some "https://xn--bcher-kva.example/rss".toList ∧
    ¬ ∀ order : List Feed, order.Perm [feedAt 1 "https://bücher.example。/rss".toList] →
      ∃ rows',
        forwards bookHosts order [feedAt 1 "https://bücher.example。/rss".toList] = .ok rows' ∧
        Migrated bookHosts [feedAt 1 "https://bücher.example。/rss".toList] rows' := by
  have hrun : forwards bookHosts [feedAt 1 "https://bücher.example。/rss".toList]
      [feedAt 1 "https://bücher.example。/rss".toList] =
      .ok [feedAt 1 "https://xn--bcher-kva.example./rss".toList] := by decide
  have hnext : canonical bookHosts "https://xn--bcher-kva.example./rss".toList =
      some "https://xn--bcher-kva.example/rss".toList := by decide
  refine ⟨hrun, hnext, fun hall => ?_⟩
  obtain ⟨rows', hok, h⟩ := hall _ (.refl _)
  obtain rfl := Except.ok.inj (hrun.symm.trans hok)
  obtain ⟨r, hr, hurl⟩ := h.settled _ (List.mem_singleton_self _) _ hnext (by decide)
  rw [List.mem_singleton.mp hr] at hurl
  exact absurd hurl (by decide)

end UrlMigration
