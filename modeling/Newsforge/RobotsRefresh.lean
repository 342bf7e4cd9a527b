/-
Dropping the cached policies (`refresh_robots_cache` of `tasks/scheduler.py`).

* `refreshDomains`, `refreshRobotsCache` — the task;
* `rateHost_of_robotsHost`, `robotsHost_of_rateHost` — its host of a URL is the domain
  under which `is_allowed` looks for a policy.

Main result: `refreshRobotsCache_spec`.
-/
import Newsforge.CrawlGate
import Newsforge.FeedEntries
import Newsforge.HostNames

open PyText UrlParse SafeHttp Tables

namespace CrawlGate

open Expiring Feeds

variable {s : FetchSettings}

/-! ### The policies are dropped -/

/-- The hosts whose policies `refresh_robots_cache` drops. -/
def refreshDomains (u : UnicodeTables) (feeds : List Feed) : Except Text (List Text) :=
  ((feeds.filter fun f => f.isActive && !f.isDeleted).mapM fun f => rateHost u f.url).map
    fun hosts => ((hosts.filter fun host => !host.isEmpty).map (lower u)).dedup

/-- `refresh_robots_cache`: how many policies it drops, and Redis behind it. -/
def refreshRobotsCache (u : UnicodeTables) (feeds : List Feed) (r : Redis) :
    Except Text (ℕ × Redis) :=
  (refreshDomains u feeds).map fun domains =>
    (domains.length, domains.foldl (fun r domain => r.invalidate domain) r)

theorem cache_invalidateAll {domains : List Text} {r : Redis} (k : Text) :
    (domains.foldl (fun r domain => r.invalidate domain) r).cache k =
      if ∃ domain ∈ domains, k = cacheKey domain then none else r.cache k := by
  induction domains generalizing r with
  | nil => simp
  | cons d domains ih =>
    rw [List.foldl_cons, ih]
    by_cases hk : k = cacheKey d
    · subst hk
      simp [Redis.invalidate]
    · have hinv : (r.invalidate d).cache k = r.cache k := delete_of_ne hk
      simp [hinv, hk]

theorem cooldown_invalidateAll (domains : List Text) (r : Redis) :
    (domains.foldl (fun r domain => r.invalidate domain) r).cooldown = r.cooldown := by
  induction domains generalizing r with
  | nil => rfl
  | cons d domains ih => exact ih (r.invalidate d)

/-- A loop that may raise: it ends with the results of all items, or with the error of one. -/
theorem mapM_except {α β : Type} {f : α → Except Text β} (l : List α) :
    (∃ ys, l.mapM f = .ok ys ∧ (∀ x ∈ l, ∃ y, f x = .ok y) ∧
      ∀ y, y ∈ ys ↔ ∃ x ∈ l, f x = .ok y) ∨
      ∃ m, l.mapM f = .error m ∧ ∃ x ∈ l, f x = .error m := by
  induction l with
  | nil => exact .inl ⟨[], rfl, by simp⟩
  | cons x l ih =>
    rw [List.mapM_cons]
    cases hx : f x with
    | error m => exact .inr ⟨m, rfl, x, List.mem_cons_self, hx⟩
    | ok y =>
      rcases ih with ⟨ys, hys, hall, hmem⟩ | ⟨m, hm, z, hz, hfz⟩
      · refine .inl ⟨y :: ys, by simp [hys, bind, Except.bind, pure, Except.pure],
          List.forall_mem_cons.mpr ⟨⟨y, hx⟩, hall⟩, fun w => ?_⟩
        rw [List.mem_cons, hmem]
        constructor
        · rintro (rfl | ⟨z, hz, hfz⟩)
          · exact ⟨x, List.mem_cons_self, hx⟩
          · exact ⟨z, List.mem_cons_of_mem _ hz, hfz⟩
        · rintro ⟨z, hz, hfz⟩
          rcases List.mem_cons.mp hz with rfl | hz
          · rw [hx] at hfz
            exact .inl (Except.ok.inj hfz).symm
          · exact .inr ⟨z, hz, hfz⟩
      · exact .inr ⟨m, by simp [hm, bind, Except.bind], z, List.mem_cons_of_mem _ hz, hfz⟩

/-- A feed that is polled. -/
def IsPolled (f : Feed) : Prop := f.isActive = true ∧ f.isDeleted = false

theorem mem_polled {f : Feed} {feeds : List Feed} :
    (f ∈ feeds.filter fun f => f.isActive && !f.isDeleted) ↔ f ∈ feeds ∧ IsPolled f := by
  simp [IsPolled]

/-- The two readings of a host agree: what `is_allowed` calls the domain is the host in
lower case. -/
theorem rateHost_of_robotsHost {k : CharTables} {u : UnicodeTables} (hu : UnicodeRules u k)
    {url domain scheme : Text} (h : robotsHost u url = .ok (some (domain, scheme))) :
    ∃ host, rateHost u url = .ok host ∧ host ≠ [] ∧ lower u host = domain := by
  obtain ⟨parsed, hostname, hsplit, hname, rfl, -⟩ := robotsHost_eq_ok h
  refine ⟨hostname, ?_, ?_, rfl⟩
  · have hhost : ∀ path query fragment,
        (⟨parsed.scheme, parsed.netloc, path, query, fragment⟩ : SplitResult).hostname u =
          some hostname := fun _ _ _ => hname
    have hwith : urlsplitWith u url [] = .ok parsed := hsplit
    simp only [rateHost, urlparse, hwith, bind, Except.bind, pure, Except.pure, Except.map, hhost,
      Option.getD_some]
  · rw [SplitResult.hostname] at hname
    split at hname
    · cases hname
    · rename_i hne
      rw [Option.some_inj] at hname
      rintro rfl
      -- an empty host in lower case was empty before
      rcases partition_cases '%' parsed.hostinfo.1 with ⟨-, hcut⟩ | ⟨name, zone, -, -, hcut⟩
      · rw [hcut] at hname
        simp only [Bool.false_eq_true, if_false, List.append_nil] at hname
        rw [hu.lower_eq, CharTables.lower_eq_nil] at hname
        exact hne (List.isEmpty_iff.mpr hname)
      · rw [hcut] at hname
        simp at hname

/-- And back. -/
theorem robotsHost_of_rateHost {u : UnicodeTables} {url host : Text}
    (h : rateHost u url = .ok host) (hne : host ≠ []) :
    ∃ scheme, robotsHost u url = .ok (some (lower u host, scheme)) := by
  have hsplit : urlsplitWith u url [] = urlsplit u url := rfl
  rw [rateHost, urlparse, hsplit] at h
  cases hp : urlsplit u url with
  | error m =>
    rw [hp] at h
    cases h
  | ok parsed =>
    rw [hp] at h
    simp only [bind, Except.bind, pure, Except.pure, Except.map, Except.ok.injEq] at h
    have hname : (parsed.hostname u).getD [] = host := h
    cases hhost : parsed.hostname u with
    | none =>
      rw [hhost] at hname
      exact absurd hname.symm hne
    | some hostname =>
      rw [hhost] at hname
      cases hname
      exact ⟨_, by simp only [robotsHost, hp, Except.map, hhost, Option.map_some]; rfl⟩

theorem rateHost_ok_iff {u : UnicodeTables} {url : Text} :
    (∃ host, rateHost u url = .ok host) ↔ Splits u url := by
  have hsplit : urlsplitWith u url [] = urlsplit u url := rfl
  rw [Splits, rateHost, urlparse, hsplit]
  cases urlsplit u url with
  | error m =>
    constructor
    · rintro ⟨host, hhost⟩
      cases hhost
    · rintro ⟨p, hp⟩
      cases hp
  | ok parsed => exact ⟨fun _ => ⟨parsed, rfl⟩, fun _ => ⟨_, rfl⟩⟩

/-- The domains are the hosts of the feeds that are polled, each once. -/
theorem refreshDomains_eq_ok {k : CharTables} {u : UnicodeTables} (hu : UnicodeRules u k)
    {feeds : List Feed} {domains : List Text} (h : refreshDomains u feeds = .ok domains) :
    domains.Nodup ∧ ∀ domain, domain ∈ domains ↔
      ∃ f ∈ feeds, IsPolled f ∧ ∃ scheme, robotsHost u f.url = .ok (some (domain, scheme)) := by
  rw [refreshDomains] at h
  rcases mapM_except (f := fun f : Feed => rateHost u f.url)
      (feeds.filter fun f => f.isActive && !f.isDeleted) with ⟨hosts, hok, -, hmem⟩ | ⟨m, herr, -⟩
  · rw [hok] at h
    cases h
    refine ⟨List.nodup_dedup _, fun domain => ?_⟩
    rw [List.mem_dedup, List.mem_map]
    constructor
    · rintro ⟨host, hhost, rfl⟩
      obtain ⟨hin, hne⟩ := List.mem_filter.mp hhost
      obtain ⟨f, hf, hrate⟩ := (hmem host).mp hin
      obtain ⟨hfeed, hpolled⟩ := mem_polled.mp hf
      exact ⟨f, hfeed, hpolled, robotsHost_of_rateHost hrate (by simpa using hne)⟩
    · rintro ⟨f, hf, hpolled, scheme, hrobots⟩
      obtain ⟨host, hrate, hne, rfl⟩ := rateHost_of_robotsHost hu hrobots
      exact ⟨host, List.mem_filter.mpr ⟨(hmem host).mpr ⟨f, mem_polled.mpr ⟨hf, hpolled⟩, hrate⟩,
        by simpa using hne⟩, rfl⟩
  · rw [herr] at h
    cases h

/-- **`refresh_robots_cache` drops the policies of the feeds that are polled**, and nothing
else: the next check of each of them asks its host.  It raises, and drops nothing, exactly
if some URL cannot be split. -/
theorem refreshRobotsCache_spec {k : CharTables} (hu : UnicodeRules s.hosts.unicode k)
    (feeds : List Feed) (w : World) :
    ((∃ n r, refreshRobotsCache s.hosts.unicode feeds w.redis = .ok (n, r)) ↔
      ∀ f ∈ feeds, IsPolled f → Splits s.hosts.unicode f.url) ∧
    ∀ n r, refreshRobotsCache s.hosts.unicode feeds w.redis = .ok (n, r) →
      (∃ domains : List Text, domains.Nodup ∧ domains.length = n ∧ ∀ domain,
        domain ∈ domains ↔ ∃ f ∈ feeds, IsPolled f ∧
          ∃ scheme, robotsHost s.hosts.unicode f.url = .ok (some (domain, scheme))) ∧
      (∀ f ∈ feeds, IsPolled f → cachedFor s { w with redis := r } f.url = none) ∧
      (∀ key, (∀ f ∈ feeds, IsPolled f → ∀ domain scheme,
        robotsHost s.hosts.unicode f.url = .ok (some (domain, scheme)) → key ≠ cacheKey domain) →
          r.cache key = w.redis.cache key) ∧
      r.cooldown = w.redis.cooldown := by
  constructor
  · constructor
    · rintro ⟨n, r, hrun⟩ f hf hpolled
      rw [refreshRobotsCache, refreshDomains] at hrun
      rcases mapM_except (f := fun f : Feed => rateHost s.hosts.unicode f.url)
          (feeds.filter fun f => f.isActive && !f.isDeleted) with ⟨-, -, hall, -⟩ | ⟨m, herr, -⟩
      · exact rateHost_ok_iff.mp (hall f (mem_polled.mpr ⟨hf, hpolled⟩))
      · rw [herr] at hrun
        cases hrun
    · intro hall
      rcases mapM_except (f := fun f : Feed => rateHost s.hosts.unicode f.url)
          (feeds.filter fun f => f.isActive && !f.isDeleted) with ⟨hosts, hok, -, -⟩ | ⟨m, -, f, hf, herr⟩
      · exact ⟨_, _, by rw [refreshRobotsCache, refreshDomains, hok]; rfl⟩
      · obtain ⟨hfeed, hpolled⟩ := mem_polled.mp hf
        obtain ⟨host, hrate⟩ := rateHost_ok_iff.mpr (hall f hfeed hpolled)
        rw [herr] at hrate
        cases hrate
  · intro n r hrun
    rw [refreshRobotsCache] at hrun
    cases hdomains : refreshDomains s.hosts.unicode feeds with
    | error m =>
      rw [hdomains] at hrun
      cases hrun
    | ok domains =>
      rw [hdomains] at hrun
      cases hrun
      obtain ⟨hnodup, hmem⟩ := refreshDomains_eq_ok hu hdomains
      refine ⟨⟨domains, hnodup, rfl, hmem⟩, fun f hf hpolled => ?_, fun key hkey => ?_,
        cooldown_invalidateAll domains w.redis⟩
      · rw [cachedFor]
        cases hhost : robotsHost s.hosts.unicode f.url with
        | error m => rfl
        | ok found =>
          cases found with
          | none => rfl
          | some host =>
            obtain ⟨domain, scheme⟩ := host
            have hin : domain ∈ domains := (hmem domain).mpr ⟨f, hf, hpolled, scheme, hhost⟩
            simp only
            rw [Expiring.get, cache_invalidateAll, if_pos ⟨domain, hin, rfl⟩]
            rfl
      · rw [cache_invalidateAll, if_neg]
        rintro ⟨domain, hin, rfl⟩
        obtain ⟨f, hf, hpolled, scheme, hhost⟩ := (hmem domain).mp hin
        exact hkey f hf hpolled domain scheme hhost rfl

/-- The settings, with tables for names that are not ASCII. -/
def wideSettings : FetchSettings := { sampleSettings with hosts := bookHosts }

/-- One feed is polled, and every key is in the cache. -/
theorem refreshRobotsCache_spec_one :
    ∃ n r, refreshRobotsCache basicUnicode [sampleFeed]
      ⟨fun _ => some ([], 7), fun _ => none⟩ = .ok (n, r) ∧ r.cooldown = fun _ => none := by
  have hspec := refreshRobotsCache_spec (s := wideSettings) basicUnicode_rules [sampleFeed]
    ⟨0, ⟨fun _ => some ([], 7), fun _ => none⟩, []⟩
  have hsplit : ∀ f ∈ [sampleFeed], IsPolled f → Splits basicUnicode f.url := by
    intro f hf _
    rw [List.mem_singleton.mp hf]
    decide
  obtain ⟨n, r, hrun⟩ := hspec.1.mpr hsplit
  exact ⟨n, r, hrun, (hspec.2 n r hrun).2.2.2⟩

end CrawlGate
