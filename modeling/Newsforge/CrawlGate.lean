/-
The gate in front of a fetch: robots.txt and the rate limit, with Redis between workers.

* `Redis` — the cached policies and the hosts on cooldown;
* `Phase`, `step` — `is_allowed` and `try_acquire`, command by command;
* `next` — any number of workers, next to time that passes and policies that are dropped;
* `Did`, `step_did` — what each step does, said once.

With nobody else at it, the steps are `Robots.isAllowed` (`gate_alone`) and
`Feeds.tryAcquire` (`acquire_alone`).  `World.log` is a ghost, the latest event first.
-/
import Newsforge.Expiring
import Newsforge.FeedFetch
import Newsforge.Runs

open PyText UrlParse SafeHttp Tables Runs

namespace CrawlGate

open Expiring Feeds

/-! ### Redis -/

/-- The policies that are cached, and the hosts that were fetched just now. -/
structure Redis where
  cache : Store Text Text Time
  cooldown : Store Text Unit Time

/-- `_cache_key`. -/
def cacheKey (domain : Text) : Text := "robots:".toList ++ domain

/-- `_key`. -/
def rateKey (domain : Text) : Text := "rl:fetch:".toList ++ domain

theorem cacheKey_inj {d d' : Text} (h : cacheKey d = cacheKey d') : d = d' :=
  List.append_cancel_left h

theorem rateKey_inj {d d' : Text} (h : rateKey d = rateKey d') : d = d' :=
  List.append_cancel_left h

/-- `cache.set(_cache_key(domain), body, ttl)`. -/
def Redis.storePolicy (now : Time) (domain : Text) (policy : Text × ℕ) (r : Redis) : Redis :=
  { r with cache := set (cacheKey domain) policy.1 (now + policy.2 * second) r.cache }

/-- The key of a host is set, for some seconds. -/
def Redis.cool (now : Time) (domain : Text) (seconds : ℕ) (r : Redis) : Redis :=
  { r with cooldown := set (rateKey domain) () (now + seconds * second) r.cooldown }

/-- `invalidate`. -/
def Redis.invalidate (domain : Text) (r : Redis) : Redis :=
  { r with cache := delete (cacheKey domain) r.cache }

/-- What happened: a host answered for its robots.txt, or did not; the policy was put into
the cache; or the host was acquired. -/
inductive Event
  | asked (now : Time) (domain : Text) (outcome : Except RequestError Response)
  | stored (now : Time) (domain : Text) (policy : Text × ℕ)
  | acquired (now : Time) (domain : Text)

/-- What the workers share. -/
structure World where
  clock : Time
  redis : Redis
  log : List Event

/-! ### Workers -/

/-- Where a run of the gate stands.  `readAt` is a ghost: when the policy was read. -/
inductive Phase
  | start
  /-- the cache has no policy of the host -/
  | ask (domain scheme : Text)
  | store (domain : Text) (outcome : Except RequestError Response) (policy : Text × ℕ)
  | decide (body : Text) (readAt : Time)
  | acquire (body : Text) (readAt : Time)
  /-- the feed may be fetched now -/
  | fetch (body : Text) (readAt : Time)
  /-- robots.txt forbids it -/
  | blocked (body : Text) (readAt : Time)
  /-- another feed of the host was fetched just now -/
  | limited (body : Text) (readAt : Time)
  /-- the URL has no host -/
  | hostless
  | failed

/-- A worker: the URL of the feed, and its phase. -/
structure Task where
  url : Text
  phase : Phase

/-- The worker goes on with `phase`. -/
def Task.goto (t : Task) (phase : Phase) : Task := { t with phase := phase }

@[simp] theorem Task.goto_url (t : Task) (phase : Phase) : (t.goto phase).url = t.url := rfl

@[simp] theorem Task.goto_goto (t : Task) (phase phase' : Phase) :
    (t.goto phase).goto phase' = t.goto phase' := rfl

@[simp] theorem Task.goto_phase (t : Task) (phase : Phase) : (t.goto phase).phase = phase := rfl

/-- The host of a URL as `is_allowed` reads it, with the scheme. -/
def robotsHost (u : UnicodeTables) (url : Text) : Except Text (Option (Text × Text)) :=
  (urlsplit u url).map fun parsed => (parsed.hostname u).map fun hostname =>
    (lower u hostname, if parsed.scheme.isEmpty then "https".toList else parsed.scheme)

/-- The host of a URL as `try_acquire` reads it. -/
def rateHost (u : UnicodeTables) (url : Text) : Except Text Text :=
  (urlparse u url []).map fun p =>
    ((⟨p.scheme, p.netloc, p.path, p.query, p.fragment⟩ : SplitResult).hostname u).getD []

/-- How a request for a robots.txt ends. -/
def robotsOutcome (s : Robots.Settings) (net : Internet) (domain scheme : Text) :
    Except RequestError Response :=
  (request s.hosts s.is net (Robots.robotsOptions s) "GET".toList
    (Robots.robotsUrl domain scheme) none).2

inductive Action
  | lookup
  /-- the request for the robots.txt, and what it meets -/
  | ask (net : Internet)
  | store
  | decide
  | acquire

/-- One step of a worker. -/
def step (s : FetchSettings) (a : Action) (t : Task) (w : World) : Option (Task × World) :=
  match a, t.phase with
  | .lookup, .start =>
    match robotsHost s.hosts.unicode t.url with
    | .error _ => some (t.goto .failed, w)
    | .ok none => some (t.goto .hostless, w)
    | .ok (some (domain, scheme)) =>
      match get w.clock (cacheKey domain) w.redis.cache with
      | some body => some (t.goto (.decide body w.clock), w)
      | none => some (t.goto (.ask domain scheme), w)
  | .ask net, .ask domain scheme =>
    let outcome := robotsOutcome s.toSettings net domain scheme
    match Robots.policyOf outcome with
    | .error _ => some (t.goto .failed, w)
    | .ok policy =>
      some (t.goto (.store domain outcome policy),
        { w with log := .asked w.clock domain outcome :: w.log })
  | .store, .store domain _ policy =>
    some (t.goto (.decide policy.1 w.clock),
      { w with
        redis := w.redis.storePolicy w.clock domain policy
        log := .stored w.clock domain policy :: w.log })
  | .decide, .decide body readAt =>
    if body.isEmpty then some (t.goto (.acquire body readAt), w)
    else
      match Robots.canFetch s.hosts.unicode body t.url (Robots.productToken s.userAgent) with
      | .error _ => some (t.goto .failed, w)
      | .ok true => some (t.goto (.acquire body readAt), w)
      | .ok false => some (t.goto (.blocked body readAt), w)
  | .acquire, .acquire body readAt =>
    match rateHost s.hosts.unicode t.url with
    | .error _ => some (t.goto .failed, w)
    | .ok domain =>
      if domain.isEmpty then some (t.goto (.limited body readAt), w)
      -- Redis refuses an expiry of 0
      else if s.perDomainMinInterval = 0 then some (t.goto .failed, w)
      else
        match setNx w.clock (rateKey domain) ()
            (w.clock + s.perDomainMinInterval * second) w.redis.cooldown with
        | (false, _) => some (t.goto (.limited body readAt), w)
        | (true, cooldown) =>
          some (t.goto (.fetch body readAt),
            { w with
              redis := { w.redis with cooldown := cooldown }
              log := .acquired w.clock domain :: w.log })
  | _, _ => none

/-- What happens around the workers: time passes, or a policy is dropped. -/
inductive Outside
  | tick (elapsed : ℕ)
  | invalidate (domain : Text)

def outside (e : Outside) (w : World) : Option World :=
  match e with
  | .tick elapsed => some { w with clock := w.clock + elapsed }
  | .invalidate domain => some { w with redis := w.redis.invalidate domain }

abbrev Workers (ι : Type*) := Config ι World Task

/-- The interleavings of the workers. -/
def next (s : FetchSettings) {ι : Type*} [DecidableEq ι] :
    Move ι Action Outside → Workers ι → Option (Workers ι) := Config.next (step s) outside

/-! ### What a step does -/

/-- What `is_allowed` makes of a policy that is cached. -/
def Rules (s : FetchSettings) (url body : Text) (ok : Bool) : Prop :=
  ∀ net, Robots.isAllowed s.toSettings net (some body) url = .ok (ok, none)

/-- What each step of a worker does. -/
inductive Did (s : FetchSettings) : Task → World → Task → World → Prop
  | failed {t w} : Did s t w (t.goto .failed) w
  | hostless {t w} : Did s t w (t.goto .hostless) w
  | hit {t w} (domain scheme body : Text)
      (hhost : robotsHost s.hosts.unicode t.url = .ok (some (domain, scheme)))
      (hget : get w.clock (cacheKey domain) w.redis.cache = some body) :
      Did s t w (t.goto (.decide body w.clock)) w
  | missed {t w} (domain scheme : Text)
      (hhost : robotsHost s.hosts.unicode t.url = .ok (some (domain, scheme))) :
      Did s t w (t.goto (.ask domain scheme)) w
  | answered {t w} (domain scheme : Text) (outcome : Except RequestError Response)
      (policy : Text × ℕ) (hphase : t.phase = .ask domain scheme)
      (hpolicy : Robots.policyOf outcome = .ok policy) :
      Did s t w (t.goto (.store domain outcome policy))
        { w with log := .asked w.clock domain outcome :: w.log }
  | stored {t w} (domain : Text) (outcome : Except RequestError Response) (policy : Text × ℕ)
      (hphase : t.phase = .store domain outcome policy) :
      Did s t w (t.goto (.decide policy.1 w.clock))
        { w with
          redis := w.redis.storePolicy w.clock domain policy
          log := .stored w.clock domain policy :: w.log }
  | allowed {t w} (body : Text) (readAt : Time) (hphase : t.phase = .decide body readAt)
      (hok : body = [] ∨ Robots.canFetch s.hosts.unicode body t.url
        (Robots.productToken s.userAgent) = .ok true) :
      Did s t w (t.goto (.acquire body readAt)) w
  | blocked {t w} (body : Text) (readAt : Time) (hphase : t.phase = .decide body readAt)
      (hne : body ≠ []) (hno : Robots.canFetch s.hosts.unicode body t.url
        (Robots.productToken s.userAgent) = .ok false) :
      Did s t w (t.goto (.blocked body readAt)) w
  | limited {t w} (body : Text) (readAt : Time) (hphase : t.phase = .acquire body readAt) :
      Did s t w (t.goto (.limited body readAt)) w
  | acquired {t w} (domain body : Text) (readAt : Time) (hphase : t.phase = .acquire body readAt)
      (hfree : get w.clock (rateKey domain) w.redis.cooldown = none) :
      Did s t w (t.goto (.fetch body readAt))
        { w with
          redis := w.redis.cool w.clock domain s.perDomainMinInterval
          log := .acquired w.clock domain :: w.log }

variable {s : FetchSettings} {t t' : Task} {w w' : World}

/-- The lookup finds a policy, or asks for one. -/
theorem lookup_did (h : step s .lookup t w = some (t', w')) : Did s t w t' w' := by
  rw [step.eq_def] at h
  cases hphase : t.phase with
  | start =>
    simp only [hphase] at h
    cases hhost : robotsHost s.hosts.unicode t.url with
    | error m =>
      simp only [hhost] at h
      cases h
      exact .failed
    | ok found =>
      cases found with
      | none =>
        simp only [hhost] at h
        cases h
        exact .hostless
      | some host =>
        obtain ⟨domain, scheme⟩ := host
        simp only [hhost] at h
        cases hget : get w.clock (cacheKey domain) w.redis.cache with
        | some body =>
          simp only [hget] at h
          cases h
          exact .hit domain scheme body hhost hget
        | none =>
          simp only [hget] at h
          cases h
          exact .missed domain scheme hhost
  | _ => simp [hphase] at h

/-- The policy is applied to the URL. -/
theorem decide_did (h : step s .decide t w = some (t', w')) : Did s t w t' w' := by
  rw [step.eq_def] at h
  cases hphase : t.phase with
  | decide body readAt =>
    simp only [hphase] at h
    by_cases hbody : body.isEmpty
    · rw [if_pos hbody] at h
      cases h
      exact .allowed body readAt hphase (.inl (List.isEmpty_iff.mp hbody))
    · rw [if_neg hbody] at h
      cases hfetch : Robots.canFetch s.hosts.unicode body t.url
          (Robots.productToken s.userAgent) with
      | error m =>
        simp only [hfetch] at h
        cases h
        exact .failed
      | ok ok =>
        cases ok with
        | true =>
          simp only [hfetch] at h
          cases h
          exact .allowed body readAt hphase (.inr hfetch)
        | false =>
          simp only [hfetch] at h
          cases h
          exact .blocked body readAt hphase (fun hnil => hbody (by simp [hnil])) hfetch
  | _ => simp [hphase] at h

/-- The host is acquired where it has no cooldown. -/
theorem acquire_did (h : step s .acquire t w = some (t', w')) : Did s t w t' w' := by
  rw [step.eq_def] at h
  cases hphase : t.phase with
  | acquire body readAt =>
    simp only [hphase] at h
    cases hhost : rateHost s.hosts.unicode t.url with
    | error m =>
      simp only [hhost] at h
      cases h
      exact .failed
    | ok domain =>
      simp only [hhost] at h
      split at h
      · cases h
        exact .limited body readAt hphase
      · split at h
        · cases h
          exact .failed
        · cases hset : setNx w.clock (rateKey domain) ()
              (w.clock + s.perDomainMinInterval * second) w.redis.cooldown with
          | mk got cooldown =>
            rw [hset] at h
            cases got with
            | false =>
              cases h
              exact .limited body readAt hphase
            | true =>
              obtain ⟨hfree, rfl⟩ := setNx_eq_true.mp hset
              cases h
              exact .acquired domain body readAt hphase hfree
  | _ => simp [hphase] at h

/-- **Inversion of `step`.** -/
theorem step_did {a : Action} (h : step s a t w = some (t', w')) : Did s t w t' w' := by
  cases a with
  | lookup => exact lookup_did h
  | ask net =>
    rw [step.eq_def] at h
    cases hphase : t.phase with
    | ask domain scheme =>
      simp only [hphase] at h
      cases hpolicy : Robots.policyOf (robotsOutcome s.toSettings net domain scheme) with
      | error e =>
        simp only [hpolicy] at h
        cases h
        exact .failed
      | ok policy =>
        simp only [hpolicy] at h
        cases h
        exact .answered domain scheme _ policy hphase hpolicy
    | _ => simp [hphase] at h
  | store =>
    rw [step.eq_def] at h
    cases hphase : t.phase with
    | store domain outcome policy =>
      simp only [hphase] at h
      cases h
      exact .stored domain outcome policy hphase
    | _ => simp [hphase] at h
  | decide => exact decide_did h
  | acquire => exact acquire_did h

/-! ### The answer of is_allowed -/

/-- The parts of a URL that has a host. -/
theorem robotsHost_eq_ok {u : UnicodeTables} {url domain scheme : Text}
    (h : robotsHost u url = .ok (some (domain, scheme))) :
    ∃ parsed hostname, urlsplit u url = .ok parsed ∧ parsed.hostname u = some hostname ∧
      domain = lower u hostname ∧
        scheme = if parsed.scheme.isEmpty then "https".toList else parsed.scheme := by
  rw [robotsHost] at h
  cases hsplit : urlsplit u url with
  | error m =>
    rw [hsplit] at h
    cases h
  | ok parsed =>
    rw [hsplit] at h
    cases hhost : parsed.hostname u with
    | none =>
      simp only [Except.map, hhost, Option.map_none] at h
      cases h
    | some hostname =>
      simp only [Except.map, hhost, Option.map_some, Except.ok.injEq, Option.some_inj,
        Prod.mk.injEq] at h
      exact ⟨parsed, hostname, rfl, hhost, h.1.symm, h.2.symm⟩

/-- With a policy in the cache, nothing is asked. -/
theorem isAllowed_cached {url domain scheme : Text}
    (h : robotsHost s.hosts.unicode url = .ok (some (domain, scheme))) (net : Internet)
    (body : Text) :
    Robots.isAllowed s.toSettings net (some body) url =
      if body.isEmpty then .ok (true, none)
      else (Robots.orValueError (Robots.canFetch s.hosts.unicode body url
        (Robots.productToken s.userAgent))).map fun ok => (ok, none) := by
  obtain ⟨parsed, hostname, hsplit, hhost, -, -⟩ := robotsHost_eq_ok h
  rw [Robots.isAllowed, hsplit]
  simp only [Robots.orValueError, bind, Except.bind, hhost, pure, Except.pure]
  split
  · rfl
  · cases Robots.canFetch s.hosts.unicode body url (Robots.productToken s.userAgent) <;> rfl

theorem rules_of_allowed {url domain scheme body : Text}
    (h : robotsHost s.hosts.unicode url = .ok (some (domain, scheme)))
    (hok : body = [] ∨ Robots.canFetch s.hosts.unicode body url
      (Robots.productToken s.userAgent) = .ok true) : Rules s url body true := by
  intro net
  rw [isAllowed_cached h]
  rcases hok with rfl | hok
  · rfl
  · rw [hok]
    split <;> rfl

theorem rules_of_blocked {url domain scheme body : Text}
    (h : robotsHost s.hosts.unicode url = .ok (some (domain, scheme))) (hne : body ≠ [])
    (hno : Robots.canFetch s.hosts.unicode body url
      (Robots.productToken s.userAgent) = .ok false) : Rules s url body false := by
  intro net
  rw [isAllowed_cached h, if_neg (by simpa using hne), hno]
  rfl

/-! ### One worker alone -/

/-- What `is_allowed` has returned, once it has. -/
def Phase.returned? : Phase → Option Bool
  | .acquire _ _ => some true
  | .blocked _ _ | .hostless => some false
  | _ => none

/-- The policy that the cache has for a URL. -/
def cachedFor (s : FetchSettings) (w : World) (url : Text) : Option Text :=
  match robotsHost s.hosts.unicode url with
  | .ok (some (domain, _)) => get w.clock (cacheKey domain) w.redis.cache
  | _ => none

/-- Redis behind `is_allowed`. -/
def Redis.kept (u : UnicodeTables) (now : Time) (url : Text) (stored : Option (Text × ℕ))
    (r : Redis) : Redis :=
  match robotsHost u url, stored with
  | .ok (some (domain, _)), some policy => r.storePolicy now domain policy
  | _, _ => r

/-- A URL that was split is split again. -/
theorem canFetch_eq_ok {url domain scheme : Text}
    (h : robotsHost s.hosts.unicode url = .ok (some (domain, scheme))) (body token : Text) :
    ∃ ok, Robots.canFetch s.hosts.unicode body url token = .ok ok := by
  obtain ⟨parsed, -, hsplit, -⟩ := robotsHost_eq_ok h
  rw [Robots.canFetch, hsplit]
  simp only [bind, Except.bind, pure, Except.pure]
  split
  · exact ⟨true, rfl⟩
  · exact ⟨_, rfl⟩

/-- From the policy on, the answer is that of `is_allowed`. -/
theorem decide_alone {domain scheme body : Text} {readAt : Time}
    (hhost : robotsHost s.hosts.unicode t.url = .ok (some (domain, scheme))) (net : Internet) :
    ∃ t' ok, step s .decide (t.goto (.decide body readAt)) w = some (t', w) ∧
      t'.phase.returned? = some ok ∧
        Robots.isAllowed s.toSettings net (some body) t.url = .ok (ok, none) := by
  obtain ⟨ok, hok⟩ := canFetch_eq_ok hhost body (Robots.productToken s.userAgent)
  rw [isAllowed_cached hhost]
  by_cases hbody : body.isEmpty
  · refine ⟨t.goto (.acquire body readAt), true, ?_, rfl, if_pos hbody⟩
    simp only [step.eq_def, Task.goto_phase, if_pos hbody, Task.goto_goto]
  · rw [if_neg hbody, hok]
    cases ok with
    | true =>
      refine ⟨t.goto (.acquire body readAt), true, ?_, rfl, rfl⟩
      simp only [step.eq_def, Task.goto_phase, Task.goto_url, if_neg hbody, hok, Task.goto_goto]
    | false =>
      refine ⟨t.goto (.blocked body readAt), false, ?_, rfl, rfl⟩
      simp only [step.eq_def, Task.goto_phase, Task.goto_url, if_neg hbody, hok, Task.goto_goto]

/-- Without a policy in the cache, the answer of the host counts as one. -/
theorem isAllowed_asked {url domain scheme : Text}
    (h : robotsHost s.hosts.unicode url = .ok (some (domain, scheme))) (net : Internet) :
    Robots.isAllowed s.toSettings net none url =
      (Robots.policyOf (robotsOutcome s.toSettings net domain scheme)).bind fun policy =>
        (Robots.isAllowed s.toSettings net (some policy.1) url).map fun r => (r.1, some policy) := by
  rw [funext fun policy : Text × ℕ => congrArg
    (Except.map fun r : Bool × Option (Text × ℕ) => (r.1, some policy))
      (isAllowed_cached h net policy.1)]
  obtain ⟨parsed, hostname, hsplit, hhost, rfl, rfl⟩ := robotsHost_eq_ok h
  rw [Robots.isAllowed, hsplit]
  simp only [Robots.orValueError, bind, Except.bind, hhost, pure, Except.pure]
  have hfetch : Robots.fetchRobots s.toSettings net (lower s.hosts.unicode hostname)
      (if parsed.scheme.isEmpty then "https".toList else parsed.scheme) =
      Robots.policyOf (robotsOutcome s.toSettings net (lower s.hosts.unicode hostname)
        (if parsed.scheme.isEmpty then "https".toList else parsed.scheme)) := rfl
  rw [hfetch]
  cases Robots.policyOf (robotsOutcome s.toSettings net (lower s.hosts.unicode hostname)
      (if parsed.scheme.isEmpty then "https".toList else parsed.scheme)) with
  | error e => rfl
  | ok policy =>
    simp only [Except.map]
    split
    · rfl
    · cases Robots.canFetch s.hosts.unicode policy.1 url (Robots.productToken s.userAgent) <;> rfl

/-- A URL without a host name is refused. -/
theorem isAllowed_hostless {url : Text} (h : robotsHost s.hosts.unicode url = .ok none)
    (net : Internet) (cached : Option Text) :
    Robots.isAllowed s.toSettings net cached url = .ok (false, none) := by
  rw [robotsHost] at h
  cases hsplit : urlsplit s.hosts.unicode url with
  | error m =>
    rw [hsplit] at h
    cases h
  | ok parsed =>
    rw [hsplit] at h
    cases hname : parsed.hostname s.hosts.unicode with
    | some hostname => simp [Except.map, hname] at h
    | none =>
      rw [Robots.isAllowed, hsplit]
      simp only [Robots.orValueError, bind, Except.bind, hname, pure, Except.pure]

/-- A URL that cannot be split has no answer. -/
theorem robotsHost_of_isAllowed {url : Text} {net : Internet} {cached : Option Text}
    {r : Bool × Option (Text × ℕ)} (h : Robots.isAllowed s.toSettings net cached url = .ok r) :
    ∃ found, robotsHost s.hosts.unicode url = .ok found := by
  rw [robotsHost]
  cases hsplit : urlsplit s.hosts.unicode url with
  | ok parsed => exact ⟨_, rfl⟩
  | error m =>
    rw [Robots.isAllowed, hsplit] at h
    cases h

section Alone

variable {ι : Type*} [DecidableEq ι] {c : Workers ι} {p : ι}

/-- One more step of a worker in a run that left the others alone. -/
theorem reach_step {c₀ : Workers ι} {a : Action} {t t' : Task} {w w' : World}
    (h : Reach (next s) anyMove c₀ ⟨w, Function.update c.loc p t⟩)
    (hstep : step s a t w = some (t', w')) :
    Reach (next s) anyMove c₀ ⟨w', Function.update c.loc p t'⟩ := by
  refine .step (m := .proc p a) h trivial (Config.next_proc.mpr ⟨t', w', ?_, ?_⟩)
  · rw [← hstep]
    exact congrArg (fun t => step s a t w) (Function.update_self ..)
  · exact congrArg (Config.mk w') (Function.update_idem ..).symm

/-- The first step of a worker. -/
theorem reach_first {loc : ι → Task} {a : Action} {t' : Task} {w w' : World}
    (hstep : step s a (loc p) w = some (t', w')) :
    Reach (next s) anyMove (⟨w, loc⟩ : Workers ι) ⟨w', Function.update loc p t'⟩ :=
  .step (m := .proc p a) .refl trivial (Config.next_proc.mpr ⟨t', w', hstep, rfl⟩)

/-- A run of one worker, from `is_allowed` to what it returned. -/
def Answered (s : FetchSettings) (p : ι) (c : Workers ι) (ok : Bool)
    (stored : Option (Text × ℕ)) : Prop :=
  ∃ c', Reach (next s) anyMove c c' ∧ (c'.loc p).phase.returned? = some ok ∧
    c'.shared.clock = c.shared.clock ∧
      c'.shared.redis = c.shared.redis.kept s.hosts.unicode c.shared.clock (c.loc p).url stored

theorem answered {loc : ι → Task} {t' : Task} {w w' : World} {ok : Bool}
    {stored : Option (Text × ℕ)}
    (h : Reach (next s) anyMove ⟨w, loc⟩ ⟨w', Function.update loc p t'⟩)
    (hok : t'.phase.returned? = some ok) (hclock : w'.clock = w.clock)
    (hredis : w'.redis = w.redis.kept s.hosts.unicode w.clock (loc p).url stored) :
    Answered s p ⟨w, loc⟩ ok stored :=
  ⟨⟨w', Function.update loc p t'⟩, h, by simpa using hok, hclock, hredis⟩

/-- With a policy in the cache. -/
theorem answered_cached {w : World} {loc : ι → Task} {domain scheme body : Text}
    {ok : Bool} {stored : Option (Text × ℕ)} (hphase : (loc p).phase = .start)
    (hhost : robotsHost s.hosts.unicode (loc p).url = .ok (some (domain, scheme)))
    (hget : get w.clock (cacheKey domain) w.redis.cache = some body) (net : Internet)
    (hrun : Robots.isAllowed s.toSettings net (some body) (loc p).url = .ok (ok, stored)) :
    Answered s p ⟨w, loc⟩ ok stored := by
  have hlookup : Reach (next s) anyMove (⟨w, loc⟩ : Workers ι)
      ⟨w, Function.update loc p ((loc p).goto (.decide body w.clock))⟩ :=
    reach_first (a := .lookup) (by simp only [step.eq_def, hphase, hhost, hget])
  obtain ⟨t', ok', hstep, hret, hallowed⟩ := decide_alone hhost net
  rw [hrun] at hallowed
  cases hallowed
  exact answered (reach_step (c := ⟨w, loc⟩) hlookup hstep) hret rfl (by simp [Redis.kept, hhost])

/-- With none, the worker asks the host and stores the policy. -/
theorem answered_asked {w : World} {loc : ι → Task} {domain scheme : Text}
    {ok : Bool} {stored : Option (Text × ℕ)} (hphase : (loc p).phase = .start)
    (hhost : robotsHost s.hosts.unicode (loc p).url = .ok (some (domain, scheme)))
    (hget : get w.clock (cacheKey domain) w.redis.cache = none) (net : Internet)
    (hrun : Robots.isAllowed s.toSettings net none (loc p).url = .ok (ok, stored)) :
    Answered s p ⟨w, loc⟩ ok stored := by
  have hlookup : Reach (next s) anyMove (⟨w, loc⟩ : Workers ι)
      ⟨w, Function.update loc p ((loc p).goto (.ask domain scheme))⟩ :=
    reach_first (a := .lookup) (by simp only [step.eq_def, hphase, hhost, hget])
  rw [isAllowed_asked hhost] at hrun
  cases hpolicy : Robots.policyOf (robotsOutcome s.toSettings net domain scheme) with
  | error e =>
    rw [hpolicy] at hrun
    cases hrun
  | ok policy =>
    rw [hpolicy] at hrun
    have hask := reach_step (c := ⟨w, loc⟩) hlookup (a := .ask net)
      (by simp only [step.eq_def, Task.goto_phase, hpolicy]; rfl)
    have hstore := reach_step (c := ⟨w, loc⟩) hask (a := .store)
      (by simp only [step.eq_def, Task.goto_phase]; rfl)
    obtain ⟨t', ok', hstep, hret, hallowed⟩ := decide_alone (t := loc p) hhost net
    have hdecide := reach_step (c := ⟨w, loc⟩) hstore hstep
    simp only [Except.bind, hallowed, Except.map] at hrun
    cases hrun
    exact answered hdecide hret rfl (by simp [Redis.kept, hhost])

/-- **With nobody else at it, the steps are `is_allowed`**, and what they leave in Redis is
what it puts into the cache. -/
theorem gate_alone (hphase : (c.loc p).phase = .start) (net : Internet) {ok : Bool}
    {stored : Option (Text × ℕ)}
    (hrun : Robots.isAllowed s.toSettings net (cachedFor s c.shared (c.loc p).url)
      (c.loc p).url = .ok (ok, stored)) : Answered s p c ok stored := by
  obtain ⟨w, loc⟩ := c
  dsimp only at hphase hrun ⊢
  obtain ⟨found, hhost⟩ := robotsHost_of_isAllowed hrun
  cases found with
  | none =>
    rw [isAllowed_hostless hhost] at hrun
    cases hrun
    have hlookup : Reach (next s) anyMove (⟨w, loc⟩ : Workers ι)
        ⟨w, Function.update loc p ((loc p).goto .hostless)⟩ :=
      reach_first (a := .lookup) (by simp only [step.eq_def, hphase, hhost])
    exact answered hlookup rfl rfl (by simp [Redis.kept, hhost])
  | some host =>
    obtain ⟨domain, scheme⟩ := host
    have hcached : cachedFor s w (loc p).url = get w.clock (cacheKey domain) w.redis.cache := by
      simp only [cachedFor, hhost]
    rw [hcached] at hrun
    cases hget : get w.clock (cacheKey domain) w.redis.cache with
    | some body => exact answered_cached hphase hhost hget net (by rwa [hget] at hrun)
    | none => exact answered_asked hphase hhost hget net (by rwa [hget] at hrun)

end Alone

/-- **The last step is `try_acquire`**, with a key that Redis sets where it has none. -/
theorem acquire_alone {t : Task} {w : World} {body : Text} {readAt : Time}
    (hpos : s.perDomainMinInterval ≠ 0) (hphase : t.phase = .acquire body readAt) {domain : Text}
    (hhost : rateHost s.hosts.unicode t.url = .ok domain) :
    ∃ t' w', step s .acquire t w = some (t', w') ∧
      (t'.phase = .fetch body readAt ↔
        tryAcquire s.hosts.unicode
          (get w.clock (rateKey domain) w.redis.cooldown).isNone t.url = .ok true) := by
  have htry : tryAcquire s.hosts.unicode
      (get w.clock (rateKey domain) w.redis.cooldown).isNone t.url =
      .ok (if domain.isEmpty then false
        else (get w.clock (rateKey domain) w.redis.cooldown).isNone) := by
    rw [rateHost] at hhost
    rw [tryAcquire]
    cases hparse : urlparse s.hosts.unicode t.url [] with
    | error m =>
      rw [hparse] at hhost
      cases hhost
    | ok p =>
      rw [hparse] at hhost
      cases hhost
      rfl
  rw [htry]
  simp only [step.eq_def, hphase, hhost, if_neg hpos]
  by_cases hempty : domain.isEmpty
  · simp only [if_pos hempty]
    exact ⟨_, _, rfl, by simp⟩
  · simp only [if_neg hempty, setNx]
    cases hget : get w.clock (rateKey domain) w.redis.cooldown with
    | some v =>
      simp only [Option.isSome_some, if_true]
      exact ⟨_, _, rfl, by simp⟩
    | none =>
      simp only [Option.isSome_none, Bool.false_eq_true, if_false]
      exact ⟨_, _, rfl, by simp⟩

end CrawlGate
