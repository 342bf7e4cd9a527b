/-
What holds of the gate in every run.

* `Spaced` — the acquisitions of each host, and the key that each of them left;
* `Evidence`, `Evidence.Backs` — an answer of a host that became a policy;
* `Accounted`, `Knows` — what the cache and the workers know comes from such answers.

Main results: `acquisitions_are_apart` (one host is never acquired twice within the
interval) and `decision_is_backed` (a decision rests on an answer of the host that was
cached a day ago at most).
-/
import Newsforge.CrawlGate
import Newsforge.FeedEntries

open PyText UrlParse SafeHttp Tables Runs

namespace CrawlGate

open Expiring Feeds

variable {s : FetchSettings} {t t' : Task} {w w' : World}

/-! ### The rate limit -/

/-- When a host was acquired, the latest time first. -/
def acquisitions (domain : Text) (log : List Event) : List Time :=
  log.filterMap fun
    | .acquired now d => if d = domain then some now else none
    | _ => none

/-- The seconds between two fetches of a host, on the clock. -/
def gap (s : FetchSettings) : Time := s.perDomainMinInterval * second

/-- The acquisitions of each host are apart, and its key lasts for the gap behind them. -/
structure Spaced (s : FetchSettings) (w : World) : Prop where
  apart : ∀ domain, Apart (gap s) (acquisitions domain w.log)
  lasts : ∀ domain, ∀ now ∈ acquisitions domain w.log,
    ∃ e, w.redis.cooldown (rateKey domain) = some ((), e) ∧ now + gap s ≤ e
  past : ∀ domain, ∀ now ∈ acquisitions domain w.log, now ≤ w.clock

theorem acquisitions_acquired (domain d : Text) (now : Time) (log : List Event) :
    acquisitions domain (.acquired now d :: log) =
      if d = domain then now :: acquisitions domain log else acquisitions domain log := by
  rw [acquisitions, acquisitions, List.filterMap_cons]
  by_cases hd : d = domain
  · simp [hd]
  · simp [hd]

/-- A key that has expired was set a gap ago. -/
theorem Spaced.gap_le {w : World} (h : Spaced s w) {domain : Text}
    (hfree : get w.clock (rateKey domain) w.redis.cooldown = none) {now : Time}
    (hnow : now ∈ acquisitions domain w.log) : now + gap s ≤ w.clock := by
  obtain ⟨e, hkey, hle⟩ := h.lasts domain now hnow
  exact hle.trans (get_eq_none.mp hfree () e hkey)

/-- The host is acquired once more. -/
theorem Spaced.acquired {w : World} (h : Spaced s w) {domain : Text}
    (hfree : get w.clock (rateKey domain) w.redis.cooldown = none) :
    Spaced s { w with
      redis := w.redis.cool w.clock domain s.perDomainMinInterval
      log := .acquired w.clock domain :: w.log } := by
  refine ⟨fun d => ?_, fun d now hnow => ?_, fun d now hnow => ?_⟩
  · rw [acquisitions_acquired]
    split
    · rename_i hd
      subst hd
      exact (h.apart _).cons fun u hu => h.gap_le hfree hu
    · exact h.apart d
  · rw [acquisitions_acquired] at hnow
    by_cases hd : domain = d
    · subst hd
      refine ⟨w.clock + gap s, set_self, ?_⟩
      rw [if_pos rfl] at hnow
      rcases List.mem_cons.mp hnow with rfl | hnow
      · exact le_refl _
      · exact Int.add_le_add_right (h.past _ now hnow) _
    · rw [if_neg hd] at hnow
      obtain ⟨e, hkey, hle⟩ := h.lasts d now hnow
      refine ⟨e, ?_, hle⟩
      rw [← hkey]
      exact set_of_ne fun hk => hd (rateKey_inj hk).symm
  · rw [acquisitions_acquired] at hnow
    split at hnow
    · rcases List.mem_cons.mp hnow with rfl | hnow
      · exact le_refl _
      · exact h.past d now hnow
    · exact h.past d now hnow

/-- What happens to the cache does not matter here. -/
theorem Spaced.congr {w w' : World} (h : Spaced s w)
    (hlog : ∀ domain, acquisitions domain w'.log = acquisitions domain w.log)
    (hkeys : w'.redis.cooldown = w.redis.cooldown) (hclock : w.clock ≤ w'.clock) : Spaced s w' := by
  refine ⟨fun d => ?_, fun d now hnow => ?_, fun d now hnow => ?_⟩
  · rw [hlog]
    exact h.apart d
  · rw [hkeys]
    exact h.lasts d now (hlog d ▸ hnow)
  · exact (h.past d now (hlog d ▸ hnow)).trans hclock

theorem Did.spaced (h : Did s t w t' w') (hw : Spaced s w) : Spaced s w' := by
  cases h with
  | acquired domain body readAt _ hfree => exact hw.acquired hfree
  | answered domain scheme outcome policy _ _ => exact hw.congr (fun _ => rfl) rfl (le_refl _)
  | stored domain outcome policy _ => exact hw.congr (fun _ => rfl) rfl (le_refl _)
  | _ => exact hw

theorem outside_spaced {e : Outside} (h : outside e w = some w') (hw : Spaced s w) :
    Spaced s w' := by
  cases e with
  | tick elapsed =>
    cases h
    exact hw.congr (fun _ => rfl) rfl (Int.le_add_of_nonneg_right (Int.natCast_nonneg _))
  | invalidate domain =>
    cases h
    exact hw.congr (fun _ => rfl) rfl (le_refl _)

/-- Workers that have not begun, and nothing that has happened yet. -/
structure Initial {ι : Type*} (c : Workers ι) : Prop where
  tasks : ∀ p, (c.loc p).phase = .start
  cache : ∀ k, c.shared.redis.cache k = none
  log : c.shared.log = []

section Runs

variable {ι : Type*} [DecidableEq ι] {c₀ c : Workers ι}

theorem spaced_of_reach (h0 : Initial c₀) (h : Reach (next s) anyMove c₀ c) :
    Spaced s c.shared := by
  refine h.invariant (I := fun c => Spaced s c.shared) ?_ ?_
  · refine ⟨fun d => ?_, fun d now hnow => ?_, fun d now hnow => ?_⟩
    · rw [h0.log]
      exact List.Pairwise.nil
    · rw [h0.log] at hnow
      cases hnow
    · rw [h0.log] at hnow
      cases hnow
  · intro c m c' hc _ hnext
    cases m with
    | proc p a =>
      obtain ⟨l, w, hstep, rfl⟩ := Config.next_proc.mp hnext
      exact (step_did hstep).spaced hc
    | env e =>
      obtain ⟨w, henv, rfl⟩ := Config.next_env.mp hnext
      exact outside_spaced henv hc

/-- **One host is never acquired twice within the interval**, whatever the number of
workers, and `n` acquisitions of it take at least `n - 1` intervals. -/
theorem acquisitions_are_apart (h0 : Initial c₀) (h : Reach (next s) anyMove c₀ c)
    (domain : Text) :
    Apart (gap s) (acquisitions domain c.shared.log) ∧
      ∀ a b, acquisitions domain c.shared.log ≠ [] →
        (∀ now ∈ acquisitions domain c.shared.log, a ≤ now ∧ now ≤ b) →
          ((acquisitions domain c.shared.log).length - 1) * gap s ≤ b - a := by
  have hapart := (spaced_of_reach h0 h).apart domain
  exact ⟨hapart, fun a b hne hin => hapart.length_le hin hne⟩

end Runs

/-- Two workers with feeds of one host. -/
def sampleWorkers : Workers Bool :=
  ⟨⟨0, ⟨fun _ => none, fun _ => none⟩, []⟩, fun _ => ⟨sampleFeed.url, .start⟩⟩

theorem initial_sampleWorkers : Initial sampleWorkers := ⟨fun _ => rfl, fun _ => rfl, rfl⟩

/-- The first worker asks for the robots.txt and acquires the host, the second one finds
the policy in the cache and acquires the host six seconds later. -/
def oneAfterTheOther : List (Move Bool Action Outside) :=
  [.proc false .lookup, .proc false (.ask (answering fun _ => ⟨200, []⟩)), .proc false .store,
    .proc false .decide, .proc false .acquire, .env (.tick 6000000), .proc true .lookup,
    .proc true .decide, .proc true .acquire]

theorem acquisitions_are_apart_twice :
    ∃ c, Reach (next sampleSettings) anyMove sampleWorkers c ∧
      acquisitions "a.example".toList c.shared.log = [6000000, 0] ∧
        Apart (gap sampleSettings) (acquisitions "a.example".toList c.shared.log) := by
  have hrun : (exec (next sampleSettings) oneAfterTheOther sampleWorkers).map
      (fun c => acquisitions "a.example".toList c.shared.log) = some [6000000, 0] := by
    decide
  obtain ⟨c, hc, hlog⟩ := Reach.exists_of_exec anyMove hrun (along_anyMove _ _)
  exact ⟨c, hc, hlog, (acquisitions_are_apart initial_sampleWorkers hc _).1⟩

/-! ### Where a decision comes from -/

/-- The host did not answer for its robots.txt. -/
def Unanswered : Except RequestError Response → Prop
  | .error _ => True
  | .ok resp => 500 ≤ resp.statusCode

/-- An answer is kept for a day, the lack of one for half an hour. -/
theorem policyOf_ttl {outcome : Except RequestError Response} {policy : Text × ℕ}
    (h : Robots.policyOf outcome = .ok policy) :
    0 < policy.2 ∧ policy.2 ≤ Robots.cacheTtlSeconds ∧
      (Unanswered outcome → policy.2 = Robots.retryTtlSeconds) := by
  have hretry : Robots.retryTtlSeconds ≤ Robots.cacheTtlSeconds := by decide
  have hpos : 0 < Robots.retryTtlSeconds := by decide
  have hday : 0 < Robots.cacheTtlSeconds := by decide
  cases outcome with
  | ok resp =>
    rw [Robots.policyOf] at h
    split at h
    · cases h
      exact ⟨hpos, hretry, fun _ => rfl⟩
    · rename_i hlow
      have hanswered : ¬ Unanswered (.ok resp) := hlow
      split at h
      · cases h
        exact ⟨hday, le_refl _, fun hno => absurd hno hanswered⟩
      · cases h
        exact ⟨hday, le_refl _, fun hno => absurd hno hanswered⟩
  | error e =>
    have hpolicy : policy.2 = Robots.retryTtlSeconds := by
      rw [Robots.policyOf.eq_def] at h
      split at h
      · cases h
        rfl
      · cases h
        rfl
      · cases h
        rfl
      · cases h
        rfl
      · cases h
        rfl
      · cases h
      · rename_i hok
        cases hok
    exact ⟨hpolicy ▸ hpos, hpolicy ▸ hretry, fun _ => hpolicy⟩

/-- An answer of a host that became a policy in the cache. -/
structure Evidence where
  domain : Text
  outcome : Except RequestError Response
  ttl : ℕ
  askedAt : Time
  storedAt : Time

/-- The policy of the host was read while the evidence was in force. -/
structure Evidence.Backs (e : Evidence) (s : FetchSettings) (log : List Event) (url body : Text)
    (readAt : Time) : Prop where
  host : ∃ scheme, robotsHost s.hosts.unicode url = .ok (some (e.domain, scheme))
  asked : .asked e.askedAt e.domain e.outcome ∈ log
  policy : Robots.policyOf e.outcome = .ok (body, e.ttl)
  stored : .stored e.storedAt e.domain (body, e.ttl) ∈ log
  asked_le : e.askedAt ≤ e.storedAt
  stored_le : e.storedAt ≤ readAt
  inForce : readAt < e.storedAt + e.ttl * second

/-- The policy a worker goes by, and when it read it. -/
def Phase.policy? : Phase → Option (Text × Time)
  | .decide body readAt | .acquire body readAt | .fetch body readAt | .blocked body readAt
  | .limited body readAt => some (body, readAt)
  | _ => none

/-- What a worker has decided about robots.txt. -/
def Phase.verdict? : Phase → Option Bool
  | .acquire _ _ | .fetch _ _ | .limited _ _ => some true
  | .blocked _ _ => some false
  | _ => none

/-- The log only grows, and time does not go back. -/
structure Later (w w' : World) : Prop where
  log : ∀ e ∈ w.log, e ∈ w'.log
  clock : w.clock ≤ w'.clock

theorem Later.refl (w : World) : Later w w := ⟨fun _ he => he, le_refl _⟩

theorem Did.later (h : Did s t w t' w') : Later w w' := by
  cases h with
  | answered | stored | acquired => exact ⟨fun _ he => List.mem_cons_of_mem _ he, le_refl _⟩
  | _ => exact Later.refl w

theorem outside_later {e : Outside} (h : outside e w = some w') : Later w w' := by
  cases e with
  | tick elapsed =>
    cases h
    exact ⟨fun _ he => he, Int.le_add_of_nonneg_right (Int.natCast_nonneg _)⟩
  | invalidate domain =>
    cases h
    exact ⟨fun _ he => he, le_refl _⟩

/-- What is cached was stored, and what was stored is what a host answered. -/
structure Accounted (w : World) : Prop where
  cache : ∀ domain body e, w.redis.cache (cacheKey domain) = some (body, e) →
    ∃ at' ttl, .stored at' domain (body, ttl) ∈ w.log ∧ e = at' + (ttl : ℕ) * second
  stored : ∀ at' domain policy, .stored at' domain policy ∈ w.log →
    at' ≤ w.clock ∧ ∃ askedAt outcome, .asked askedAt domain outcome ∈ w.log ∧
      askedAt ≤ at' ∧ Robots.policyOf outcome = .ok policy
  asked : ∀ now domain outcome, .asked now domain outcome ∈ w.log → now ≤ w.clock

/-- What a worker knows. -/
structure Knows (s : FetchSettings) (t : Task) (w : World) : Prop where
  ask : ∀ domain scheme, t.phase = .ask domain scheme →
    robotsHost s.hosts.unicode t.url = .ok (some (domain, scheme))
  store : ∀ domain outcome policy, t.phase = .store domain outcome policy →
    (∃ scheme, robotsHost s.hosts.unicode t.url = .ok (some (domain, scheme))) ∧
      Robots.policyOf outcome = .ok policy ∧ ∃ askedAt, .asked askedAt domain outcome ∈ w.log
  policy : ∀ body readAt, t.phase.policy? = some (body, readAt) →
    ∃ e : Evidence, e.Backs s w.log t.url body readAt
  verdict : ∀ body readAt ok, t.phase.policy? = some (body, readAt) →
    t.phase.verdict? = some ok → Rules s t.url body ok

theorem Evidence.Backs.later {e : Evidence} {url body : Text} {readAt : Time}
    (h : e.Backs s w.log url body readAt) (hle : Later w w') : e.Backs s w'.log url body readAt :=
  { h with asked := hle.log _ h.asked, stored := hle.log _ h.stored }

theorem Knows.later (h : Knows s t w) (hle : Later w w') : Knows s t w' := by
  refine ⟨h.ask, fun d o p hp => ?_, fun b r hp => ?_, h.verdict⟩
  · obtain ⟨hhost, hpolicy, askedAt, hasked⟩ := h.store d o p hp
    exact ⟨hhost, hpolicy, askedAt, hle.log _ hasked⟩
  · obtain ⟨e, he⟩ := h.policy b r hp
    exact ⟨e, he.later hle⟩

/-- A step keeps the books. -/
theorem Did.accounted (h : Did s t w t' w') (ht : Knows s t w) (hw : Accounted w) :
    Accounted w' := by
  cases h with
  | answered domain scheme outcome policy _ _ =>
    refine ⟨fun d b e hk => ?_, fun a d p hmem => ?_, fun a d o hmem => ?_⟩
    · obtain ⟨a, ttl, hmem, he⟩ := hw.cache d b e hk
      exact ⟨a, ttl, List.mem_cons_of_mem _ hmem, he⟩
    · obtain ⟨hle, askedAt, o, hasked, hrest⟩ := hw.stored a d p (by simpa using hmem)
      exact ⟨hle, askedAt, o, List.mem_cons_of_mem _ hasked, hrest⟩
    · rcases List.mem_cons.mp hmem with heq | hmem
      · cases heq
        exact le_refl _
      · exact hw.asked a d o hmem
  | stored domain outcome policy hphase =>
    obtain ⟨-, hpolicy, askedAt, hasked⟩ := ht.store domain outcome policy hphase
    refine ⟨fun d b e hk => ?_, fun a d p hmem => ?_, fun a d o hmem => ?_⟩
    · by_cases hd : d = domain
      · -- the key that was written just now
        subst hd
        have hnew : some (policy.1, w.clock + policy.2 * second) = some (b, e) :=
          set_self.symm.trans hk
        cases hnew
        exact ⟨w.clock, policy.2, List.mem_cons_self, rfl⟩
      · have hold : w.redis.cache (cacheKey d) = some (b, e) :=
          (set_of_ne fun hkey => hd (cacheKey_inj hkey)).symm.trans hk
        obtain ⟨a, ttl, hmem, he⟩ := hw.cache d b e hold
        exact ⟨a, ttl, List.mem_cons_of_mem _ hmem, he⟩
    · rcases List.mem_cons.mp hmem with heq | hmem
      · cases heq
        exact ⟨le_refl _, askedAt, outcome, List.mem_cons_of_mem _ hasked,
          hw.asked _ _ _ hasked, hpolicy⟩
      · obtain ⟨hle, askedAt, o, hasked, hrest⟩ := hw.stored a d p hmem
        exact ⟨hle, askedAt, o, List.mem_cons_of_mem _ hasked, hrest⟩
    · exact hw.asked a d o (by simpa using hmem)
  | acquired domain body readAt _ _ =>
    refine ⟨fun d b e hk => ?_, fun a d p hmem => ?_, fun a d o hmem => ?_⟩
    · obtain ⟨a, ttl, hmem, he⟩ := hw.cache d b e hk
      exact ⟨a, ttl, List.mem_cons_of_mem _ hmem, he⟩
    · obtain ⟨hle, askedAt, o, hasked, hrest⟩ := hw.stored a d p (by simpa using hmem)
      exact ⟨hle, askedAt, o, List.mem_cons_of_mem _ hasked, hrest⟩
    · exact hw.asked a d o (by simpa using hmem)
  | _ => exact hw

theorem outside_accounted {e : Outside} (h : outside e w = some w') (hw : Accounted w) :
    Accounted w' := by
  cases e with
  | tick elapsed =>
    cases h
    have hle : w.clock ≤ w.clock + elapsed :=
      Int.le_add_of_nonneg_right (Int.natCast_nonneg _)
    refine ⟨hw.cache, fun a d p hmem => ?_, fun a d o hmem => (hw.asked a d o hmem).trans hle⟩
    obtain ⟨hat, hrest⟩ := hw.stored a d p hmem
    exact ⟨hat.trans hle, hrest⟩
  | invalidate domain =>
    cases h
    refine ⟨fun d b e hk => ?_, hw.stored, hw.asked⟩
    by_cases hd : d = domain
    · subst hd
      have hgone : none = some (b, e) := delete_self.symm.trans hk
      cases hgone
    · exact hw.cache d b e ((delete_of_ne fun hkey => hd (cacheKey_inj hkey)).symm.trans hk)

/-- What the mover knows behind its step. -/
theorem Did.knows (h : Did s t w t' w') (ht : Knows s t w) (hw : Accounted w) :
    Knows s t' w' := by
  cases h with
  | failed | hostless => exact ⟨by simp, by simp, by simp [Phase.policy?], by simp [Phase.policy?]⟩
  | missed domain scheme hhost =>
    refine ⟨fun d s' hp => ?_, by simp, by simp [Phase.policy?], by simp [Phase.policy?]⟩
    cases hp
    exact hhost
  | answered domain scheme outcome policy hphase hpolicy =>
    refine ⟨by simp, fun d o p hp => ?_, by simp [Phase.policy?], by simp [Phase.policy?]⟩
    cases hp
    exact ⟨⟨scheme, ht.ask domain scheme hphase⟩, hpolicy, w.clock, List.mem_cons_self⟩
  | hit domain scheme body hhost hget =>
    refine ⟨by simp, by simp, fun b r hp => ?_, by simp [Phase.verdict?]⟩
    cases hp
    obtain ⟨e, hkey, hlt⟩ := get_eq_some.mp hget
    obtain ⟨a, ttl, hstored, rfl⟩ := hw.cache domain _ e hkey
    obtain ⟨hat, askedAt, outcome, hasked, hle, hpolicy⟩ := hw.stored a domain _ hstored
    exact ⟨⟨domain, outcome, ttl, askedAt, a⟩, ⟨scheme, hhost⟩, hasked, hpolicy, hstored, hle,
      hat, hlt⟩
  | stored domain outcome policy hphase =>
    obtain ⟨hhost, hpolicy, askedAt, hasked⟩ := ht.store domain outcome policy hphase
    refine ⟨by simp, by simp, fun b r hp => ?_, by simp [Phase.verdict?]⟩
    cases hp
    have httl : (0 : Int) < policy.2 * second :=
      Int.mul_pos (Int.natCast_pos.mpr (policyOf_ttl hpolicy).1) (by decide)
    exact ⟨⟨domain, outcome, policy.2, askedAt, w.clock⟩, hhost, List.mem_cons_of_mem _ hasked,
      hpolicy, List.mem_cons_self, hw.asked _ _ _ hasked, le_refl _,
      Int.lt_add_of_pos_right _ httl⟩
  | allowed body readAt hphase hok =>
    obtain ⟨e, he⟩ := ht.policy body readAt (by rw [hphase]; rfl)
    obtain ⟨scheme, hhost⟩ := he.host
    refine ⟨by simp, by simp, fun b r hp => ?_, fun b r ok hp hv => ?_⟩
    · cases hp
      exact ⟨e, he⟩
    · cases hp
      cases hv
      exact rules_of_allowed hhost hok
  | blocked body readAt hphase hne hno =>
    obtain ⟨e, he⟩ := ht.policy body readAt (by rw [hphase]; rfl)
    obtain ⟨scheme, hhost⟩ := he.host
    refine ⟨by simp, by simp, fun b r hp => ?_, fun b r ok hp hv => ?_⟩
    · cases hp
      exact ⟨e, he⟩
    · cases hp
      cases hv
      exact rules_of_blocked hhost hne hno
  | limited body readAt hphase =>
    refine ⟨by simp, by simp, fun b r hp => ht.policy b r (by rw [hphase]; exact hp),
      fun b r ok hp hv => ht.verdict b r ok (by rw [hphase]; exact hp) (by rw [hphase]; exact hv)⟩
  | acquired domain body readAt hphase hfree =>
    refine ⟨by simp, by simp, fun b r hp => ?_,
      fun b r ok hp hv => ht.verdict b r ok (by rw [hphase]; exact hp) (by rw [hphase]; exact hv)⟩
    obtain ⟨e, he⟩ := ht.policy b r (by rw [hphase]; exact hp)
    exact ⟨e, he.later ⟨fun _ hmem => List.mem_cons_of_mem _ hmem, le_refl _⟩⟩

section Runs

variable {ι : Type*} [DecidableEq ι] {c₀ c : Workers ι}

theorem knows_of_reach (h0 : Initial c₀) (h : Reach (next s) anyMove c₀ c) :
    Config.Meets Accounted (Knows s) (fun _ _ => True) c := by
  refine Config.invariant_of_assertions (fun _ _ _ => trivial) ?_ ?_ ?_ ?_ ?_ h
  · intro c p a l w hc _ hstep
    have hdid := step_did hstep
    exact ⟨hdid.accounted (hc.each p) hc.shared, hdid.knows (hc.each p) hc.shared⟩
  · intro c p a l w q hc _ hstep _
    exact (hc.each q).later (step_did hstep).later
  · intros
    trivial
  · intro c e w hc _ henv
    exact ⟨outside_accounted henv hc.shared, fun p => (hc.each p).later (outside_later henv)⟩
  · refine ⟨⟨fun d b e hk => ?_, fun a d p hmem => ?_, fun a d o hmem => ?_⟩, fun p => ?_,
      fun _ _ _ => trivial⟩
    · rw [h0.cache] at hk
      cases hk
    · rw [h0.log] at hmem
      cases hmem
    · rw [h0.log] at hmem
      cases hmem
    · exact ⟨by simp [h0.tasks p], by simp [h0.tasks p], by simp [h0.tasks p, Phase.policy?],
        by simp [h0.tasks p, Phase.policy?]⟩

/-- **A decision is backed by the host**: the policy a worker goes by is what the host
answered, was put into the cache a day before it was read at most, half an hour if the
host did not answer, and allows the URL or not as `is_allowed` says. -/
theorem decision_is_backed (h0 : Initial c₀) (h : Reach (next s) anyMove c₀ c) {p : ι}
    {body : Text} {readAt : Time} (hp : (c.loc p).phase.policy? = some (body, readAt)) :
    (∃ e : Evidence, e.Backs s c.shared.log (c.loc p).url body readAt ∧
      readAt < e.storedAt + Robots.cacheTtlSeconds * second ∧
        (Unanswered e.outcome → readAt < e.storedAt + Robots.retryTtlSeconds * second)) ∧
      ∀ ok, (c.loc p).phase.verdict? = some ok → Rules s (c.loc p).url body ok := by
  have hknows := (knows_of_reach h0 h).each p
  refine ⟨?_, fun ok hv => hknows.verdict body readAt ok hp hv⟩
  obtain ⟨e, he⟩ := hknows.policy body readAt hp
  obtain ⟨-, hday, hretry⟩ := policyOf_ttl he.policy
  refine ⟨e, he, lt_of_lt_of_le he.inForce ?_, fun hno => ?_⟩
  · have hsecond : (0 : Int) ≤ second := by decide
    exact Int.add_le_add_left
      (Int.mul_le_mul_of_nonneg_right (Int.ofNat_le.mpr hday) hsecond) _
  · have httl : e.ttl = Robots.retryTtlSeconds := hretry hno
    have hforce := he.inForce
    rw [httl] at hforce
    exact hforce

end Runs

/-- The second worker goes by the answer that the first one got. -/
theorem decision_is_backed_twice :
    ∃ c, Reach (next sampleSettings) anyMove sampleWorkers c ∧
      (c.loc true).phase.policy? = some ([], 6000000) ∧
        ∃ e : Evidence, e.Backs sampleSettings c.shared.log (c.loc true).url [] 6000000 := by
  have hrun : (exec (next sampleSettings) oneAfterTheOther sampleWorkers).map
      (fun c => (c.loc true).phase.policy?) = some (some ([], 6000000)) := by decide
  obtain ⟨c, hc, hphase⟩ := Reach.exists_of_exec anyMove hrun (along_anyMove _ _)
  obtain ⟨⟨e, he, -⟩, -⟩ := decision_is_backed initial_sampleWorkers hc hphase
  exact ⟨c, hc, hphase, e, he⟩

end CrawlGate
