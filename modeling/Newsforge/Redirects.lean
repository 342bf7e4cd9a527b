/-
What `safe_http.request` remembers along its redirects.

* `statusAt` — the status that answered a hop of a run;
* `TurnedBefore` — an earlier redirect was one that turns a request into a `GET`;
* `Returned` — what a run that returns has to do with its hops, from any hop on.

Main result: `request_redirects`.
-/
import Newsforge.RequestErrors

open PyText UrlParse

namespace SafeHttp

variable {t : HostTables} {is : AddressPredicates} {net : Internet} {o : Options}

/-! ### The hops of a run -/

/-- The status that answered the hop `k`, where the hops are counted from `first`. -/
def statusFrom (net : Internet) (first : ℕ) (hs : List Hop) (k : ℕ) : Option ℕ :=
  match hs[k]? with
  | none => none
  | some h => (net.client (first + k) h.request).toOption.map Reply.statusCode

/-- The status that answered a hop of a run. -/
def statusAt (net : Internet) (hs : List Hop) (k : ℕ) : Option ℕ := statusFrom net 0 hs k

/-- A status that turns a request into a `GET`. -/
def TurnsToGet (status : Option ℕ) (method : Text) : Prop :=
  status = some 303 ∨ (status = some 301 ∨ status = some 302) ∧ method = "POST".toList

/-- Some hop in front of `k` was answered with a 303, or was a `POST` answered with a
301 or 302. -/
def TurnedFrom (net : Internet) (first : ℕ) (hs : List Hop) (k : ℕ) : Prop :=
  ∃ j h, j < k ∧ hs[j]? = some h ∧ TurnsToGet (statusFrom net first hs j) h.request.method

/-- The same, of a whole run. -/
def TurnedBefore (net : Internet) (hs : List Hop) (k : ℕ) : Prop := TurnedFrom net 0 hs k

/-- Every redirect that was followed is permanent. -/
def AllPermanent (net : Internet) (first : ℕ) (hs : List Hop) : Prop :=
  ∀ k, k + 1 < hs.length →
    statusFrom net first hs k = some 301 ∨ statusFrom net first hs k = some 308

/-! ### One more hop in front -/

theorem statusFrom_succ (first k : ℕ) (h : Hop) (hs : List Hop) :
    statusFrom net first (h :: hs) (k + 1) = statusFrom net (first + 1) hs k := by
  rw [statusFrom, statusFrom, List.getElem?_cons_succ, Nat.add_right_comm, Nat.add_assoc]

theorem statusFrom_zero {first : ℕ} {h : Hop} {hs : List Hop} {reply : Reply}
    (hreply : net.client first h.request = .ok reply) :
    statusFrom net first (h :: hs) 0 = some reply.statusCode := by
  rw [statusFrom, List.getElem?_cons_zero]
  simp only [Nat.add_zero, hreply, Except.toOption, Option.map_some]

theorem turnedFrom_succ {first k : ℕ} {h : Hop} {hs : List Hop} :
    TurnedFrom net first (h :: hs) (k + 1) ↔
      TurnsToGet (statusFrom net first (h :: hs) 0) h.request.method ∨
        TurnedFrom net (first + 1) hs k := by
  constructor
  · rintro ⟨j, h', hj, hget, hturns⟩
    cases j with
    | zero =>
      rw [List.getElem?_cons_zero, Option.some_inj] at hget
      exact .inl (hget ▸ hturns)
    | succ j =>
      rw [statusFrom_succ] at hturns
      exact .inr ⟨j, h', by omega, hget, hturns⟩
  · rintro (hturns | ⟨j, h', hj, hget, hturns⟩)
    · exact ⟨0, h, by omega, rfl, hturns⟩
    · refine ⟨j + 1, h', by omega, hget, ?_⟩
      rwa [statusFrom_succ]

theorem not_turnedFrom_zero (first : ℕ) (hs : List Hop) : ¬ TurnedFrom net first hs 0 := by
  rintro ⟨j, -, hj, -⟩
  exact Nat.not_lt_zero j hj

theorem allPermanent_cons {first : ℕ} {h h' : Hop} {hs : List Hop} :
    AllPermanent net first (h :: h' :: hs) ↔
      (statusFrom net first (h :: h' :: hs) 0 = some 301 ∨
        statusFrom net first (h :: h' :: hs) 0 = some 308) ∧
        AllPermanent net (first + 1) (h' :: hs) := by
  constructor
  · intro hall
    refine ⟨hall 0 (by simp), fun k hk => ?_⟩
    have hnext := hall (k + 1) (by simpa using hk)
    rwa [statusFrom_succ] at hnext
  · rintro ⟨hfirst, hrest⟩ k hk
    cases k with
    | zero => exact hfirst
    | succ k =>
      rw [statusFrom_succ]
      exact hrest k (by simpa using hk)

/-! ### The invariant -/

/-- What a run that returns `resp` has to do with its hops `hs`, from the hop `first`
with the variables `loop` on. -/
structure Returned (net : Internet) (o : Options) (first : ℕ) (loop : Loop) (hs : List Hop)
    (resp : Response) : Prop where
  ne_nil : hs ≠ []
  last : statusFrom net first hs (hs.length - 1) = some resp.statusCode
  kept : ∀ k h, hs[k]? = some h → ¬ TurnedFrom net first hs k →
    h.request.method = loop.method ∧ h.request.content = loop.content
  turned : ∀ k h, hs[k]? = some h → TurnedFrom net first hs k →
    h.request.method = "GET".toList ∧ h.request.content = none
  permanent : resp.permanentUrl ≠ none ↔
    loop.permanent = true ∧ 1 < first + hs.length ∧ AllPermanent net first hs
  url : ∀ url, resp.permanentUrl = some url → url = resp.url
  exhausted : ∀ location, redirectCodes.contains resp.statusCode = true →
    headerGet "location".toList resp.headers = some location → location ≠ [] →
      first + hs.length = o.maxRedirects + 1

/-- A response is only returned in spite of a `Location` when no hop is left. -/
theorem hop_of_location {hop : ℕ} {reply : Reply} {location : Text}
    (h : redirectLocation o hop reply = none)
    (hredirect : redirectCodes.contains reply.statusCode = true)
    (hlocation : headerGet "location".toList reply.headers = some location)
    (hne : location ≠ []) : o.maxRedirects ≤ hop := by
  rw [redirectLocation, hlocation] at h
  simp only [hredirect, Bool.true_and] at h
  by_contra hlt
  rw [if_pos (by simpa [hne] using hlt)] at h
  cases h

theorem turnsToGet_iff {hop : ℕ} {loop : Loop} {target : Target} {deadline : Seconds}
    {reply : Reply} (hs : List Hop)
    (hreply : net.client hop (sentHop net o deadline hop loop target).request = .ok reply) :
    TurnsToGet (statusFrom net hop (sentHop net o deadline hop loop target :: hs) 0)
        (sentHop net o deadline hop loop target).request.method ↔
      reply.statusCode = 303 ∨
        (reply.statusCode = 301 ∨ reply.statusCode = 302) ∧ loop.method = "POST".toList := by
  rw [statusFrom_zero hreply, TurnsToGet, Option.some_inj, Option.some_inj, Option.some_inj]
  rfl

/-- The last hop. -/
theorem returned_last {hop left : ℕ} {loop : Loop} {target : Target} {deadline : Seconds}
    {reply : Reply} {resp : Response} (hleft : hop + left = o.maxRedirects)
    (hreply : net.client hop (sentHop net o deadline hop loop target).request = .ok reply)
    (hlocation : redirectLocation o hop reply = none)
    (h : finish net o deadline hop loop reply = .ok resp) :
    Returned net o hop loop [sentHop net o deadline hop loop target] resp := by
  have hresp : resp.statusCode = reply.statusCode ∧ resp.headers = reply.headers ∧
      resp.url = loop.url ∧
        resp.permanentUrl = if loop.permanent && 0 < hop then some loop.url else none := by
    rw [finish] at h
    generalize (if o.discardBody then .ok ([], false)
      else net.readBody hop reply o.maxBytes deadline o.truncate) = body at h
    cases body with
    | error e => cases h
    | ok b =>
      cases h
      exact ⟨rfl, rfl, rfl, rfl⟩
  obtain ⟨hstatus, hheaders, hurl, hpermanent⟩ := hresp
  have hfirst : ∀ k h, [sentHop net o deadline hop loop target][k]? = some h →
      k = 0 ∧ h = sentHop net o deadline hop loop target := by
    intro k h hk
    rw [List.getElem?_singleton] at hk
    split_ifs at hk with hk0
    exact ⟨hk0, (Option.some.inj hk).symm⟩
  refine ⟨List.cons_ne_nil _ _, ?_, ?_, ?_, ?_, ?_, ?_⟩
  · rw [hstatus]
    exact statusFrom_zero hreply
  · intro k h hk _
    obtain ⟨-, rfl⟩ := hfirst k h hk
    exact ⟨rfl, rfl⟩
  · intro k h hk hturned
    obtain ⟨rfl, -⟩ := hfirst k h hk
    exact absurd hturned (not_turnedFrom_zero _ _)
  · have hall : AllPermanent net hop [sentHop net o deadline hop loop target] := by
      intro k hk
      simp at hk
    rw [hpermanent, List.length_singleton]
    by_cases hperm : loop.permanent = true
    · by_cases hpos : 0 < hop
      · simpa [hperm, hpos] using hall
      · simp [hperm, hpos]
    · simp [hperm]
  · intro url hsome
    rw [hpermanent] at hsome
    split_ifs at hsome
    rw [hurl]
    exact (Option.some.inj hsome).symm
  · intro location hredirect hget hne
    rw [hstatus] at hredirect
    rw [hheaders] at hget
    have := hop_of_location hlocation hredirect hget hne
    rw [List.length_singleton]
    omega

/-- A redirect that is followed. -/
theorem Returned.follow {hop : ℕ} {loop : Loop} {target : Target} {deadline : Seconds}
    {reply : Reply} {url : Text} {hs : List Hop} {resp : Response}
    (hreply : net.client hop (sentHop net o deadline hop loop target).request = .ok reply)
    (h : Returned net o (hop + 1) (loop.follow reply.statusCode url) hs resp) :
    Returned net o hop loop (sentHop net o deadline hop loop target :: hs) resp := by
  have hturns := turnsToGet_iff hs hreply
  refine ⟨List.cons_ne_nil _ _, ?_, ?_, ?_, ?_, h.url, ?_⟩
  · obtain ⟨h', hs', rfl⟩ := List.exists_cons_of_ne_nil h.ne_nil
    rw [← h.last]
    exact statusFrom_succ hop hs'.length _ (h' :: hs')
  · intro k h' hk hkept
    cases k with
    | zero =>
      obtain rfl := Option.some.inj hk
      exact ⟨rfl, rfl⟩
    | succ k =>
      rw [turnedFrom_succ, hturns, not_or] at hkept
      have hrest := h.kept k h' hk hkept.2
      rwa [Loop.follow, if_neg hkept.1, if_neg hkept.1] at hrest
  · intro k h' hk hturned
    cases k with
    | zero => exact absurd hturned (not_turnedFrom_zero _ _)
    | succ k =>
      rw [turnedFrom_succ, hturns] at hturned
      by_cases hrest : TurnedFrom net (hop + 1) hs k
      · exact h.turned k h' hk hrest
      · -- this redirect is the first that turns
        have hget := h.kept k h' hk hrest
        have hnow := hturned.resolve_right hrest
        rwa [Loop.follow, if_pos hnow, if_pos hnow] at hget
  · obtain ⟨h', hs', rfl⟩ := List.exists_cons_of_ne_nil h.ne_nil
    rw [h.permanent, allPermanent_cons, statusFrom_zero hreply, Option.some_inj, Option.some_inj]
    have hcodes : (loop.follow reply.statusCode url).permanent = true ↔
        loop.permanent = true ∧ (reply.statusCode = 301 ∨ reply.statusCode = 308) := by
      simp [Loop.follow, permanentRedirectCodes]
    rw [hcodes]
    simp only [List.length_cons]
    constructor
    · rintro ⟨⟨hperm, hcode⟩, hlen, hall⟩
      exact ⟨hperm, by omega, hcode, hall⟩
    · rintro ⟨hperm, hlen, hcode, hall⟩
      exact ⟨⟨hperm, hcode⟩, by omega, hall⟩
  · intro location hredirect hget hne
    have := h.exhausted location hredirect hget hne
    rw [List.length_cons]
    omega

/-- From any hop on, a run that returns keeps the books. -/
theorem returned_hops {deadline : Seconds} {left hop : ℕ} {loop : Loop} {resp : Response}
    (hleft : hop + left = o.maxRedirects)
    (h : (hops t is net o deadline (left + 1) hop loop).2 = .ok resp) :
    Returned net o hop loop (hops t is net o deadline (left + 1) hop loop).1 resp := by
  induction left generalizing hop loop with
  | zero =>
    have hrun := hops_run t is net o deadline 0 hop loop
    generalize hops t is net o deadline (0 + 1) hop loop = result at hrun h ⊢
    cases hrun with
    | unresolved _ => cases h
    | late _ _ => cases h
    | lost _ _ _ => cases h
    | last _ _ hreply hlocation => exact returned_last hleft hreply hlocation h
    | unjoined _ _ _ _ _ => cases h
    | followed _ _ _ hlocation _ =>
      have := (redirectLocation_eq_some hlocation).2
      omega
  | succ left ih =>
    have hrun := hops_run t is net o deadline (left + 1) hop loop
    generalize hops t is net o deadline (left + 1 + 1) hop loop = result at hrun h ⊢
    cases hrun with
    | unresolved _ => cases h
    | late _ _ => cases h
    | lost _ _ _ => cases h
    | last _ _ hreply hlocation => exact returned_last hleft hreply hlocation h
    | unjoined _ _ _ _ _ => cases h
    | followed _ _ hreply _ _ => exact (ih (by omega) h).follow hreply

/-- **Redirect bookkeeping.**  In every run of `request` that returns: the body is
sent on a hop, with the method of the caller, unless an earlier redirect turned the
request into a `GET`, and from there on every hop is a `GET` without a body; the
response is that of the last hop; `permanentUrl` is there exactly if some redirect was
followed and all of them were permanent, and is then the URL of the response; and a
redirect with a `Location` that is not empty is only returned after `maxRedirects`
redirects. -/
theorem request_redirects (t : HostTables) (is : AddressPredicates) (net : Internet) (o : Options)
    (method url : Text) (content : Option Bytes) (hs : List Hop) (resp : Response)
    (h : request t is net o method url content = (hs, .ok resp)) :
    statusAt net hs (hs.length - 1) = some resp.statusCode ∧
      (∀ k h, hs[k]? = some h → ¬ TurnedBefore net hs k →
        h.request.method = upper t.unicode method ∧ h.request.content = content) ∧
      (∀ k h, hs[k]? = some h → TurnedBefore net hs k →
        h.request.method = "GET".toList ∧ h.request.content = none) ∧
      (resp.permanentUrl ≠ none ↔ 1 < hs.length ∧ AllPermanent net 0 hs) ∧
      (∀ url, resp.permanentUrl = some url → url = resp.url) ∧
      ∀ location, redirectCodes.contains resp.statusCode = true →
        headerGet "location".toList resp.headers = some location → location ≠ [] →
          hs.length = o.maxRedirects + 1 := by
  rw [request] at h
  have hreturned := returned_hops (Nat.zero_add _) (congrArg Prod.snd h)
  rw [h] at hreturned
  refine ⟨hreturned.last, hreturned.kept, hreturned.turned, ?_, hreturned.url, ?_⟩
  · rw [hreturned.permanent, Nat.zero_add]
    exact and_iff_right rfl
  · intro location hredirect hget hne
    rw [← hreturned.exhausted location hredirect hget hne, Nat.zero_add]

theorem request_redirects_sample :
    ∃ h, (request asciiTables unicast redirectingServer (optionsWith userAgentOnly) "post".toList
        "https://a.example".toList (some [1])).1[1]? = some h ∧
      h.request.method = "GET".toList ∧ h.request.content = none := by
  have hok : (request asciiTables unicast redirectingServer (optionsWith userAgentOnly)
      "post".toList "https://a.example".toList (some [1])).2.toOption.isSome = true := by
    decide
  have hmethod : (request asciiTables unicast redirectingServer (optionsWith userAgentOnly)
      "post".toList "https://a.example".toList (some [1])).1[0]?.map
        (fun h => h.request.method) = some "POST".toList := by decide
  have hstatus : statusAt redirectingServer (request asciiTables unicast redirectingServer
      (optionsWith userAgentOnly) "post".toList "https://a.example".toList (some [1])).1 0 =
        some 302 := by decide
  have hnext : (request asciiTables unicast redirectingServer (optionsWith userAgentOnly)
      "post".toList "https://a.example".toList (some [1])).1[1]?.isSome = true := by
    decide
  generalize hrun : request asciiTables unicast redirectingServer (optionsWith userAgentOnly)
    "post".toList "https://a.example".toList (some [1]) = run at hok hmethod hstatus hnext
  obtain ⟨hs, outcome⟩ := run
  obtain ⟨h₀, hget, hpost⟩ := Option.map_eq_some_iff.mp hmethod
  obtain ⟨h, hh⟩ := Option.isSome_iff_exists.mp hnext
  cases outcome with
  | error e => cases hok
  | ok resp =>
    refine ⟨h, hh, (request_redirects _ _ _ _ _ _ _ _ _ hrun).2.2.1 1 h hh ?_⟩
    exact ⟨0, h₀, Nat.one_pos, hget, .inr ⟨.inr hstatus, hpost⟩⟩

/-- A server that redirects to nowhere. -/
def emptyLocation : Internet :=
  { redirectingServer with client := fun _ _ => .ok ⟨302, [("Location".toList, [])]⟩ }

/-- A `Location` without a text is not followed, and its response comes back before
any redirect. -/
theorem redirect_without_target :
    ¬ ∀ (t : HostTables) (is : AddressPredicates) (net : Internet) (o : Options)
        (method url : Text) (content : Option Bytes) (hs : List Hop) (resp : Response),
      request t is net o method url content = (hs, .ok resp) →
        ∀ location, redirectCodes.contains resp.statusCode = true →
          headerGet "location".toList resp.headers = some location →
            hs.length = o.maxRedirects + 1 := by
  intro hevery
  have hevery := hevery asciiTables unicast emptyLocation (optionsWith userAgentOnly) "GET".toList
    "https://a.example".toList none
  have hlen : (request asciiTables unicast emptyLocation (optionsWith userAgentOnly) "GET".toList
      "https://a.example".toList none).1.length = 1 := by decide
  have hresp : (request asciiTables unicast emptyLocation (optionsWith userAgentOnly) "GET".toList
      "https://a.example".toList none).2.toOption.map (fun r => (r.statusCode, r.headers)) =
        some (302, [("Location".toList, [])]) := by decide
  generalize request asciiTables unicast emptyLocation (optionsWith userAgentOnly) "GET".toList
    "https://a.example".toList none = run at hevery hlen hresp
  obtain ⟨hs, outcome⟩ := run
  cases outcome with
  | error e => cases hresp
  | ok resp =>
    obtain ⟨hstatus, hheaders⟩ := Prod.mk.inj (Option.some.inj hresp)
    have htwo := hevery hs resp rfl [] (by rw [hstatus]; rfl) (by rw [hheaders]; decide)
    rw [hlen] at htwo
    exact absurd htwo (by decide)

end SafeHttp