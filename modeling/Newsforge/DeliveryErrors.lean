/-
What `_send_webhook` sends, and what `_failure` makes of an exception
(`tasks/notifications.py`).

* `Post`, `webhookOptions`, `postWebhook` — the request of `_send_webhook`, and
  what it ends in;
* `ExceptionClass`, `Raised` — an exception has a class, a text, and what its
  class adds to these;
* `Raised.failure`, `Raised.attempt` — what the log gets to see of it;
* `Raised.error` — the same exception for the tasks of `Newsforge.Deliver`.

Main results: `conclude_raised`, an exception is recorded with `_failure`, and
`Raised.attempt_eq`, which of it depends on the class alone.
-/
import Newsforge.Deliver
import Newsforge.FeedFetch

open PyText SafeHttp

namespace Deliver

/-! ### _send_webhook -/

/-- What `_send_webhook` puts into a request: the body, the time, what `sign`
returns for both, and the key of the pair. -/
structure Post where
  body : Bytes
  timestamp : Int
  signature : Text
  idempotencyKey : Text

/-- The headers of `_send_webhook`. -/
def webhookHeaders (userAgent : Text) (post : Post) : Headers where
  entries :=
    [("Content-Type".toList, "application/json".toList), ("User-Agent".toList, userAgent),
      ("X-NF-Timestamp".toList, intStr post.timestamp),
      ("X-NF-Signature".toList, post.signature),
      ("X-Idempotency-Key".toList, post.idempotencyKey)]
  nodup := by
    show ["Content-Type".toList, "User-Agent".toList, "X-NF-Timestamp".toList,
      "X-NF-Signature".toList, "X-Idempotency-Key".toList].Nodup
    decide

/-- The options of the request for a webhook: no redirects, and no body. -/
def webhookOptions (s : Robots.Settings) (post : Post) : Options where
  headers := webhookHeaders s.userAgent post
  timeout := 10
  maxBytes := 5 * 1024 * 1024
  maxRedirects := 0
  allowHttp := s.allowPlainHttp
  truncate := false
  discardBody := true

/-- What leaves `request`, for `deliver`.  `classOf` tells the exceptions of the
client apart. -/
def webhookAnswer (classOf : ClientError → DeliveryError) :
    Except RequestError Response → Except DeliveryError Int
  | .ok resp => .ok resp.statusCode
  | .error (.unsafeUrl m) => .error (.unsafeUrl m)
  | .error (.deadlineExceeded _) | .error (.body .deadlineExceeded) => .error .deadlineExceeded
  | .error (.client e) | .error (.body (.client e)) => .error (classOf e)
  | .error (.body .responseTooLarge) | .error (.valueError _) | .error .assertionError =>
    .error .other

/-- `_send_webhook`, with the request it makes. -/
def postWebhook (s : Robots.Settings) (net : Internet) (classOf : ClientError → DeliveryError)
    (webhookUrl : Option Text) (post : Post) : Except DeliveryError Int :=
  sendWebhook (webhookAnswer classOf
    (request s.hosts s.is net (webhookOptions s post) "POST".toList (Feeds.orEmpty webhookUrl)
      (some post.body)).2)

/-! ### Exceptions -/

/-- The exception classes that are asked for. -/
inductive Base
  | retryable
  | inFlight
  | unsafeUrl
  | httpTimeout
  | httpError
  | deadlineExceeded
  | recipientsRefused
  | dataError
  | smtpException
  | osTimeout
  | osError
  deriving DecidableEq, Repr

/-- The class of an exception: its name, and which of the classes above it is or
derives from. -/
structure ExceptionClass where
  name : Text
  bases : List Base
  refused : .recipientsRefused ∈ bases → .smtpException ∈ bases
  data : .dataError ∈ bases → .smtpException ∈ bases

/-- An exception.  The text of a `RetryableDeliveryError` is made from its
status code; others have whatever text the receiver or a library gave them. -/
structure Raised where
  cls : ExceptionClass
  text : Text
  statusCode : Int
  codes : List Int
  answered : .retryable ∈ cls.bases → text = "receiver answered ".toList ++ intStr statusCode

/-- `isinstance`. -/
def Raised.isInstance (e : Raised) (b : Base) : Bool := b ∈ e.cls.bases

/-- `_failure`. -/
def Raised.failure (e : Raised) : Text :=
  if e.isInstance .retryable then e.text
  else if e.isInstance .httpTimeout || e.isInstance .deadlineExceeded || e.isInstance .osTimeout
  then "timeout".toList
  else if e.isInstance .httpError then "connection failed".toList
  else if e.isInstance .smtpException then "mail server unavailable".toList
  else if e.isInstance .osError then "connection failed".toList
  else "internal error".toList

/-- `exc.status_code if isinstance(exc, RetryableDeliveryError) else None`. -/
def Raised.httpStatus (e : Raised) : Option Int :=
  if e.isInstance .retryable then some e.statusCode else none

/-- What `deliver` records for an exception that is no `UnsafeURLError`. -/
def Raised.attempt (e : Raised) : Attempt := ⟨false, e.httpStatus, some e.failure⟩

/-- The exception without its text, unless the text is used. -/
def Raised.error (e : Raised) : DeliveryError :=
  if e.isInstance .unsafeUrl then .unsafeUrl e.text
  else if e.isInstance .retryable then .retryable e.statusCode
  else if e.isInstance .httpTimeout then .httpTimeout
  else if e.isInstance .deadlineExceeded then .deadlineExceeded
  else if e.isInstance .osTimeout then .osTimeout
  else if e.isInstance .httpError then .httpError
  else if e.isInstance .recipientsRefused then .recipientsRefused e.codes
  else if e.isInstance .dataError then .dataError (e.codes.headD 0)
  else if e.isInstance .smtpException then .smtpError
  else if e.isInstance .osError then .osError
  else if e.isInstance .inFlight then .inFlight
  else .other

/-- The log shows only the category of the exception. -/
def DeliveryError.isPlain : DeliveryError → Bool
  | .unsafeUrl _ | .retryable _ => false
  | _ => true

/-- The same class, and for a `RetryableDeliveryError` the same status code. -/
structure Raised.SameKind (e e' : Raised) : Prop where
  cls : e.cls = e'.cls
  statusCode : .retryable ∈ e.cls.bases → e.statusCode = e'.statusCode

section Raised

variable {e e' : Raised}

theorem Raised.isInstance_eq_true {b : Base} : e.isInstance b = true ↔ b ∈ e.cls.bases :=
  decide_eq_true_iff

theorem Raised.text_eq (h : e.isInstance .retryable = true) :
    e.text = "receiver answered ".toList ++ intStr e.statusCode :=
  e.answered (isInstance_eq_true.mp h)

/-- A refused mail is an `SMTPException`. -/
theorem Raised.smtp_of_refused
    (h : e.isInstance .recipientsRefused = true ∨ e.isInstance .dataError = true) :
    e.isInstance .smtpException = true := by
  rcases h with h | h
  · exact isInstance_eq_true.mpr (e.cls.refused (isInstance_eq_true.mp h))
  · exact isInstance_eq_true.mpr (e.cls.data (isInstance_eq_true.mp h))

/-- `_failure` asks for the classes in the order in which they are told apart. -/
theorem Raised.failure_error (h : ¬ e.isInstance .unsafeUrl = true) :
    Deliver.failure e.error = e.failure := by
  rw [Raised.error, if_neg h, Raised.failure]
  by_cases hanswer : e.isInstance .retryable = true
  · rw [if_pos hanswer, if_pos hanswer, text_eq hanswer]
    rfl
  rw [if_neg hanswer, if_neg hanswer]
  by_cases htime : e.isInstance .httpTimeout = true
  · rw [if_pos htime, if_pos (by rw [htime]; rfl)]
    rfl
  by_cases hdeadline : e.isInstance .deadlineExceeded = true
  · rw [if_neg htime, if_pos hdeadline, if_pos (by rw [hdeadline, Bool.or_true]; rfl)]
    rfl
  by_cases hos : e.isInstance .osTimeout = true
  · rw [if_neg htime, if_neg hdeadline, if_pos hos, if_pos (by rw [hos, Bool.or_true])]
    rfl
  have hnone : ¬ (e.isInstance .httpTimeout || e.isInstance .deadlineExceeded ||
      e.isInstance .osTimeout) = true := by
    simp [htime, hdeadline, hos]
  rw [if_neg htime, if_neg hdeadline, if_neg hos, if_neg hnone]
  by_cases hhttp : e.isInstance .httpError = true
  · rw [if_pos hhttp, if_pos hhttp]
    rfl
  rw [if_neg hhttp, if_neg hhttp]
  by_cases hrefused : e.isInstance .recipientsRefused = true
  · rw [if_pos hrefused, if_pos (smtp_of_refused (.inl hrefused))]
    rfl
  rw [if_neg hrefused]
  by_cases hdata : e.isInstance .dataError = true
  · rw [if_pos hdata, if_pos (smtp_of_refused (.inr hdata))]
    rfl
  rw [if_neg hdata]
  by_cases hsmtp : e.isInstance .smtpException = true
  · rw [if_pos hsmtp, if_pos hsmtp]
    rfl
  rw [if_neg hsmtp, if_neg hsmtp]
  by_cases hosError : e.isInstance .osError = true
  · rw [if_pos hosError, if_pos hosError]
    rfl
  rw [if_neg hosError, if_neg hosError]
  by_cases hflight : e.isInstance .inFlight = true
  · rw [if_pos hflight]
    rfl
  · rw [if_neg hflight]
    rfl

theorem DeliveryError.isPlain_ite {c : Prop} [Decidable c] {x y : DeliveryError}
    (hx : x.isPlain = true) (hy : y.isPlain = true) : (if c then x else y).isPlain = true := by
  by_cases hc : c
  · rw [if_pos hc]
    exact hx
  · rw [if_neg hc]
    exact hy

/-- Behind the first two tests nothing but the category is left. -/
theorem Raised.error_isPlain (h : ¬ e.isInstance .unsafeUrl = true)
    (hanswer : ¬ e.isInstance .retryable = true) : e.error.isPlain = true := by
  rw [Raised.error, if_neg h, if_neg hanswer]
  repeat' apply DeliveryError.isPlain_ite
  all_goals rfl

/-- An exception that is no `UnsafeURLError` is recorded with `_failure`, and raised. -/
theorem conclude_raised (sub : Subscriptions.Subscription)
    (h : ¬ e.isInstance .unsafeUrl = true) :
    conclude sub (.error e.error) = (e.attempt, .raises e.error) := by
  rw [Raised.attempt, Raised.httpStatus, ← Raised.failure_error h]
  by_cases hanswer : e.isInstance .retryable = true
  · rw [if_pos hanswer, Raised.error, if_neg h, if_pos hanswer]
    rfl
  · have hplain := Raised.error_isPlain h hanswer
    rw [if_neg hanswer]
    cases herror : e.error with
    | unsafeUrl m | retryable status =>
      rw [herror] at hplain
      cases hplain
    | _ => rfl

/-- **The log does not tell exceptions of one class apart**, whatever their text. -/
theorem Raised.attempt_eq (h : e.SameKind e') : e.attempt = e'.attempt := by
  have hsame : ∀ b, e'.isInstance b = e.isInstance b := fun b => by
    rw [Raised.isInstance, Raised.isInstance, h.cls]
  rw [Raised.attempt, Raised.attempt, Raised.httpStatus, Raised.httpStatus, Raised.failure,
    Raised.failure]
  simp only [hsame]
  by_cases hanswer : e.isInstance .retryable = true
  · -- the text is made from the status code
    have hstatus := h.statusCode (isInstance_eq_true.mp hanswer)
    have hanswer' : e'.isInstance .retryable = true := (hsame _).trans hanswer
    simp only [if_pos hanswer, text_eq hanswer, text_eq hanswer', hstatus]
  · simp only [if_neg hanswer]

end Raised

end Deliver
