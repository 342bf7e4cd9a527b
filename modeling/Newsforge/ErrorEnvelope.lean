/-
The error envelope (`apps/core/exceptions.py`).

* `Detail` — what an exception of the API says: a message, a list or a dict;
* `validationError` — `ValidationError(…)`, which wraps a bare message in a list;
* `exceptionHandler` — the handler of the framework;
* `code`, `errorDetail`, `envelope` — `_code`, `_detail` and `envelope`.

Main results: `envelope_shape`, every answer is an envelope, and
`validation_detail_iff`, which validation errors map fields to lists of messages.
-/
import Newsforge.PyText

open PyText

namespace ErrorEnvelope

/-! ### Details -/

/-- The detail of an exception, its leaves being messages.  A key is what it is in the
answer, where the index of a list item is a text too. -/
inductive Detail
  | message (text : Text)
  | list (items : List Detail)
  | dict (items : List (Text × Detail))

namespace Detail

/-- A message. -/
def isMessage : Detail → Bool
  | message _ => true
  | _ => false

/-- A list of messages. -/
def isMessages : Detail → Bool
  | list items => items.all isMessage
  | _ => false

/-- A dict. -/
def isDict : Detail → Bool
  | dict _ => true
  | _ => false

/-- A dict that maps each key to a list of messages. -/
def mapsToMessages : Detail → Bool
  | dict items => items.all fun item => item.2.isMessages
  | _ => false

/-- `isinstance(data, dict) and set(data) == keys`. -/
def hasKeys (keys : List Text) : Detail → Bool
  | dict items => keys.all (fun k => items.any fun item => item.1 = k) &&
      items.all fun item => keys.contains item.1
  | _ => false

/-- `data[key]`. -/
def get? (key : Text) : Detail → Option Detail
  | dict items => (items.find? fun item => item.1 = key).map Prod.snd
  | _ => none

end Detail

/-! ### Exceptions -/

/-- The classes that `_CODES` asks for; the other ones have a `default_code`. -/
inductive ApiClass
  | invalidToken
  | throttled
  | validationError
  | other (defaultCode : Text)

/-- An `APIException`. -/
structure ApiException where
  cls : ApiClass
  detail : Detail

/-- What a view can raise. -/
inductive Exc
  | http404
  | djangoPermissionDenied
  | api (e : ApiException)
  | other

/-- `ValidationError(detail)`: what is neither a list nor a dict is put into a list. -/
def validationError (detail : Detail) : ApiException where
  cls := .validationError
  detail := match detail with
    | .message text => .list [.message text]
    | detail => detail

/-- `NotFound()`. -/
def notFound : ApiException := ⟨.other "not_found".toList, .message "Not found.".toList⟩

/-- `PermissionDenied()`. -/
def permissionDenied : ApiException where
  cls := .other "permission_denied".toList
  detail := .message "You do not have permission to perform this action.".toList

/-- The data of the response that the framework's handler makes for an `APIException`. -/
def exceptionHandler (e : ApiException) : Detail :=
  match e.detail with
  | .message text => .dict [("detail".toList, .message text)]
  | detail => detail

/-! ### The envelope -/

/-- `_code`. -/
def code : ApiClass → Text
  | .invalidToken => "token_not_valid".toList
  | .throttled => "rate_limited".toList
  | .validationError => "validation_error".toList
  | .other defaultCode => defaultCode

/-- `NON_FIELD_ERRORS_KEY`. -/
def nonFieldErrorsKey : Text := "non_field_errors".toList

/-- `str(data)`; `repr` prints lists and dicts. -/
def str (repr : Detail → Text) : Detail → Text
  | .message text => text
  | data => repr data

/-- `_detail`. -/
def errorDetail (repr : Detail → Text) (cls : ApiClass) (data : Detail) : Detail :=
  match cls with
  | .validationError =>
    match data with
    | .dict items => .dict items
    | .list items => .dict [(nonFieldErrorsKey, .list items)]
    | data => .dict [(nonFieldErrorsKey, .list [data])]
  | _ =>
    match data.get? "detail".toList with
    | some detail => .message (str repr detail)
    | none => .message (str repr data)

/-- The data is an envelope already. -/
def isEnvelope (data : Detail) : Bool := data.hasKeys ["code".toList, "detail".toList]

/-- `{"code": …, "detail": …}`. -/
def wrapped (code : Text) (detail : Detail) : Detail :=
  .dict [("code".toList, .message code), ("detail".toList, detail)]

/-- `envelope` for an `APIException`. -/
def envelopeOf (repr : Detail → Text) (e : ApiException) : Detail :=
  if isEnvelope (exceptionHandler e) then exceptionHandler e
  else wrapped (code e.cls) (errorDetail repr e.cls (exceptionHandler e))

/-- `envelope`: the data of its response; `none` for an exception that is not handled. -/
def envelope (repr : Detail → Text) : Exc → Option Detail
  | .http404 => some (envelopeOf repr notFound)
  | .djangoPermissionDenied => some (envelopeOf repr permissionDenied)
  | .api e => some (envelopeOf repr e)
  | .other => none

/-! ### The shape of the answers -/

variable (repr : Detail → Text)

theorem isEnvelope_wrapped (c : Text) (d : Detail) : isEnvelope (wrapped c d) = true := by
  simp [isEnvelope, wrapped, Detail.hasKeys]

/-- The detail is one text, unless the error is a validation error. -/
theorem errorDetail_isMessage {cls : ApiClass} (h : cls ≠ .validationError) (data : Detail) :
    (errorDetail repr cls data).isMessage = true := by
  cases cls with
  | validationError => exact absurd rfl h
  | invalidToken | throttled | other =>
    simp only [errorDetail]
    cases data.get? "detail".toList with
    | none => rfl
    | some d => rfl

/-- **Every handled exception is answered with an envelope.** -/
theorem envelope_shape {exc : Exc} {data : Detail} (h : envelope repr exc = some data) :
    isEnvelope data = true := by
  have hof : ∀ e, isEnvelope (envelopeOf repr e) = true := by
    intro e
    rw [envelopeOf]
    split
    · assumption
    · exact isEnvelope_wrapped _ _
  cases exc with
  | http404 => exact Option.some.inj h ▸ hof notFound
  | djangoPermissionDenied => exact Option.some.inj h ▸ hof permissionDenied
  | api e => exact Option.some.inj h ▸ hof e
  | other => cases h

/-! ### Validation errors -/

/-- The error is not tied to a field. -/
def unbound (raised : Detail) : Bool := !raised.isDict

/-- What the module says of a validation error: its answer maps fields to lists of
messages, and an error not tied to a field is under `non_field_errors`. -/
def MapsFields (raised : Detail) : Prop :=
  ∃ d : Detail, envelope repr (.api (validationError raised)) =
      some (wrapped "validation_error".toList d) ∧
    d.mapsToMessages = true ∧
    (unbound raised = true → ∃ messages, d = .dict [(nonFieldErrorsKey, messages)])

/-- A message, a list of messages, or a dict that maps each key to a list of messages. -/
def flat (raised : Detail) : Bool :=
  raised.isMessage || raised.isMessages || raised.mapsToMessages

theorem envelopeOf_validationError {raised : Detail}
    (h : isEnvelope (exceptionHandler (validationError raised)) = false) :
    envelopeOf repr (validationError raised) =
      wrapped "validation_error".toList
        (errorDetail repr .validationError (validationError raised).detail) := by
  have hdata : exceptionHandler (validationError raised) = (validationError raised).detail := by
    cases raised <;> rfl
  rw [envelopeOf, if_neg (by rw [h]; exact Bool.false_ne_true), hdata]
  rfl

theorem wrapped_inj {c : Text} {d d' : Detail} (h : wrapped c d = wrapped c d') : d = d' := by
  simpa [wrapped] using h

/-- **The answer to a validation error maps fields to lists of messages exactly if its
detail is flat.** -/
theorem validation_detail_iff (raised : Detail)
    (hnew : isEnvelope (exceptionHandler (validationError raised)) = false) :
    MapsFields repr raised ↔ flat raised = true := by
  have hanswer := envelopeOf_validationError repr hnew
  have hmaps : MapsFields repr raised ↔
      (errorDetail repr .validationError (validationError raised).detail).mapsToMessages = true ∧
      (unbound raised = true → ∃ messages,
        errorDetail repr .validationError (validationError raised).detail =
          .dict [(nonFieldErrorsKey, messages)]) := by
    constructor
    · rintro ⟨d, hd, h⟩
      have heq := Option.some.inj hd
      rw [hanswer] at heq
      rwa [wrapped_inj heq]
    · intro h
      exact ⟨_, congrArg some hanswer, h⟩
  rw [hmaps]
  -- the code looks at the top level only
  cases raised with
  | message text => simp [validationError, errorDetail, flat, Detail.isMessage, Detail.isMessages,
      Detail.mapsToMessages, unbound, Detail.isDict]
  | list items => simp [validationError, errorDetail, flat, Detail.isMessage, Detail.isMessages,
      Detail.mapsToMessages, unbound, Detail.isDict]
  | dict items => simp [validationError, errorDetail, flat, Detail.isMessage, Detail.isMessages,
      Detail.mapsToMessages, unbound, Detail.isDict]

/-- A list of messages, raised in a serializer's `create`. -/
theorem validation_detail_iff_list :
    MapsFields (fun _ => []) (.list [.message "at most 10 subscriptions per user".toList]) :=
  (validation_detail_iff _ (.list [.message "at most 10 subscriptions per user".toList])
    (by decide)).mpr (by decide)

/-- What `rotate_secret` raises for a subscription without webhook. -/
def rotateSecretError : Detail :=
  .dict [("delivery".toList, .message "only webhook subscriptions have a secret".toList)]

/-- The answer of `rotate_secret` maps `delivery` to a text. -/
theorem rotateSecretError_not_mapped :
    isEnvelope (exceptionHandler (validationError rotateSecretError)) = false ∧
      ∀ repr, ¬ MapsFields repr rotateSecretError := by
  have hnew : isEnvelope (exceptionHandler (validationError rotateSecretError)) = false := by
    decide
  refine ⟨hnew, fun repr h => ?_⟩
  obtain ⟨d, hd, hmaps, -⟩ := h
  rw [show envelope repr (.api (validationError rotateSecretError)) =
    some (envelopeOf repr (validationError rotateSecretError)) from rfl,
    envelopeOf_validationError repr hnew] at hd
  rw [← wrapped_inj (Option.some.inj hd)] at hmaps
  exact Bool.noConfusion hmaps

end ErrorEnvelope
