/-
Subscriptions and how Django saves them (`apps/subscriptions/models.py`).

* `Subscription` — a row of `subscriptions_subscription`;
* `Subscription.keyed` — `save()` recomputes `target_key` from the copy in
  memory, whatever fields are to be written;
* `saveFull` — a full save: the row is replaced, or inserted again if it is
  gone;
* `savePartial` — `save(update_fields=…)`: the named columns and `target_key`
  are written, and a row that is gone raises `DatabaseError`.
-/
import Newsforge.Tables
import Newsforge.Targets

open Tables SafeHttp

namespace Subscriptions

open Targets

/-- `Subscription.Interval`. -/
inductive Interval
  | instant
  | daily
  deriving DecidableEq, Repr

/-- A row of `subscriptions_subscription`. -/
structure Subscription where
  id : ℕ
  owner : ℕ
  name : Text
  q : Text
  feeds : List ℕ
  tagIds : List ℕ
  delivery : Delivery
  webhookUrl : Option Text
  emailTo : Option Text
  targetKey : Text
  webhookSecret : Option Text
  interval : Interval
  lastNotifiedAt : Option Time
  isActive : Bool
  deriving DecidableEq, Repr

namespace Subscription

/-- `Subscription.target`. -/
def target (s : Subscription) : Option Text :=
  match s.delivery with
  | .email => s.emailTo
  | .webhook => s.webhookUrl

/-- The key of the target of a row. -/
def key (t : HostTables) (s : Subscription) : Except Text Text :=
  Targets.targetKey t s.delivery s.target

/-- `target_key` of a row is the key of its target. -/
def InSync (t : HostTables) (s : Subscription) : Prop := s.key t = .ok s.targetKey

/-- The key of the target can be computed; `save` lets no other row through. -/
def HasKey (t : HostTables) (s : Subscription) : Prop := ∃ key, s.key t = .ok key

/-- The first line of `save`. -/
def keyed (t : HostTables) (s : Subscription) : Except Text Subscription :=
  (s.key t).map fun k => { s with targetKey := k }

theorem keyed_eq_ok {t : HostTables} {s r : Subscription} :
    s.keyed t = .ok r ↔ ∃ k, s.key t = .ok k ∧ r = { s with targetKey := k } := by
  rw [keyed]
  cases s.key t with
  | error m => simp [Except.map]
  | ok k => simp [Except.map, eq_comm]

end Subscription

/-- `save()` of a copy whose `target_key` is set: `UPDATE`, and `INSERT` when no
row was updated. -/
def saveFull (s : Subscription) (rows : List Subscription) : List Subscription :=
  put Subscription.id s rows

/-- `save(update_fields=…)`: `set` writes the named columns into the stored row;
`none` is an exception, such as the `DatabaseError` for a row that is gone. -/
def savePartial (t : HostTables) (set : Subscription → Subscription) (s : Subscription)
    (rows : List Subscription) : Option (List Subscription) :=
  match s.key t with
  | .ok k =>
    -- the stored row keeps its target, and gets the key of the copy
    if rows.any fun r => r.id == s.id then
      some (updateWhere (fun r => r.id == s.id) (fun r => { set r with targetKey := k }) rows)
    else none
  | .error _ => none

theorem savePartial_eq_some {t : HostTables} {set : Subscription → Subscription}
    {s : Subscription} {rows rows' : List Subscription} :
    savePartial t set s rows = some rows' ↔
      ∃ k, s.key t = .ok k ∧ (∃ r ∈ rows, r.id = s.id) ∧
        rows' = updateWhere (fun r => r.id == s.id) (fun r => { set r with targetKey := k })
          rows := by
  rw [savePartial]
  cases s.key t with
  | error m => simp
  | ok k =>
    simp only [Option.ite_none_right_eq_some, List.any_eq_true, beq_iff_eq, Option.some_inj,
      Except.ok.injEq, exists_eq_left', eq_comm (a := rows')]

/-! ### Sample rows -/

/-- An instant subscription to one address. -/
def mailRow (id owner : ℕ) (address : Text) : Subscription where
  id := id
  owner := owner
  name := "mail".toList
  q := "lean".toList
  feeds := []
  tagIds := []
  delivery := .email
  webhookUrl := none
  emailTo := some address
  targetKey := emailKey asciiTables address
  webhookSecret := none
  interval := .instant
  lastNotifiedAt := none
  isActive := true

/-- An instant subscription to one webhook. -/
def hookRow (id owner : ℕ) (url secret : Text) : Subscription where
  id := id
  owner := owner
  name := "hook".toList
  q := "lean".toList
  feeds := []
  tagIds := []
  delivery := .webhook
  webhookUrl := some url
  emailTo := none
  targetKey := (webhookKey asciiTables url).toOption.getD []
  webhookSecret := some secret
  interval := .instant
  lastNotifiedAt := none
  isActive := true

end Subscriptions
