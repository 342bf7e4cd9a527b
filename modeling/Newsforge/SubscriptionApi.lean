/-
Concurrent requests on subscriptions (`apps/subscriptions/serializers.py`,
`views.py`), next to the daily digest and to instant deliveries.

A request loads its row without a lock, validates against that copy, and later
writes the copy back; `create` and `update` check the target under an advisory
lock that is held to the end of the transaction.

* `Attrs`, `Attrs.validate`, `Attrs.patch` — the data of a request;
* `Job` — what `create` or `update` is about to write;
* `Phase`, `advance` — a request, statement by statement;
* `Phase.locks`, `next` — the interleavings, with the locks;
* `Effect`, `advance_effect` — what each step does, said once.

A transaction writes at its end: what it wrote before is invisible to others,
and a row it has written is locked.  `Db.issued` is a ghost: the secrets that
were returned to owners, the newest first.
-/
import Newsforge.Runs
import Newsforge.Subscription

open PyText Tables Runs

namespace SubscriptionApi

open SafeHttp Subscriptions Targets

/-! ### Settings, requests and answers -/

/-- The settings the serializer reads, and PostgreSQL's `hashtext`. -/
structure Settings where
  hosts : HostTables
  hashtext : Text → Int
  maxSubscriptionsPerUser : ℕ
  maxAccountsPerTarget : ℕ

/-- The fields of a request body, as the field validators returned them. -/
structure Attrs where
  name : Option Text
  q : Option Text
  feeds : Option (List ℕ)
  tagIds : Option (List ℕ)
  delivery : Option Delivery
  webhookUrl : Option (Option Text)
  emailTo : Option (Option Text)
  interval : Option Interval
  isActive : Option Bool
  deriving DecidableEq, Repr

/-- The detail of a `ValidationError`. -/
inductive Invalid
  | required (fields : List Text)
  | field (name message : Text)
  | plain (message : Text)
  deriving DecidableEq, Repr

/-- How a request ends; `answered` carries the secret it returns. -/
inductive Outcome
  | answered (issued : Option Text)
  | notFound
  | invalid (e : Invalid)
  /-- an exception, or a worker that died -/
  | failed
  deriving DecidableEq, Repr

/-- A value of `new_webhook_secret`. -/
abbrev Secret := { s : Text // s ≠ [] }

/-- What is asked of the API; `digest` is a run of `daily_digest` that has taken
its `now`. -/
inductive Request
  | create (owner : ℕ) (attrs : Attrs)
  | update (owner pk : ℕ) (isPartial : Bool) (attrs : Attrs)
  | delete (owner pk : ℕ)
  | rotateSecret (owner pk : ℕ)
  | digest (now : Time)
  deriving DecidableEq, Repr

/-! ### The serializer -/

/-- The required fields that a full request leaves out. -/
def Attrs.missing (attrs : Attrs) : List Text :=
  (if attrs.name.isNone then ["name".toList] else []) ++
    (if attrs.q.isNone then ["q".toList] else []) ++
      if attrs.delivery.isNone then ["delivery".toList] else []

/-- `SubscriptionSerializer.validate`, against the loaded row. -/
def Attrs.validate (isPartial : Bool) (inst : Option Subscription) (attrs : Attrs) :
    Except Invalid Attrs :=
  if !isPartial && attrs.missing ≠ [] then .error (.required attrs.missing)
  else
    let attrs := if isPartial then attrs else
      { attrs with feeds := some (attrs.feeds.getD []), tagIds := some (attrs.tagIds.getD []) }
    let delivery := attrs.delivery.or (inst.map Subscription.delivery)
    let webhookUrl := attrs.webhookUrl.getD (inst.bind Subscription.webhookUrl)
    let emailTo := attrs.emailTo.getD (inst.bind Subscription.emailTo)
    if delivery = some .webhook ∧ truthy webhookUrl = false then
      .error (.field "webhook_url".toList "webhook_url is required for delivery=webhook".toList)
    else if delivery = some .email ∧ truthy emailTo = false then
      .error (.field "email_to".toList "email_to is required for delivery=email".toList)
    else .ok attrs

/-- The loaded copy with the fields of a request. -/
def Attrs.patch (attrs : Attrs) (copy : Subscription) : Subscription :=
  { copy with
    name := attrs.name.getD copy.name
    q := attrs.q.getD copy.q
    feeds := attrs.feeds.getD copy.feeds
    tagIds := attrs.tagIds.getD copy.tagIds
    delivery := attrs.delivery.getD copy.delivery
    webhookUrl := attrs.webhookUrl.getD copy.webhookUrl
    emailTo := attrs.emailTo.getD copy.emailTo
    interval := attrs.interval.getD copy.interval
    isActive := attrs.isActive.getD copy.isActive }

/-- The row `create` builds; `name`, `q` and `delivery` are required. -/
def Attrs.newRow (attrs : Attrs) (owner id : ℕ) : Subscription where
  id := id
  owner := owner
  name := attrs.name.getD []
  q := attrs.q.getD []
  feeds := attrs.feeds.getD []
  tagIds := attrs.tagIds.getD []
  delivery := attrs.delivery.getD .webhook
  webhookUrl := attrs.webhookUrl.getD none
  emailTo := attrs.emailTo.getD none
  targetKey := []
  webhookSecret := none
  interval := attrs.interval.getD .instant
  lastNotifiedAt := none
  isActive := attrs.isActive.getD true

/-- What a `create` or an `update` is about to write. -/
inductive Job
  | create (owner : ℕ) (attrs : Attrs)
  | update (copy : Subscription) (attrs : Attrs)
  deriving DecidableEq, Repr

namespace Job

def owner : Job → ℕ
  | create owner _ => owner
  | update copy _ => copy.owner

/-- The row as it will be saved; only a new one gets the `id`. -/
def row (j : Job) (id : ℕ) : Subscription :=
  match j with
  | create owner attrs => attrs.newRow owner id
  | update copy attrs => attrs.patch copy

/-- The key of the target `_check_target` is called with. -/
def key (t : HostTables) (j : Job) : Except Text Text := (j.row 0).key t

/-- `update` skips the check for the target of the loaded row. -/
def unchanged : Job → Bool
  | create _ _ => false
  | update copy attrs =>
    (attrs.patch copy).delivery == copy.delivery && (attrs.patch copy).target == copy.target

theorem key_row (t : HostTables) (j : Job) (id : ℕ) : (j.row id).key t = j.key t := by
  cases j <;> rfl

theorem row_owner (j : Job) (id : ℕ) : (j.row id).owner = j.owner := by
  cases j <;> rfl

end Job

/-- `_target_field`. -/
def targetField : Delivery → Text
  | .email => "email_to".toList
  | .webhook => "webhook_url".toList

/-- The other accounts that use a key. -/
def othersCount (owner : ℕ) (key : Text) (rows : List Subscription) : ℕ :=
  distinctCount ((rows.filter fun r => r.owner != owner && r.targetKey == key).map
    Subscription.owner)

/-- How many subscriptions a user has. -/
def ownedCount (owner : ℕ) (rows : List Subscription) : ℕ :=
  (rows.filter fun r => r.owner == owner).length

/-- A webhook subscription without a secret. -/
def NeedsSecret (row : Subscription) : Prop :=
  row.delivery = .webhook ∧ truthy row.webhookSecret = false

instance (row : Subscription) : Decidable (NeedsSecret row) :=
  inferInstanceAs (Decidable (_ ∧ _))

/-- `_ensure_secret`, and the secret it issued; it saves in the transaction of
the row. -/
def ensureSecret (fresh : Secret) (row : Subscription) : Subscription × Option Text :=
  if NeedsSecret row then ({ row with webhookSecret := some fresh.1 }, some fresh.1)
  else (row, none)

/-! ### One request, statement by statement -/

/-- The table, its sequence, and the secrets that were returned. -/
structure Db where
  rows : List Subscription
  nextId : ℕ
  issued : List (ℕ × Text)
  deriving DecidableEq, Repr

/-- `get_object` of a user. -/
def Db.getObject (owner pk : ℕ) (db : Db) : Option Subscription :=
  db.rows.find? fun r => r.id == pk && r.owner == owner

/-- A request returned a secret, if it issued one. -/
def issue (id : ℕ) (secret : Option Text) (issued : List (ℕ × Text)) : List (ℕ × Text) :=
  (secret.map fun s => (id, s)).toList ++ issued

/-- Where a request stands.  `passed` is the key that was checked, and is locked
since. -/
inductive Phase
  | received (r : Request)
  | countOwned (owner : ℕ) (attrs : Attrs)
  | checkTarget (j : Job)
  | countOthers (j : Job) (key : Text)
  | write (j : Job) (passed : Option Text)
  | inserted (row : Subscription) (issued : Option Text) (passed : Option Text)
  | delete (copy : Subscription)
  | rotate (copy : Subscription)
  | digest (now : Time) (todo : List Subscription)
  | finished (o : Outcome)
  deriving DecidableEq

/-- The subscriptions of a digest run. -/
def dailyRows (rows : List Subscription) : List Subscription :=
  rows.filter fun r => r.isActive && r.interval == .daily

/-- The next statement of a request; `fresh` is the secret it issues if it has
to. -/
def advance (s : Settings) (fresh : Secret) (phase : Phase) (db : Db) : Option (Phase × Db) :=
  match phase with
  | .received (.create owner attrs) =>
    match attrs.validate false none with
    | .error e => some (.finished (.invalid e), db)
    | .ok attrs => some (.countOwned owner attrs, db)
  | .received (.update owner pk isPartial attrs) =>
    match db.getObject owner pk with
    | none => some (.finished .notFound, db)
    | some copy =>
      match attrs.validate isPartial (some copy) with
      | .error e => some (.finished (.invalid e), db)
      -- the copy is not read again
      | .ok attrs => some (.checkTarget (.update copy attrs), db)
  | .received (.delete owner pk) =>
    match db.getObject owner pk with
    | none => some (.finished .notFound, db)
    | some copy => some (.delete copy, db)
  | .received (.rotateSecret owner pk) =>
    match db.getObject owner pk with
    | none => some (.finished .notFound, db)
    | some copy =>
      if copy.delivery = .webhook then some (.rotate copy, db)
      else some (.finished (.invalid (.field "delivery".toList
        "only webhook subscriptions have a secret".toList)), db)
  | .received (.digest now) => some (.digest now (dailyRows db.rows), db)
  | .countOwned owner attrs =>
    if s.maxSubscriptionsPerUser ≤ ownedCount owner db.rows then
      some (.finished (.invalid (.plain ("at most ".toList ++ natStr s.maxSubscriptionsPerUser ++
        " subscriptions per user; delete one first".toList))), db)
    else some (.checkTarget (.create owner attrs), db)
  | .checkTarget j =>
    -- compared with the copy, not with the row
    if j.unchanged then some (.write j none, db)
    else match j.key s.hosts with
      | .error _ => some (.finished .failed, db)
      | .ok key => if key = [] then some (.write j none, db) else some (.countOthers j key, db)
  | .countOthers j key =>
    if s.maxAccountsPerTarget ≤ othersCount j.owner key db.rows then
      some (.finished (.invalid (.field (targetField (j.row 0).delivery)
        ("this target is already used by ".toList ++ natStr s.maxAccountsPerTarget ++
          " other accounts".toList))), db)
    else some (.write j (some key), db)
  | .write (.create owner attrs) passed =>
    match (attrs.newRow owner db.nextId).keyed s.hosts with
    | .error _ => some (.finished .failed, db)
    | .ok row =>
      let r := ensureSecret fresh row
      -- the sequence is not rolled back
      some (.inserted r.1 r.2 passed, { db with nextId := db.nextId + 1 })
  | .write (.update copy attrs) _ =>
    match (attrs.patch copy).keyed s.hosts with
    | .error _ => some (.finished .failed, db)
    | .ok row =>
      let r := ensureSecret fresh row
      -- every column of the copy is written
      some (.finished (.answered r.2),
        { db with rows := saveFull r.1 db.rows, issued := issue copy.id r.2 db.issued })
  | .inserted row issued _ =>
    some (.finished (.answered issued),
      { db with rows := db.rows ++ [row], issued := issue row.id issued db.issued })
  | .delete copy =>
    some (.finished (.answered none), { db with rows := db.rows.filter fun r => r.id != copy.id })
  | .rotate copy =>
    match savePartial s.hosts (fun r => { r with webhookSecret := some fresh.1 }) copy db.rows with
    | none => some (.finished .failed, db)
    | some rows =>
      some (.finished (.answered (some fresh.1)),
        { db with rows := rows, issued := issue copy.id (some fresh.1) db.issued })
  | .digest _ [] => some (.finished (.answered none), db)
  | .digest now (copy :: todo) =>
    match savePartial s.hosts (fun r => { r with lastNotifiedAt := some now }) copy db.rows with
    | none => some (.finished .failed, db)
    | some rows => some (.digest now todo, { db with rows := rows })
  | .finished _ => none

/-! ### Interleavings -/

/-- The row of a user, and the advisory locks. -/
inductive Lock
  | owner (id : ℕ)
  | key (hash : Int)
  deriving DecidableEq, Repr

/-- Only `create` locks its owner. -/
def Job.locks : Job → List Lock
  | .create owner _ => [.owner owner]
  | .update _ _ => []

/-- The locks of the transaction of a request. -/
def Phase.locks (s : Settings) : Phase → List Lock
  | .countOwned owner _ => [.owner owner]
  | .checkTarget j => j.locks
  | .countOthers j key => .key (s.hashtext key) :: j.locks
  | .write j passed => (passed.map fun key => .key (s.hashtext key)).toList ++ j.locks
  | .inserted row _ passed =>
    (passed.map fun key => .key (s.hashtext key)).toList ++ [.owner row.owner]
  | _ => []

/-- A request goes on, or its transaction is rolled back. -/
inductive Action
  | advance (fresh : Secret)
  | abort
  deriving DecidableEq

def act (s : Settings) (a : Action) (phase : Phase) (db : Db) : Option (Phase × Db) :=
  match a, phase with
  | .advance fresh, phase => advance s fresh phase db
  | .abort, .finished _ => none
  | .abort, _ => some (.finished .failed, db)

/-- What `deliver` writes when an instant delivery succeeded. -/
structure Notified where
  id : ℕ
  now : Time
  deriving DecidableEq

def notify (e : Notified) (db : Db) : Option Db :=
  let rows := updateWhere (fun r => r.id == e.id && r.interval == .instant)
    (fun r => { r with lastNotifiedAt := some e.now }) db.rows
  some { db with rows := rows }

abbrev Requests (ι : Type*) := Config ι (Locked Db Lock) Phase

abbrev Step (ι : Type*) := Move ι Action Notified

/-- The interleavings of the requests. -/
def next {ι : Type*} [DecidableEq ι] (s : Settings) : Step ι → Requests ι → Option (Requests ι) :=
  Config.next (withLocks (Phase.locks s) (act s)) (envWithLocks notify)

/-- Every request is about to be handled. -/
def Fresh {ι : Type*} (c : Requests ι) : Prop := ∀ p, ∃ r, c.loc p = .received r

/-! ### What a step does -/

theorem Db.getObject_eq_some {owner pk : ℕ} {db : Db} {r : Subscription}
    (h : db.getObject owner pk = some r) : r ∈ db.rows ∧ r.id = pk ∧ r.owner = owner := by
  have hp := List.find?_some h
  rw [Bool.and_eq_true, beq_iff_eq, beq_iff_eq] at hp
  exact ⟨List.mem_of_find?_eq_some h, hp.1, hp.2⟩

/-- The row a job writes, once its key is known, and the secret it issues. -/
def Job.written (j : Job) (id : ℕ) (key : Text) (fresh : Secret) : Subscription × Option Text :=
  ensureSecret fresh { j.row id with targetKey := key }

theorem ensureSecret_cases (fresh : Secret) (row : Subscription) :
    (NeedsSecret row ∧
      ensureSecret fresh row = ({ row with webhookSecret := some fresh.1 }, some fresh.1)) ∨
    (¬ NeedsSecret row ∧ ensureSecret fresh row = (row, none)) := by
  rw [ensureSecret]
  split
  · rename_i hn
    exact .inl ⟨hn, rfl⟩
  · rename_i hn
    exact .inr ⟨hn, rfl⟩

/-- `_ensure_secret` changes no other column. -/
theorem ensureSecret_keeps {α : Type*} {f : Subscription → α}
    (hf : ∀ r secret, f { r with webhookSecret := secret } = f r) (fresh : Secret)
    (row : Subscription) : f (ensureSecret fresh row).1 = f row := by
  rcases ensureSecret_cases fresh row with ⟨-, h⟩ | ⟨-, h⟩
  · rw [h]
    exact hf row _
  · rw [h]

namespace Job

@[simp] theorem written_owner (j : Job) (id : ℕ) (key : Text) (fresh : Secret) :
    (j.written id key fresh).1.owner = j.owner :=
  (ensureSecret_keeps (f := Subscription.owner) (fun _ _ => rfl) fresh _).trans (j.row_owner id)

@[simp] theorem written_targetKey (j : Job) (id : ℕ) (key : Text) (fresh : Secret) :
    (j.written id key fresh).1.targetKey = key :=
  ensureSecret_keeps (fun _ _ => rfl) fresh _

@[simp] theorem written_key (t : HostTables) (j : Job) (id : ℕ) (key : Text) (fresh : Secret) :
    (j.written id key fresh).1.key t = j.key t :=
  (ensureSecret_keeps (f := Subscription.key t) (fun _ _ => rfl) fresh _).trans (j.key_row t id)

@[simp] theorem written_update_id (copy : Subscription) (attrs : Attrs) (id : ℕ) (key : Text)
    (fresh : Secret) : ((update copy attrs).written id key fresh).1.id = copy.id :=
  ensureSecret_keeps (fun _ _ => rfl) fresh _

@[simp] theorem written_create_id (owner : ℕ) (attrs : Attrs) (id : ℕ) (key : Text)
    (fresh : Secret) : ((create owner attrs).written id key fresh).1.id = id :=
  ensureSecret_keeps (fun _ _ => rfl) fresh _

end Job

/-- What each step of a request does to the request and to the database. -/
inductive Effect (s : Settings) : Phase → Db → Phase → Db → Prop
  /-- it ends and has written nothing -/
  | ended {l db} (o : Outcome) : Effect s l db (.finished o) db
  | counting {db} (owner : ℕ) (attrs attrs' : Attrs) :
      Effect s (.received (.create owner attrs)) db (.countOwned owner attrs') db
  | counted {db} (owner : ℕ) (attrs : Attrs)
      (hroom : ownedCount owner db.rows < s.maxSubscriptionsPerUser) :
      Effect s (.countOwned owner attrs) db (.checkTarget (.create owner attrs)) db
  | loaded {db} (r : Request) (copy : Subscription) (attrs : Attrs) (hcopy : copy ∈ db.rows) :
      Effect s (.received r) db (.checkTarget (.update copy attrs)) db
  | skipping {db} (j : Job) (hskip : j.unchanged = true ∨ j.key s.hosts = .ok []) :
      Effect s (.checkTarget j) db (.write j none) db
  | locking {db} (j : Job) (key : Text) (hkey : j.key s.hosts = .ok key) (hne : key ≠ []) :
      Effect s (.checkTarget j) db (.countOthers j key) db
  | checked {db} (j : Job) (key : Text)
      (hroom : othersCount j.owner key db.rows < s.maxAccountsPerTarget) :
      Effect s (.countOthers j key) db (.write j (some key)) db
  | inserting {db} (owner : ℕ) (attrs : Attrs) (passed : Option Text) (key : Text)
      (fresh : Secret) (hkey : (Job.create owner attrs).key s.hosts = .ok key) :
      Effect s (.write (.create owner attrs) passed) db
        (.inserted ((Job.create owner attrs).written db.nextId key fresh).1
          ((Job.create owner attrs).written db.nextId key fresh).2 passed)
        { db with nextId := db.nextId + 1 }
  | committed {db} (row : Subscription) (issued passed : Option Text) :
      Effect s (.inserted row issued passed) db (.finished (.answered issued))
        { db with rows := db.rows ++ [row], issued := issue row.id issued db.issued }
  | saved {db} (copy : Subscription) (attrs : Attrs) (passed : Option Text) (key : Text)
      (fresh : Secret) (hkey : (Job.update copy attrs).key s.hosts = .ok key) :
      Effect s (.write (.update copy attrs) passed) db
        (.finished (.answered ((Job.update copy attrs).written copy.id key fresh).2))
        { db with
          rows := saveFull ((Job.update copy attrs).written copy.id key fresh).1 db.rows
          issued := issue copy.id ((Job.update copy attrs).written copy.id key fresh).2 db.issued }
  | deleting {db} (r : Request) (copy : Subscription) (hcopy : copy ∈ db.rows) :
      Effect s (.received r) db (.delete copy) db
  | deleted {db} (copy : Subscription) :
      Effect s (.delete copy) db (.finished (.answered none))
        { db with rows := db.rows.filter fun r => r.id != copy.id }
  | rotating {db} (r : Request) (copy : Subscription) (hcopy : copy ∈ db.rows) :
      Effect s (.received r) db (.rotate copy) db
  | rotated {db} (copy : Subscription) (key : Text) (fresh : Secret)
      (hkey : copy.key s.hosts = .ok key) :
      Effect s (.rotate copy) db (.finished (.answered (some fresh.1)))
        { db with
          rows := updateWhere (fun r => r.id == copy.id)
            (fun r => { r with webhookSecret := some fresh.1, targetKey := key }) db.rows
          issued := issue copy.id (some fresh.1) db.issued }
  | digesting {db} (now : Time) :
      Effect s (.received (.digest now)) db (.digest now (dailyRows db.rows)) db
  | digested {db} (now : Time) (copy : Subscription) (todo : List Subscription) (key : Text)
      (hkey : copy.key s.hosts = .ok key) :
      Effect s (.digest now (copy :: todo)) db (.digest now todo)
        { db with
          rows := updateWhere (fun r => r.id == copy.id)
            (fun r => { r with lastNotifiedAt := some now, targetKey := key }) db.rows }

section Inversion

variable {s : Settings} {fresh : Secret} {l l' : Phase} {db db' : Db}

/-- A request is validated against the row it loads. -/
theorem received_effect {r : Request} (h : advance s fresh (.received r) db = some (l', db')) :
    Effect s (.received r) db l' db' := by
  cases r with
  | create owner attrs =>
    rw [advance] at h
    cases hv : attrs.validate false none with
    | error e =>
      rw [hv] at h
      cases h
      exact .ended _
    | ok attrs' =>
      rw [hv] at h
      cases h
      exact .counting owner attrs attrs'
  | update owner pk isPartial attrs =>
    rw [advance] at h
    cases hg : db.getObject owner pk with
    | none =>
      rw [hg] at h
      cases h
      exact .ended _
    | some copy =>
      simp only [hg] at h
      cases hv : attrs.validate isPartial (some copy) with
      | error e =>
        rw [hv] at h
        cases h
        exact .ended _
      | ok attrs' =>
        rw [hv] at h
        cases h
        exact .loaded _ copy attrs' (Db.getObject_eq_some hg).1
  | delete owner pk =>
    rw [advance] at h
    cases hg : db.getObject owner pk with
    | none =>
      rw [hg] at h
      cases h
      exact .ended _
    | some copy =>
      rw [hg] at h
      cases h
      exact .deleting _ copy (Db.getObject_eq_some hg).1
  | rotateSecret owner pk =>
    rw [advance] at h
    cases hg : db.getObject owner pk with
    | none =>
      rw [hg] at h
      cases h
      exact .ended _
    | some copy =>
      simp only [hg] at h
      split at h
      · cases h
        exact .rotating _ copy (Db.getObject_eq_some hg).1
      · cases h
        exact .ended _
  | digest now =>
    cases h
    exact .digesting now

/-- Before the write, the target is checked. -/
theorem checkTarget_effect {j : Job} (h : advance s fresh (.checkTarget j) db = some (l', db')) :
    Effect s (.checkTarget j) db l' db' := by
  rw [advance] at h
  split at h
  · rename_i hu
    cases h
    exact .skipping j (.inl hu)
  · cases hk : j.key s.hosts with
    | error m =>
      rw [hk] at h
      cases h
      exact .ended _
    | ok key =>
      simp only [hk] at h
      split at h
      · rename_i he
        cases h
        exact .skipping j (.inr (he ▸ hk))
      · rename_i hne
        cases h
        exact .locking j key hk hne

/-- A validated job writes its row. -/
theorem write_effect {j : Job} {passed : Option Text}
    (h : advance s fresh (.write j passed) db = some (l', db')) :
    Effect s (.write j passed) db l' db' := by
  cases j with
  | create owner attrs =>
    rw [advance] at h
    cases hk : (attrs.newRow owner db.nextId).keyed s.hosts with
    | error m =>
      rw [hk] at h
      cases h
      exact .ended _
    | ok row =>
      obtain ⟨key, hkey, rfl⟩ := Subscription.keyed_eq_ok.mp hk
      rw [hk] at h
      cases h
      exact .inserting owner attrs passed key fresh hkey
  | update copy attrs =>
    rw [advance] at h
    cases hk : (attrs.patch copy).keyed s.hosts with
    | error m =>
      rw [hk] at h
      cases h
      exact .ended _
    | ok row =>
      obtain ⟨key, hkey, rfl⟩ := Subscription.keyed_eq_ok.mp hk
      rw [hk] at h
      cases h
      exact .saved copy attrs passed key fresh hkey

/-- **Inversion of `advance`.** -/
theorem advance_effect (h : advance s fresh l db = some (l', db')) : Effect s l db l' db' := by
  cases l with
  | received r => exact received_effect h
  | countOwned owner attrs =>
    rw [advance] at h
    split at h
    · cases h
      exact .ended _
    · rename_i hroom
      cases h
      exact .counted owner attrs (Nat.not_le.mp hroom)
  | checkTarget j => exact checkTarget_effect h
  | countOthers j key =>
    rw [advance] at h
    split at h
    · cases h
      exact .ended _
    · rename_i hroom
      cases h
      exact .checked j key (Nat.not_le.mp hroom)
  | write j passed => exact write_effect h
  | inserted row issued passed =>
    cases h
    exact .committed row issued passed
  | delete copy =>
    cases h
    exact .deleted copy
  | rotate copy =>
    rw [advance] at h
    split at h
    · cases h
      exact .ended _
    · rename_i rows hs
      obtain ⟨key, hkey, -, rfl⟩ := savePartial_eq_some.mp hs
      cases h
      exact .rotated copy key fresh hkey
  | digest now todo =>
    cases todo with
    | nil =>
      cases h
      exact .ended _
    | cons copy todo =>
      rw [advance] at h
      split at h
      · cases h
        exact .ended _
      · rename_i rows hs
        obtain ⟨key, hkey, -, rfl⟩ := savePartial_eq_some.mp hs
        cases h
        exact .digested now copy todo key hkey
  | finished o => cases h

end Inversion

/-- An update of rows in place keeps what holds of every row. -/
theorem forall_updateWhere {R : Subscription → Prop} {p : Subscription → Bool}
    {f : Subscription → Subscription} {rows : List Subscription} (h : ∀ r ∈ rows, R r)
    (hf : ∀ r ∈ rows, p r = true → R (f r)) : ∀ r ∈ updateWhere p f rows, R r := by
  intro y hy
  obtain ⟨r, hr, rfl⟩ := mem_updateWhere.mp hy
  by_cases hp : p r = true
  · rw [if_pos hp]
    exact hf r hr hp
  · rw [if_neg hp]
    exact h r hr

/-- **Rows after a step.**  What holds of every row still does, if it holds of
the rows that are inserted or saved in full, and of stored rows with the columns
of a partial save. -/
theorem Effect.forall_rows {s : Settings} {l l' : Phase} {db db' : Db} {R : Subscription → Prop}
    (h : Effect s l db l' db') (hrows : ∀ r ∈ db.rows, R r)
    (hinserted : ∀ row issued passed, l = .inserted row issued passed → R row)
    (hsaved : ∀ copy attrs passed key fresh, l = .write (.update copy attrs) passed →
      (Job.update copy attrs).key s.hosts = .ok key →
      R ((Job.update copy attrs).written copy.id key fresh).1)
    (hrotated : ∀ copy key (fresh : Secret), l = .rotate copy → copy.key s.hosts = .ok key →
      ∀ r ∈ db.rows, r.id = copy.id →
        R { r with webhookSecret := some fresh.1, targetKey := key })
    (hdigested : ∀ now copy todo key, l = .digest now (copy :: todo) →
      copy.key s.hosts = .ok key →
      ∀ r ∈ db.rows, r.id = copy.id → R { r with lastNotifiedAt := some now, targetKey := key }) :
    ∀ r ∈ db'.rows, R r := by
  cases h with
  | committed row issued passed =>
    intro r hr
    rcases List.mem_append.mp hr with hr | hr
    · exact hrows r hr
    · rw [List.mem_singleton] at hr
      exact hr ▸ hinserted row issued passed rfl
  | saved copy attrs passed key fresh hkey =>
    intro r hr
    rcases mem_put hr with rfl | ⟨hr, -⟩
    · exact hsaved copy attrs passed key fresh rfl hkey
    · exact hrows r hr
  | deleted copy => exact fun r hr => hrows r (List.mem_filter.mp hr).1
  | rotated copy key fresh hkey =>
    exact forall_updateWhere hrows fun r hr hid =>
      hrotated copy key fresh rfl hkey r hr (beq_iff_eq.mp hid)
  | digested now copy todo key hkey =>
    exact forall_updateWhere hrows fun r hr hid =>
      hdigested now copy todo key rfl hkey r hr (beq_iff_eq.mp hid)
  | ended | counting | counted | loaded | skipping | locking | checked | inserting | deleting
  | rotating | digesting => exact hrows

theorem act_effect {s : Settings} {a : Action} {l l' : Phase} {db db' : Db}
    (h : act s a l db = some (l', db')) : Effect s l db l' db' := by
  cases a with
  | advance fresh => exact advance_effect h
  | abort =>
    cases l with
    | finished o => cases h
    | _ =>
      cases h
      exact .ended _

theorem act_abort {s : Settings} {l l' : Phase} {db db' : Db}
    (h : act s .abort l db = some (l', db')) : db' = db := by
  cases l <;> cases h <;> rfl

theorem Effect.nextId_le {s : Settings} {l l' : Phase} {db db' : Db} (h : Effect s l db l' db') :
    db.nextId ≤ db'.nextId := by
  cases h <;> first | exact Nat.le_refl _ | exact Nat.le_succ _

/-! ### Invariants of interleavings -/

section Invariants

variable {ι : Type*} [DecidableEq ι] {s : Settings} {ok : Requests ι → Step ι → Prop}
  {c₀ c : Requests ι}

omit [DecidableEq ι] in
/-- No two requests hold one lock. -/
def Exclusive (s : Settings) (c : Requests ι) : Prop :=
  ∀ p q, p ≠ q → NoCommon (Phase.locks s) (c.loc p) (c.loc q)

theorem exclusive (h0 : Fresh c₀) (h : Reach (next s) ok c₀ c) : Exclusive s c := by
  intro p q hpq
  refine exclusive_of_reach (fun p => ?_) h hpq
  obtain ⟨r, hr⟩ := h0 p
  rw [hr]
  rfl

omit [DecidableEq ι] in
/-- The side condition of a run: a statement that is executed meets `K`. -/
def OnAdvance (K : Phase → Db → Prop) (c : Requests ι) : Step ι → Prop
  | .proc p (.advance _) => K (c.loc p) c.shared.state
  | _ => True

instance {K : Phase → Db → Prop} [∀ l db, Decidable (K l db)] (c : Requests ι) :
    (m : Step ι) → Decidable (OnAdvance K c m)
  | .proc p (.advance _) => inferInstanceAs (Decidable (K (c.loc p) c.shared.state))
  | .proc _ .abort | .env _ => isTrue trivial

omit [DecidableEq ι] in
/-- An admitted step meets the condition, or is a rollback. -/
theorem OnAdvance.of_act {K : Phase → Db → Prop} {p : ι} {a : Action} {l : Phase} {db : Db}
    (hok : OnAdvance K c (.proc p a)) (hact : act s a (c.loc p) c.shared.state = some (l, db)) :
    K (c.loc p) c.shared.state ∨ db = c.shared.state := by
  cases a with
  | advance fresh => exact .inl hok
  | abort => exact .inr (act_abort hact)

/-- The shared invariant `G` of the database, and the assertions `P` and `Q` of
requests. -/
abbrev Holds (G : Db → Prop) (P : Phase → Db → Prop) (Q : Phase → Phase → Prop)
    (c : Requests ι) : Prop :=
  Config.Meets (fun w => G w.state) (fun l w => P l w.state) Q c

/-- **Invariants of requests.**  The rule for interleaved processes, on the
database alone and with mutual exclusion at hand. -/
theorem invariant_of_acts {G : Db → Prop} {P : Phase → Db → Prop} {Q : Phase → Phase → Prop}
    (hsymm : ∀ l m, Q l m → Q m l)
    (own : ∀ (c : Requests ι) p a l db, Holds G P Q c → ok c (.proc p a) →
      act s a (c.loc p) c.shared.state = some (l, db) → G db ∧ P l db)
    (other : ∀ (c : Requests ι) p a l db q, Holds G P Q c → Exclusive s c → ok c (.proc p a) →
      act s a (c.loc p) c.shared.state = some (l, db) → q ≠ p → P (c.loc q) db)
    (pairs : ∀ (c : Requests ι) p a l db q, Holds G P Q c → ok c (.proc p a) →
      act s a (c.loc p) c.shared.state = some (l, db) → q ≠ p → Q l (c.loc q))
    (envs : ∀ (c : Requests ι) e db, Holds G P Q c → notify e c.shared.state = some db →
      G db ∧ ∀ p, P (c.loc p) db)
    (h0 : Fresh c₀) (hinit : Holds G P Q c₀) (h : Reach (next s) ok c₀ c) : Holds G P Q c := by
  have h := h.knowing fun c hc => exclusive h0 hc
  refine Config.invariant_of_assertions hsymm ?_ ?_ ?_ ?_ hinit h
  · intro c p a l w hc hok hstep
    exact own c p a l w.state hc hok.2 (withLocks_eq_some.mp hstep).1
  · intro c p a l w q hc hok hstep hq
    exact other c p a l w.state q hc hok.1 hok.2 (withLocks_eq_some.mp hstep).1 hq
  · intro c p a l w q hc hok hstep hq
    exact pairs c p a l w.state q hc hok.2 (withLocks_eq_some.mp hstep).1 hq
  · intro c e w hc _ henv
    obtain ⟨db, hdb, rfl⟩ := Option.map_eq_some_iff.mp henv
    exact envs c e db hc hdb

end Invariants

/-! ### Samples -/

/-- The default settings.  All keys have one hash, so that requests wait for each
other as often as they can. -/
def defaultSettings : Settings where
  hosts := asciiTables
  hashtext := fun _ => 0
  maxSubscriptionsPerUser := 20
  maxAccountsPerTarget := 5

/-- A request body that gives nothing. -/
def noAttrs : Attrs := ⟨none, none, none, none, none, none, none, none, none⟩

/-- The request goes on, and issues this secret if it has to. -/
def go {ι : Type*} (p : ι) : Step ι := .proc p (.advance ⟨"fresh".toList, by decide⟩)

end SubscriptionApi
