/-
Every stored subscription can be delivered.

A request validates its fields against the copy it loaded, and writes the whole
copy: the row it leaves agrees with itself, however stale the copy was.

* `Addressed` — the field of the channel is filled in;
* `Deliverable` — and a webhook has a secret to sign with;
* `Checked` — what a request has validated, up to its write.

Main result: `deliverable_rows`.
-/
import Newsforge.SubscriptionApi

open PyText Tables Runs

namespace SubscriptionApi

open SafeHttp Subscriptions Targets

/-! ### Validation -/

/-- A webhook has a URL, a mail has an address. -/
structure Addressed (r : Subscription) : Prop where
  webhook : r.delivery = .webhook → truthy r.webhookUrl = true
  email : r.delivery = .email → truthy r.emailTo = true

/-- And a webhook has a secret. -/
structure Deliverable (r : Subscription) : Prop extends Addressed r where
  secret : r.delivery = .webhook → truthy r.webhookSecret = true

/-- What `validate` accepts has the field of its channel, of its own or from the
loaded row; a full request names its channel. -/
theorem Attrs.validate_ok {attrs attrs' : Attrs} {isPartial : Bool} {inst : Option Subscription}
    (h : attrs.validate isPartial inst = .ok attrs') :
    (isPartial = false → attrs'.delivery ≠ none) ∧
      (attrs'.delivery.or (inst.map Subscription.delivery) = some .webhook →
        truthy (attrs'.webhookUrl.getD (inst.bind Subscription.webhookUrl)) = true) ∧
      (attrs'.delivery.or (inst.map Subscription.delivery) = some .email →
        truthy (attrs'.emailTo.getD (inst.bind Subscription.emailTo)) = true) := by
  rw [validate] at h
  split at h
  · cases h
  rename_i hmissing
  -- the filters that are filled in are none of these fields
  generalize hbase : (if isPartial = true then attrs else
    { attrs with feeds := some (attrs.feeds.getD []), tagIds := some (attrs.tagIds.getD []) })
    = base at h
  have hdelivery : base.delivery = attrs.delivery := by
    rw [← hbase]
    split <;> rfl
  dsimp only at h
  split at h
  · cases h
  rename_i hwebhook
  split at h
  · cases h
  rename_i hemail
  obtain rfl : base = attrs' := Except.ok.inj h
  refine ⟨fun hfull hnone => ?_, fun hd => ?_, fun hd => ?_⟩
  · apply hmissing
    rw [hdelivery] at hnone
    simp [hfull, Attrs.missing, hnone]
  · exact Bool.of_not_eq_false fun hno => hwebhook ⟨hd, hno⟩
  · exact Bool.of_not_eq_false fun hno => hemail ⟨hd, hno⟩

/-- What `validate` accepted gives the loaded copy an address. -/
theorem Attrs.addressed_patch {attrs attrs' : Attrs} {isPartial : Bool} {copy : Subscription}
    (h : attrs.validate isPartial (some copy) = .ok attrs') : Addressed (attrs'.patch copy) := by
  obtain ⟨-, hwebhook, hemail⟩ := validate_ok h
  -- the checks see the channel that the patch leaves
  have hor : attrs'.delivery.or (some copy.delivery) = some (attrs'.patch copy).delivery := by
    cases hd : attrs'.delivery with
    | none => simp [Attrs.patch, hd]
    | some d => simp [Attrs.patch, hd]
  refine ⟨fun hd => hwebhook ?_, fun hd => hemail ?_⟩
  · rw [← hd]
    exact hor
  · rw [← hd]
    exact hor

/-- What `validate` accepted for a new row gives it an address. -/
theorem Attrs.addressed_newRow {attrs attrs' : Attrs} (owner id : ℕ)
    (h : attrs.validate false none = .ok attrs') : Addressed (attrs'.newRow owner id) := by
  obtain ⟨hnamed, hwebhook, hemail⟩ := validate_ok h
  have hor : attrs'.delivery.or none = some (attrs'.newRow owner id).delivery := by
    cases hd : attrs'.delivery with
    | none => exact absurd hd (hnamed rfl)
    | some d => simp [Attrs.newRow, hd]
  refine ⟨fun hd => hwebhook ?_, fun hd => hemail ?_⟩
  · rw [← hd]
    exact hor
  · rw [← hd]
    exact hor

theorem exists_of_truthy {x : Option Text} (h : truthy x = true) : ∃ s, x = some s ∧ s ≠ [] := by
  cases x with
  | none => cases h
  | some s => exact ⟨s, rfl, List.isEmpty_eq_false_iff.mp (Bool.not_eq_true' _ ▸ h)⟩

/-! ### Requests that are validated -/

/-- What a request has validated. -/
def Checked : Phase → Prop
  | .countOwned owner attrs => ∀ id, Addressed (attrs.newRow owner id)
  | .checkTarget j | .countOthers j _ | .write j _ => ∀ id, Addressed (j.row id)
  | .inserted row _ _ => Deliverable row
  | _ => True

theorem Secret.truthy (fresh : Secret) : SafeHttp.truthy (some fresh.1) = true := by
  show (!fresh.1.isEmpty) = true
  rw [Bool.not_eq_true', List.isEmpty_eq_false_iff]
  exact fresh.2

/-- `_ensure_secret` makes a row with an address deliverable. -/
theorem deliverable_ensureSecret {row : Subscription} (h : Addressed row) (fresh : Secret) :
    Deliverable (ensureSecret fresh row).1 := by
  rcases ensureSecret_cases fresh row with ⟨-, he⟩ | ⟨hn, he⟩
  · rw [he]
    exact ⟨⟨h.webhook, h.email⟩, fun _ => fresh.truthy⟩
  · rw [he]
    exact ⟨h, fun hd => Bool.of_not_eq_false fun hno => hn ⟨hd, hno⟩⟩

/-- The row a validated job writes. -/
theorem deliverable_written {j : Job} {id : ℕ} (h : Addressed (j.row id)) (key : Text)
    (fresh : Secret) : Deliverable (j.written id key fresh).1 := by
  have haddressed : Addressed { j.row id with targetKey := key } := ⟨h.webhook, h.email⟩
  exact deliverable_ensureSecret haddressed fresh

variable {s : Settings} {l l' : Phase} {db db' : Db}

/-- A request goes on with what it has validated. -/
theorem Checked.effect (hl : Checked l) (hloaded : ∀ r, l ≠ .received r)
    (h : Effect s l db l' db') : Checked l' := by
  cases h with
  | counting owner attrs attrs' => exact absurd rfl (hloaded _)
  | loaded r copy attrs => exact absurd rfl (hloaded r)
  | counted owner attrs => exact hl
  | skipping j | locking j | checked j => exact hl
  | inserting owner attrs passed key fresh hkey =>
    exact deliverable_written (hl db.nextId) key fresh
  | ended | committed | saved | deleting | deleted | rotating | rotated | digesting | digested =>
    trivial

/-- A request validates when it loads its row. -/
theorem checked_of_received {r : Request} {fresh : Secret}
    (h : advance s fresh (.received r) db = some (l', db')) : Checked l' := by
  cases r with
  | create owner attrs =>
    rw [advance] at h
    cases hv : attrs.validate false none with
    | error e =>
      rw [hv] at h
      cases h
      trivial
    | ok attrs' =>
      rw [hv] at h
      cases h
      exact fun id => Attrs.addressed_newRow owner id hv
  | update owner pk isPartial attrs =>
    rw [advance] at h
    cases hg : db.getObject owner pk with
    | none =>
      rw [hg] at h
      cases h
      trivial
    | some copy =>
      simp only [hg] at h
      cases hv : attrs.validate isPartial (some copy) with
      | error e =>
        rw [hv] at h
        cases h
        trivial
      | ok attrs' =>
        rw [hv] at h
        cases h
        exact fun _ => Attrs.addressed_patch hv
  | delete owner pk =>
    rw [advance] at h
    split at h <;> cases h <;> trivial
  | rotateSecret owner pk =>
    rw [advance] at h
    split at h
    · cases h
      trivial
    · split at h <;> cases h <;> trivial
  | digest now =>
    cases h
    trivial

theorem Checked.act {a : Action} (hl : Checked l) (h : act s a l db = some (l', db')) :
    Checked l' := by
  cases a with
  | advance fresh =>
    by_cases hr : ∃ r, l = .received r
    · obtain ⟨r, rfl⟩ := hr
      exact checked_of_received h
    · exact hl.effect (fun r hlr => hr ⟨r, hlr⟩) (advance_effect h)
  | abort => cases l <;> cases h <;> trivial

/-- **Rows after a step** are deliverable: what is inserted or saved in full was
validated, and a partial save writes no address. -/
theorem Effect.deliverable (hl : Checked l) (h : Effect s l db l' db')
    (hrows : ∀ r ∈ db.rows, Deliverable r) : ∀ r ∈ db'.rows, Deliverable r := by
  refine h.forall_rows hrows ?_ ?_ ?_ ?_
  · rintro row issued passed rfl
    exact hl
  · rintro copy attrs passed key fresh rfl -
    exact deliverable_written (hl copy.id) key fresh
  · rintro copy key fresh - - r hr -
    exact ⟨⟨(hrows r hr).webhook, (hrows r hr).email⟩, fun _ => fresh.truthy⟩
  · rintro now copy todo key - - r hr -
    exact ⟨⟨(hrows r hr).webhook, (hrows r hr).email⟩, (hrows r hr).secret⟩

section Run

variable {ι : Type*} [DecidableEq ι] {ok : Requests ι → Step ι → Prop} {c₀ c : Requests ι}

/-- The invariant of all interleavings. -/
theorem deliverable_of_reach (h0 : Fresh c₀) (hrows : ∀ r ∈ c₀.shared.state.rows, Deliverable r)
    (h : Reach (next s) ok c₀ c) : ∀ r ∈ c.shared.state.rows, Deliverable r := by
  have hmeets : Holds (fun db => ∀ r ∈ db.rows, Deliverable r) (fun l _ => Checked l)
      (fun _ _ => True) c₀ := by
    refine ⟨hrows, fun p => ?_, fun _ _ _ => trivial⟩
    obtain ⟨r, hr⟩ := h0 p
    rw [hr]
    trivial
  refine (invariant_of_acts (fun _ _ _ => trivial) ?_ ?_ ?_ ?_ h0 hmeets h).shared
  · intro c p a l db hc _ hact
    exact ⟨(act_effect hact).deliverable (hc.each p) hc.shared, (hc.each p).act hact⟩
  · intro c p a l db q hc _ _ _ _
    exact hc.each q
  · exact fun _ _ _ _ _ _ _ _ _ _ => trivial
  · intro c e db hc henv
    cases henv
    refine ⟨forall_updateWhere hc.shared fun r hr _ => ?_, hc.each⟩
    exact ⟨⟨(hc.shared r hr).webhook, (hc.shared r hr).email⟩, (hc.shared r hr).secret⟩

/-- **Deliverable rows.**  From an empty table, in every state of every
interleaving of requests, digests and deliveries, each committed webhook row has
a URL and a secret, and each committed e-mail row an address. -/
theorem deliverable_rows (h0 : Fresh c₀) (hempty : c₀.shared.state.rows = [])
    (h : Reach (next s) ok c₀ c) :
    ∀ r ∈ c.shared.state.rows,
      (r.delivery = .webhook →
        (∃ url, r.webhookUrl = some url ∧ url ≠ []) ∧
          ∃ secret, r.webhookSecret = some secret ∧ secret ≠ []) ∧
      (r.delivery = .email → ∃ address, r.emailTo = some address ∧ address ≠ []) := by
  intro r hr
  have hno : ∀ r ∈ c₀.shared.state.rows, Deliverable r := by
    intro r hr
    rw [hempty] at hr
    cases hr
  have hd := deliverable_of_reach h0 hno h r hr
  exact ⟨fun hw => ⟨exists_of_truthy (hd.webhook hw), exists_of_truthy (hd.secret hw)⟩,
    fun he => exists_of_truthy (hd.email he)⟩

end Run

/-! ### Two requests that contradict each other -/

/-- One request creates a webhook subscription; of two that load it then, one
gives it an address and takes its URL away, the other switches it to a new URL. -/
def contrary : Requests (Fin 3) where
  shared := ⟨⟨[], 1, []⟩, []⟩
  loc
    | 0 => .received (.create 1 { noAttrs with
        name := some "hook".toList
        q := some "lean".toList
        delivery := some .webhook
        webhookUrl := some (some "https://hooks.example/in".toList) })
    | 1 => .received (.update 1 1 true { noAttrs with
        delivery := some .email
        webhookUrl := some none
        emailTo := some (some "own@example.org".toList) })
    | 2 => .received (.update 1 1 true { noAttrs with
        delivery := some .webhook
        webhookUrl := some (some "https://hooks.example/other".toList) })

theorem contrary_fresh : Fresh contrary := by
  intro p
  match p with
  | 0 => exact ⟨_, rfl⟩
  | 1 => exact ⟨_, rfl⟩
  | 2 => exact ⟨_, rfl⟩

/-- Both are loaded before either is saved; the switch to the new URL is saved
last. -/
theorem deliverable_rows_contrary :
    ∃ c, Reach (next defaultSettings) anyMove contrary c ∧
      c.loc 1 = .finished (.answered none) ∧ c.loc 2 = .finished (.answered none) ∧
      c.shared.state.rows.map Subscription.delivery = [.webhook] ∧
      ∀ r ∈ c.shared.state.rows, r.delivery = .webhook →
        ∃ secret, r.webhookSecret = some secret ∧ secret ≠ [] := by
  have hrun : ((exec (next defaultSettings)
      [go 0, go 0, go 0, go 0, go 0, go 0, go 1, go 2, go 1, go 1, go 1, go 2, go 2, go 2]
        contrary).map fun c => (c.loc 1, c.loc 2, c.shared.state.rows.map Subscription.delivery)) =
      some (.finished (.answered none), .finished (.answered none), [.webhook]) := by
    decide
  obtain ⟨c, hreach, hend⟩ := Reach.exists_of_exec anyMove hrun (along_anyMove _ _)
  refine ⟨c, hreach, congrArg Prod.fst hend, congrArg (·.2.1) hend, congrArg (·.2.2) hend, ?_⟩
  intro r hr hd
  exact ((deliverable_rows contrary_fresh rfl hreach r hr).1 hd).2

end SubscriptionApi
