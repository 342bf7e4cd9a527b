/-
Internal DNS is not observable (`apps/core/safe_http.py`,
`apps/feeds/serializers.py`, `apps/subscriptions/serializers.py`,
`tasks/notifications.py`).

Two resolvers that both reject a URL may do so for different reasons: a name
that is not there, private addresses, no address at all.  What an owner sees of
it is compared here, run against run.

* `Rejects`, `rejection` — a rejected URL, and its one message;
* `validateUrl`, `validateWebhookUrl` — the fields of the two serializers;
* `Deliver.Logged` — a delivery that was recorded, in a run of any tasks;
* `SameResults` — what owners see is the same.

Main result: `dns_is_not_observable`.
-/
import Newsforge.DeliveryErrors
import Newsforge.DeliveryLease
import Newsforge.FeedEntries

open PyText Runs Tables

namespace SafeHttp

/-! ### Rejected URLs -/

/-- `socket.getaddrinfo`: the addresses of a host and a port. -/
abbrev Resolver := Text → ℕ → Except DnsError (List Text)

variable {t : HostTables} {is : AddressPredicates} {url : Text} {allowHttp : Bool}
  {getaddrinfo : Resolver}

/-- The resolver answers with IP addresses, and the URL is rejected under it. -/
structure Rejects (t : HostTables) (is : AddressPredicates) (url : Text) (allowHttp : Bool)
    (getaddrinfo : Resolver) : Prop where
  addresses : ∀ host port infos, getaddrinfo host port = .ok infos →
    ∀ sockaddr ∈ infos, ∃ ip, parseAnswer sockaddr = .ok ip
  rejected : ∀ target, resolve t is getaddrinfo url allowHttp ≠ .ok target

/-- The message of a rejected URL; it is read from the URL alone. -/
def rejection (t : HostTables) (url : Text) (allowHttp : Bool) : Text :=
  match checkUrl t url allowHttp with
  | .error m => m
  | .ok _ => notPublic

/-- Answers that are addresses fail for one reason. -/
theorem checkAnswers_error {infos : List Text} {e : RequestError}
    (haddresses : ∀ sockaddr ∈ infos, ∃ ip, parseAnswer sockaddr = .ok ip)
    (h : checkAnswers is infos = .error e) : e = .unsafeUrl notPublic := by
  induction infos with
  | nil => cases h
  | cons sockaddr rest ih =>
    obtain ⟨ip, hip⟩ := haddresses sockaddr List.mem_cons_self
    rw [checkAnswers, hip] at h
    by_cases hpublic : isPublic is ip = true
    · have hrest := ih fun a ha => haddresses a (List.mem_cons_of_mem _ ha)
      cases htail : checkAnswers is rest with
      | error e' =>
        simp only [hpublic, htail, bind, Except.bind] at h
        cases h
        exact hrest htail
      | ok ips =>
        simp only [hpublic, htail, bind, Except.bind] at h
        cases h
    · simp only [Bool.eq_false_iff.mpr hpublic, bind, Except.bind] at h
      cases h
      rfl

/-- **A rejected URL has one message**, whatever the resolver knows. -/
theorem Rejects.resolve_eq (h : Rejects t is url allowHttp getaddrinfo) :
    resolve t is getaddrinfo url allowHttp = .error (.unsafeUrl (rejection t url allowHttp)) := by
  have hrejected := h.rejected
  rw [resolve, rejection]
  cases hcheck : checkUrl t url allowHttp with
  | error m => rfl
  | ok checked =>
    obtain ⟨parts, scheme, defaultPort, host⟩ := checked
    simp only [resolve, hcheck] at hrejected ⊢
    cases hlookup : getaddrinfo host defaultPort with
    | error e => rfl
    | ok infos =>
      simp only [hlookup] at hrejected ⊢
      cases hanswers : checkAnswers is infos with
      | error e => rw [checkAnswers_error (h.addresses _ _ _ hlookup) hanswers]
      | ok ips =>
        cases ips with
        | nil => rfl
        | cons a rest =>
          rw [hanswers] at hrejected
          exact absurd rfl (hrejected _)

/-- Nothing is sent to a URL that is rejected on the first hop. -/
theorem Rejects.request_eq {net : Internet} {o : Options}
    (h : Rejects t is url o.allowHttp (net.getaddrinfo 0)) (method : Text)
    (content : Option Bytes) :
    request t is net o method url content =
      ([], .error (.unsafeUrl (rejection t url o.allowHttp))) := by
  rw [request, hops]
  simp only [h.resolve_eq]

end SafeHttp

/-! ### The URL fields of the serializers -/

namespace UrlFields

open SafeHttp

variable {s : Robots.Settings} {getaddrinfo : Resolver} {url : Text}

/-- What leaves a field validator as an exception: a `ValidationError` with its
message and code, or another one. -/
inductive FieldError
  | invalid (message code : Text)
  | raised (e : RequestError)
  deriving DecidableEq, Repr

/-- `assert_public_url`; without `allow_http` the setting decides. -/
def assertPublicUrl (s : Robots.Settings) (getaddrinfo : Resolver) (url : Text)
    (allowHttp : Option Bool) : Except RequestError Unit :=
  (resolve s.hosts s.is getaddrinfo url (allowHttp.getD s.allowPlainHttp)).map fun _ => ()

/-- `except SSRFError` of the validators. -/
def asInvalid (code : Text) : RequestError → FieldError
  | .unsafeUrl m => .invalid m code
  | e => .raised e

/-- `DUPLICATE_URL`. -/
def duplicateUrl : Text := "a feed with this url already exists".toList

/-- `FeedSerializer.validate_url`; `inst` is the feed that is updated, if one is. -/
def validateUrl (s : Robots.Settings) (getaddrinfo : Resolver) (rows : List Feeds.Feed)
    (inst : Option ℕ) (value : Text) : Except FieldError Text :=
  match assertPublicUrl s getaddrinfo value none with
  | .error e => .error (asInvalid "ssrf_blocked".toList e)
  | .ok () =>
    match canonicalUrl s.hosts value with
    | .error m => .error (.raised (.unsafeUrl m))
    | .ok value =>
      if rows.any fun r => r.url = value && !r.isDeleted && some r.id ≠ inst then
        .error (.invalid duplicateUrl "invalid".toList)
      else .ok value

/-- `SubscriptionSerializer.validate_webhook_url`. -/
def validateWebhookUrl (s : Robots.Settings) (getaddrinfo : Resolver) (value : Option Text) :
    Except FieldError (Option Text) :=
  match value with
  | none => .ok none
  | some url =>
    if url.isEmpty then .ok none
    else match assertPublicUrl s getaddrinfo url none with
      | .error e => .error (asInvalid "invalid".toList e)
      | .ok () => .ok (some url)

theorem assertPublicUrl_eq (h : Rejects s.hosts s.is url s.allowPlainHttp getaddrinfo) :
    assertPublicUrl s getaddrinfo url none =
      .error (.unsafeUrl (rejection s.hosts url s.allowPlainHttp)) := by
  rw [assertPublicUrl, Option.getD_none, h.resolve_eq]
  rfl

theorem validateUrl_eq (h : Rejects s.hosts s.is url s.allowPlainHttp getaddrinfo)
    (rows : List Feeds.Feed) (inst : Option ℕ) :
    validateUrl s getaddrinfo rows inst url =
      .error (.invalid (rejection s.hosts url s.allowPlainHttp) "ssrf_blocked".toList) := by
  rw [validateUrl, assertPublicUrl_eq h]
  rfl

theorem validateWebhookUrl_eq (h : Rejects s.hosts s.is url s.allowPlainHttp getaddrinfo)
    (hurl : url ≠ []) :
    validateWebhookUrl s getaddrinfo (some url) =
      .error (.invalid (rejection s.hosts url s.allowPlainHttp) "invalid".toList) := by
  have hempty : ¬ url.isEmpty = true := fun h0 => hurl (List.isEmpty_iff.mp h0)
  rw [validateWebhookUrl]
  simp only [if_neg hempty, assertPublicUrl_eq h]
  rfl

end UrlFields

/-- A feed whose URL is rejected on the first hop. -/
theorem Feeds.fetch_of_rejects {s : Feeds.FetchSettings} {net : SafeHttp.Internet} {url : Text}
    (h : SafeHttp.Rejects s.hosts s.is url s.allowPlainHttp (net.getaddrinfo 0))
    (etag lastModified : Option Text) :
    Feeds.fetch s net url etag lastModified = .ok (.failed .ssrfBlocked none) := by
  have hrequest := h.request_eq (o := Feeds.fetchOptions s etag lastModified) "GET".toList none
  rw [Feeds.fetch, hrequest]
  rfl

/-! ### Deliveries -/

namespace Deliver

open SafeHttp

/-- The result of an attempt, as the owner of the subscription sees it in the log. -/
structure Seen where
  succeeded : Bool
  httpStatus : Option Int
  error : Option Text
  deriving DecidableEq, Repr

def LogRow.seen (row : LogRow) : Seen := ⟨row.succeeded, row.httpStatus, row.error⟩

/-- What `_record` makes of an attempt. -/
def Attempt.seen (a : Attempt) : Seen := ⟨a.succeeded, a.httpStatus, cutError a.error⟩

/-- In some run of tasks for one pair, from their start, a task observed `sent`
and recorded it in a row that had not succeeded; it left `row` there, and went
on to `phase`. -/
inductive Logged (ι : Type*) [DecidableEq ι] (sent : Except DeliveryError Int) :
    LogRow → Phase → Prop
  | intro {c₀ c c' : Tasks ι} {p : ι} {now : Time} {a : Attempt} {ending : Ending}
      {old row : LogRow} (hstart : ∀ q, (c₀.loc q).phase = .load)
      (hrun : Reach next anyMove c₀ c)
      (hphase : (c.loc p).phase = .record now a (some sent) ending)
      (hlog : c.shared.log = some old) (hopen : old.succeeded = false)
      (hnext : next (.proc p .record) c = some c') (hrow : c'.shared.log = some row) :
      Logged ι sent row (c'.loc p).phase

/-- What a task is about to record is what it concluded from its send. -/
def Task.Concluded (t : Task) : Prop :=
  ∀ now a sent ending, t.phase = .record now a (some sent) ending →
    ∃ sub, conclude sub sent = (a, ending)

theorem Effect.concluded {a : Action} {t t' : Task} {w w' : World} (h : Effect a t w t' w') :
    t'.Concluded := by
  intro now attempt sent ending hphase
  cases h with
  | taken sub now' =>
    -- nothing was sent yet
    rw [Task.goto_phase, afterClaim] at hphase
    split at hphase <;> cases hphase
  | sent sub now' receiver answer =>
    cases hphase
    exact ⟨sub, rfl⟩
  | recorded now' a' sent' ending' => cases ending' <;> cases hphase
  | gone | loaded | captured | delivered | inFlight | notified | retried | died | redelivered =>
    cases hphase

theorem step_record {t : Task} {now : Time} {a : Attempt}
    {sent : Option (Except DeliveryError Int)} {ending : Ending}
    (h : t.phase = .record now a sent ending) (w : World) :
    step .record t w =
      some (t.goto ending.phase, { w with log := Deliver.record a w.clock w.log }) := by
  simp only [step, h]

section Run

variable {ι κ : Type*} [DecidableEq ι] [DecidableEq κ] {sent sent' : Except DeliveryError Int}
  {row row' : LogRow} {phase phase' : Phase}

theorem concluded_of_reach {c₀ c : Tasks ι} (h0 : ∀ q, (c₀.loc q).phase = .load)
    (h : Reach next anyMove c₀ c) (p : ι) : (c.loc p).Concluded := by
  have hmeets : Config.Meets (fun _ => True) (fun t _ => t.Concluded) (fun _ _ => True) c := by
    refine Config.invariant_of_assertions (fun _ _ _ => trivial) ?_ ?_ ?_ ?_ ?_ h
    · intro c p a t w _ _ hstep
      exact ⟨trivial, (step_effect hstep).concluded⟩
    · intro c p a t w q hc _ _ _
      exact hc.each q
    · intros
      exact trivial
    · intro c e w hc _ _
      exact ⟨trivial, hc.each⟩
    · refine ⟨trivial, fun q now a sent ending hphase => ?_, fun _ _ _ => trivial⟩
      rw [h0 q] at hphase
      cases hphase
  exact hmeets.each p

/-- A task that is about to record does it. -/
theorem Logged.of_reach {c₀ c : Tasks ι} {p : ι} {now : Time} {a : Attempt} {ending : Ending}
    {old : LogRow} (hstart : ∀ q, (c₀.loc q).phase = .load) (hrun : Reach next anyMove c₀ c)
    (hphase : (c.loc p).phase = .record now a (some sent) ending)
    (hlog : c.shared.log = some old) (hopen : old.succeeded = false) :
    ∃ row phase, Logged ι sent row phase := by
  have hnext : next (.proc p .record) c = some _ :=
    Config.next_proc.mpr ⟨_, _, step_record hphase c.shared, rfl⟩
  have hrow : Deliver.record a c.shared.clock c.shared.log = some _ :=
    congrArg (Deliver.record a c.shared.clock) hlog
  exact ⟨_, _, .intro hstart hrun hphase hlog hopen hnext hrow⟩

/-- What is in the row afterwards, and where the task went. -/
theorem Logged.eq (h : Logged ι sent row phase) :
    ∃ sub, row.seen = (conclude sub sent).1.seen ∧ phase = (conclude sub sent).2.phase := by
  cases h with
  | @intro c₀ c c' p now a ending old row hstart hrun hphase hlog hopen hnext hrow =>
    obtain ⟨sub, hsub⟩ := concluded_of_reach hstart hrun p now a sent ending hphase
    obtain ⟨t, w, hstep, rfl⟩ := Config.next_proc.mp hnext
    refine ⟨sub, ?_⟩
    rw [hsub]
    cases step_effect hstep with
    | recorded now' a' sent' ending' hphase' =>
      rw [hphase] at hphase'
      cases hphase'
      constructor
      · replace hrow : Deliver.record a c.shared.clock c.shared.log = some row := hrow
        rw [Deliver.record, hlog, Option.map_some, Option.some_inj, hopen,
          if_neg Bool.false_ne_true] at hrow
        rw [← hrow]
        rfl
      · show (Function.update c.loc p _ p).phase = _
        rw [Function.update_self, Task.goto_phase]

/-- A webhook that is rejected is recorded as blocked, and the task returns that. -/
theorem Logged.blocked {m : Text} (h : Logged ι (.error (.unsafeUrl m)) row phase) :
    row.seen = ⟨false, none, cutError (some ("blocked: ".toList ++ m))⟩ ∧
      phase = .finished .blocked := by
  obtain ⟨sub, hrow, hphase⟩ := h.eq
  exact ⟨hrow, hphase⟩

/-- Another exception is recorded with its category. -/
theorem Logged.raised {e : Raised} (hsafe : ¬ e.isInstance .unsafeUrl = true)
    (h : Logged ι (.error e.error) row phase) : row.seen = e.attempt.seen := by
  obtain ⟨sub, hrow, -⟩ := h.eq
  rw [hrow, conclude_raised sub hsafe]

end Run

/-- Nothing is posted to a webhook whose URL is rejected. -/
theorem postWebhook_of_rejects {s : Robots.Settings} {net : Internet} {url : Text}
    (h : Rejects s.hosts s.is url s.allowPlainHttp (net.getaddrinfo 0))
    (classOf : ClientError → DeliveryError) (post : Post) :
    postWebhook s net classOf (some url) post =
      .error (.unsafeUrl (rejection s.hosts url s.allowPlainHttp)) := by
  have hrequest := h.request_eq (o := webhookOptions s post) "POST".toList (some post.body)
  rw [postWebhook, Feeds.orEmpty, Option.getD_some, hrequest]
  rfl

end Deliver

/-! ### What owners see -/

namespace DnsPrivacy

open SafeHttp UrlFields Deliver

/-- What is seen of a URL under either resolver is the same: the validation
errors of its fields, the result of its fetch, and of a delivery to it, run
against run, what the log shows of it and what the task returns. -/
structure SameResults (ι κ : Type*) [DecidableEq ι] [DecidableEq κ] (s : Feeds.FetchSettings)
    (url : Text) (g g' : Resolver) : Prop where
  feedUrl : ∀ rows inst rows' inst', ∃ m code,
    validateUrl s.toSettings g rows inst url = .error (.invalid m code) ∧
      validateUrl s.toSettings g' rows' inst' url = .error (.invalid m code)
  webhookUrl : validateWebhookUrl s.toSettings g (some url) =
    validateWebhookUrl s.toSettings g' (some url)
  fetched : ∀ net net' etag etag' lastModified lastModified',
    net.getaddrinfo 0 = g → net'.getaddrinfo 0 = g' →
    ∃ result, Feeds.fetch s net url etag lastModified = .ok result ∧
      Feeds.fetch s net' url etag' lastModified' = .ok result
  delivered : ∀ net net' classOf classOf' post post' row row' phase phase',
    net.getaddrinfo 0 = g → net'.getaddrinfo 0 = g' →
    Logged ι (postWebhook s.toSettings net classOf (some url) post) row phase →
    Logged κ (postWebhook s.toSettings net' classOf' (some url) post') row' phase' →
    row.seen = row'.seen ∧ ∃ result, phase = .finished result ∧ phase' = .finished result

/-- The webhook field of a rejected URL, under either resolver. -/
theorem validateWebhookUrl_same {s : Robots.Settings} {url : Text} {g g' : Resolver}
    (h : Rejects s.hosts s.is url s.allowPlainHttp g)
    (h' : Rejects s.hosts s.is url s.allowPlainHttp g') :
    validateWebhookUrl s g (some url) = validateWebhookUrl s g' (some url) := by
  by_cases hurl : url = []
  · -- an empty URL is not looked up
    subst hurl
    rfl
  · rw [validateWebhookUrl_eq h hurl, validateWebhookUrl_eq h' hurl]

/-- **Internal DNS is not observable.**  Two resolvers under which a URL is
rejected give it one message, whatever `allow_http` is, and then owners see the
same of it.  Of two exceptions of one class, with one status code if it is a
`RetryableDeliveryError`, whatever their texts, the log shows the same too. -/
theorem dns_is_not_observable {ι κ : Type*} [DecidableEq ι] [DecidableEq κ] :
    (∀ t is url allowHttp (g g' : Resolver),
      Rejects t is url allowHttp g → Rejects t is url allowHttp g' →
      ∃ m, resolve t is g url allowHttp = .error (.unsafeUrl m) ∧
        resolve t is g' url allowHttp = .error (.unsafeUrl m)) ∧
    (∀ (s : Feeds.FetchSettings) url (g g' : Resolver),
      Rejects s.hosts s.is url s.allowPlainHttp g →
      Rejects s.hosts s.is url s.allowPlainHttp g' → SameResults ι κ s url g g') ∧
    (∀ (e e' : Raised) row row' phase phase', e.SameKind e' →
      e.isInstance .unsafeUrl = false →
      Logged ι (.error e.error) row phase → Logged κ (.error e'.error) row' phase' →
      row.seen = row'.seen) := by
  refine ⟨fun t is url allowHttp g g' h h' => ?_, fun s url g g' h h' => ?_, ?_⟩
  · exact ⟨_, h.resolve_eq, h'.resolve_eq⟩
  · refine ⟨fun rows inst rows' inst' => ?_, validateWebhookUrl_same h h', ?_, ?_⟩
    · exact ⟨_, _, validateUrl_eq h rows inst, validateUrl_eq h' rows' inst'⟩
    · rintro net net' etag etag' lastModified lastModified' rfl rfl
      exact ⟨_, Feeds.fetch_of_rejects h etag lastModified,
        Feeds.fetch_of_rejects h' etag' lastModified'⟩
    · rintro net net' classOf classOf' post post' row row' phase phase' rfl rfl hrun hrun'
      rw [postWebhook_of_rejects h] at hrun
      rw [postWebhook_of_rejects h'] at hrun'
      obtain ⟨hrow, hphase⟩ := hrun.blocked
      obtain ⟨hrow', hphase'⟩ := hrun'.blocked
      exact ⟨hrow.trans hrow'.symm, _, hphase, hphase'⟩
  · intro e e' row row' phase phase' hkind hsafe hrun hrun'
    have hsafe' : e'.isInstance .unsafeUrl = false := by
      rw [Raised.isInstance, ← hkind.cls]
      exact hsafe
    rw [hrun.raised (Bool.eq_false_iff.mp hsafe), hrun'.raised (Bool.eq_false_iff.mp hsafe'),
      Raised.attempt_eq hkind]

/-! ### A missing name and a private one -/

/-- 10.0.0.0/8 is not global. -/
def outsideTen : AddressPredicates where
  isGlobal
    | .v4 ip => !inNetwork 0x0a000000 8 ip
    | .v6 _ => true
  isMulticast := fun _ => false

def tenSettings : Feeds.FetchSettings := { Feeds.sampleSettings with is := outsideTen }

def dbUrl : Text := "https://db.example/".toList

/-- The name is not there. -/
def missing : Resolver := fun _ _ => .error .gaierror

/-- The name has a private address. -/
def internal : Resolver := fun _ _ => .ok ["10.0.0.5".toList]

theorem rejects_missing : Rejects asciiTables outsideTen dbUrl false missing := by
  refine ⟨fun _ _ _ h => (by cases h), fun target h => ?_⟩
  have hresolve : resolve asciiTables outsideTen missing dbUrl false =
      .error (.unsafeUrl notPublic) := by decide
  rw [hresolve] at h
  cases h

theorem rejects_internal : Rejects asciiTables outsideTen dbUrl false internal := by
  refine ⟨fun _ _ infos h => ?_, fun target h => ?_⟩
  · cases h
    intro sockaddr hmem
    rw [List.mem_singleton.mp hmem]
    exact ⟨.v4 0x0a000005, by decide⟩
  · have hresolve : resolve asciiTables outsideTen internal dbUrl false =
        .error (.unsafeUrl notPublic) := by decide
    rw [hresolve] at h
    cases h

/-- An `httpx.ConnectError` with this text. -/
def connectError (text : Text) : Raised where
  cls := ⟨"ConnectError".toList, [.httpError], by decide, by decide⟩
  text := text
  statusCode := 0
  codes := []
  answered := fun h => absurd h (by decide)

theorem connectError_sameKind (text text' : Text) :
    (connectError text).SameKind (connectError text') := ⟨rfl, fun _ => rfl⟩

/-- One task, and a receiver that answers it. -/
def oneTask : Tasks Unit := ⟨⟨0, none, none, []⟩, fun _ => ⟨.load, 0⟩⟩

def sendTo (answer : Except DeliveryError Int) : List (Move Unit Action ℕ) :=
  [.proc () (.load (some hook)), .proc () .capture, .proc () .claim,
    .proc () (.send (.webhook answer))]

theorem logged_connectError (text : Text) :
    ∃ row phase, Logged Unit (.error (connectError text).error) row phase := by
  have hrun : ∀ e, (exec next (sendTo (.error e)) oneTask).map
      (fun c => (c.shared.log, (c.loc ()).phase)) =
      some (some ⟨0, false, 0, none, none, some 120000000⟩,
        .record 0 (conclude hook (.error e)).1 (some (.error e)) (conclude hook (.error e)).2) :=
    fun _ => rfl
  obtain ⟨c, hreach, hend⟩ := Reach.exists_of_exec anyMove (hrun _) (along_anyMove _ _)
  have hphase := congrArg Prod.snd hend
  have hlog := congrArg Prod.fst hend
  exact Logged.of_reach (fun _ => rfl) hreach hphase hlog rfl

theorem dns_is_not_observable_sample :
    SameResults Unit Unit tenSettings dbUrl missing internal ∧
    (∃ m, resolve asciiTables outsideTen missing dbUrl false = .error (.unsafeUrl m) ∧
      resolve asciiTables outsideTen internal dbUrl false = .error (.unsafeUrl m)) ∧
    ∃ row row' phase phase',
      Logged Unit (.error (connectError "10.0.0.5 refused".toList).error) row phase ∧
      Logged Unit (.error (connectError "10.0.0.6 is down".toList).error) row' phase' ∧
      row.seen = row'.seen := by
  obtain ⟨hresolve, hresults, hraised⟩ := @dns_is_not_observable Unit Unit _ _
  refine ⟨hresults tenSettings dbUrl missing internal rejects_missing rejects_internal,
    hresolve asciiTables outsideTen dbUrl false _ _ rejects_missing rejects_internal, ?_⟩
  obtain ⟨row, phase, hrow⟩ := logged_connectError "10.0.0.5 refused".toList
  obtain ⟨row', phase', hrow'⟩ := logged_connectError "10.0.0.6 is down".toList
  exact ⟨row, row', phase, phase', hrow, hrow',
    hraised _ _ row row' phase phase' (connectError_sameKind _ _) rfl hrow hrow'⟩

end DnsPrivacy
