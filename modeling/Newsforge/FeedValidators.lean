/-
Validators and the URL they are sent to, over whole histories.

`fetch_feed` keeps a stored validator that a 200 does not renew, also when the feed
moves to another URL with that 200.

* `Sends` — a header of a request that `fetch_feed` makes;
* `Exchange.At` — a request that started or ended at a URL;
* `BringsValidators` — a response with which the feed moves brings what is stored;
* `Belong` — the invariant: what is stored was received at the stored URL.

Main results: `validators_belong_to_their_url` and
`old_validator_is_sent_to_the_new_url`.
-/
import Newsforge.FeedHistory

open PyText UrlParse SafeHttp Tables Runs

namespace Feeds

variable {s : FetchSettings} {w : World} {row row₀ feed : Feed} {checked others : List Feed}
  {result : FetchResult} {h h' : History}

/-! ### What is sent -/

/-- A run of `fetch_feed` with the row sends a header with this value, on any hop. -/
def Sends (s : FetchSettings) (w : World) (row : Feed) (name value : Text) : Prop :=
  row.isLive = true ∧ Permitted s w row ∧
    ∃ hop ∈ (request s.hosts s.is w.net (fetchOptions s row.etag row.lastModified) "GET".toList
      row.url none).1, value ∈ headerValues name hop.request.headers

/-- Every hop sends the headers of the options, and its own `Host` and
`Accept-Encoding`. -/
theorem headerValues_of_mem_hops {t : HostTables} {is : AddressPredicates} {net : Internet}
    {o : Options} {name : Text} (hhost : sameName name "Host".toList = false)
    (haccept : sameName name "Accept-Encoding".toList = false) (deadline : Seconds)
    (left k : ℕ) (loop : Loop) {hop : Hop}
    (hhop : hop ∈ (hops t is net o deadline left k loop).1) :
    headerValues name hop.request.headers = headerValues name o.headers.entries := by
  induction left generalizing k loop with
  | zero => cases hhop
  | succ left ih =>
    have hrun := hops_run t is net o deadline left k loop
    generalize hops t is net o deadline (left + 1) k loop = run at hhop hrun
    -- what this hop sends
    have hsent : ∀ {target : Target}, hop = sentHop net o deadline k loop target →
        headerValues name hop.request.headers = headerValues name o.headers.entries := by
      rintro target rfl
      exact (headerValues_setItem_of_ne haccept).trans (headerValues_setItem_of_ne hhost)
    cases hrun with
    | unresolved _ => cases hhop
    | late _ _ => cases hhop
    | lost _ _ _ => exact hsent (List.mem_singleton.mp hhop)
    | last _ _ _ _ => exact hsent (List.mem_singleton.mp hhop)
    | unjoined _ _ _ _ _ => exact hsent (List.mem_singleton.mp hhop)
    | followed _ _ _ _ _ =>
      rcases List.mem_cons.mp hhop with hthis | hrest
      · exact hsent hthis
      · exact ih _ _ hrest

theorem headerValues_validatorHeader_self {name : Text} {value : Option Text} {v : Text}
    (hv : v ∈ headerValues name (validatorHeader name value)) : value = some v ∧ v ≠ [] := by
  cases value with
  | none => cases hv
  | some x =>
    rw [validatorHeader] at hv
    split at hv
    · cases hv
    · rename_i hne
      have hself : sameName name name = true := by simp [sameName]
      have hvx : v = x := by simpa [headerValues, hself] using hv
      exact ⟨hvx ▸ rfl, hvx ▸ (by simpa using hne)⟩

theorem headerValues_validatorHeader_of_ne {name key : Text} (hne : sameName name key = false)
    (value : Option Text) : headerValues name (validatorHeader key value) = [] := by
  cases value with
  | none => rfl
  | some x =>
    rw [validatorHeader]
    split
    · rfl
    · rw [headerValues, List.filter_cons_of_neg (by simp [hne])]
      rfl

theorem headerValues_append (name : Text) (a b : List (Text × Text)) :
    headerValues name (a ++ b) = headerValues name a ++ headerValues name b := by
  rw [headerValues, List.filter_append, List.map_append]
  rfl

/-- The headers of `fetch` among which a validator is looked for. -/
theorem headerValues_fetchHeaders {name : Text} (etag lastModified : Option Text)
    (hagent : sameName name "User-Agent".toList = false)
    (haccept : sameName name "Accept".toList = false) :
    headerValues name (fetchHeaders s etag lastModified).entries =
      headerValues name (validatorHeader "If-None-Match".toList etag) ++
        headerValues name (validatorHeader "If-Modified-Since".toList lastModified) := by
  have hfixed : headerValues name
      [("User-Agent".toList, s.userAgent), ("Accept".toList, accept)] = [] := by
    rw [headerValues, List.filter_cons_of_neg (by rw [hagent]; exact Bool.false_ne_true),
      List.filter_cons_of_neg (by rw [haccept]; exact Bool.false_ne_true)]
    rfl
  rw [fetchHeaders, headerValues_append, headerValues_append, hfixed, List.nil_append]

/-- Only a stored validator is sent. -/
theorem Sends.etag {v : Text} (hsends : Sends s w row "If-None-Match".toList v) :
    row.etag = some v ∧ v ≠ [] := by
  obtain ⟨-, -, hop, hhop, hv⟩ := hsends
  have hother : headerValues "If-None-Match".toList
      (validatorHeader "If-Modified-Since".toList row.lastModified) = [] :=
    headerValues_validatorHeader_of_ne (by decide) _
  rw [headerValues_of_mem_hops (by decide) (by decide) _ _ _ _ hhop, fetchOptions,
    headerValues_fetchHeaders _ _ (by decide) (by decide), hother, List.append_nil] at hv
  exact headerValues_validatorHeader_self hv

theorem Sends.lastModified {v : Text} (hsends : Sends s w row "If-Modified-Since".toList v) :
    row.lastModified = some v ∧ v ≠ [] := by
  obtain ⟨-, -, hop, hhop, hv⟩ := hsends
  have hother : headerValues "If-Modified-Since".toList
      (validatorHeader "If-None-Match".toList row.etag) = [] :=
    headerValues_validatorHeader_of_ne (by decide) _
  rw [headerValues_of_mem_hops (by decide) (by decide) _ _ _ _ hhop, fetchOptions,
    headerValues_fetchHeaders _ _ (by decide) (by decide), hother, List.nil_append] at hv
  exact headerValues_validatorHeader_self hv

/-! ### What is received -/

/-- A request that started or ended at the URL; where it ended is read in the spelling
in which a feed stores it. -/
def Exchange.At (t : HostTables) (url : Text) (x : Exchange) : Prop :=
  x.started = url ∨ canonicalUrl t x.ended = .ok url

theorem finish_permanentUrl {net : Internet} {o : Options} {deadline : Seconds} {k : ℕ}
    {loop : Loop} {reply : Reply} {resp : Response} {p : Text}
    (h : finish net o deadline k loop reply = .ok resp) (hp : resp.permanentUrl = some p) :
    p = resp.url := by
  rw [finish] at h
  split at h
  · cases h
  · cases h
    dsimp only at hp ⊢
    split at hp
    · exact (Option.some_inj.mp hp).symm
    · cases hp

/-- The permanent URL is where the request ended. -/
theorem request_permanentUrl {t : HostTables} {is : AddressPredicates} {net : Internet}
    {o : Options} {method url : Text} {content : Option Bytes} {resp : Response} {p : Text}
    (h : (request t is net o method url content).2 = .ok resp)
    (hp : resp.permanentUrl = some p) : p = resp.url := by
  obtain ⟨hop, loop, target, reply, -, hfinish⟩ := hops_last _ _ _ h
  exact finish_permanentUrl hfinish hp

/-- The response to the conditional request for the row. -/
def Answered (s : FetchSettings) (w : World) (row : Feed) (resp : Response) : Prop :=
  (request s.hosts s.is w.net (fetchOptions s row.etag row.lastModified) "GET".toList row.url
    none).2 = .ok resp

theorem exchange_of_answered (hperm : Permitted s w row) {resp : Response}
    (hresp : Answered s w row resp) :
    exchange s w row = some ⟨row.url, resp.url, headerGet "etag".toList resp.headers,
      headerGet "last-modified".toList resp.headers⟩ := by
  obtain ⟨policy, hallowed⟩ := hperm.allowed
  rw [exchange, hallowed]
  dsimp only
  rw [hperm.acquired]
  dsimp only
  rw [show (request s.hosts s.is w.net (fetchOptions s row.etag row.lastModified) "GET".toList
    row.url none).2 = .ok resp from hresp]

/-- A 304 has no validators of its own. -/
theorem fetch_notModified
    (hfetch : fetch s w.net row.url row.etag row.lastModified = .ok result)
    (h304 : result.status = .notModified) :
    ∃ resp, Answered s w row resp ∧ resp.statusCode = 304 ∧
      result = resultOf row.etag row.lastModified resp := by
  rcases fetch_cases hfetch with ⟨resp, hresp, rfl⟩ | ⟨status, hfailure, rfl⟩
  · refine ⟨resp, hresp, ?_, rfl⟩
    rw [resultOf] at h304
    split at h304
    · assumption
    · split at h304
      · cases h304
      · cases h304
  · rw [show status = .notModified from h304] at hfailure
    cases hfailure

/-! ### Where the feed moves -/

/-- The feed follows a permanent redirect to the URL. -/
def MovesTo (s : FetchSettings) (others : List Feed) (row : Feed) (resp : Response)
    (url : Text) : Prop :=
  followPermanentRedirect s.hosts (tableWith row others) row
    (resultOf row.etag row.lastModified resp) = some url

theorem MovesTo.canonicalUrl_eq {resp : Response} {url : Text} (hresp : Answered s w row resp)
    (h : MovesTo s others row resp url) : canonicalUrl s.hosts resp.url = .ok url := by
  rw [MovesTo, followPermanentRedirect] at h
  split at h
  · cases h
  · rename_i p hp
    split at h
    · cases h
    · rename_i newUrl hcanonical
      split at h
      · cases h
      · cases h
        have hpermanent : resp.permanentUrl = some p := by
          rw [resultOf] at hp
          split at hp
          · exact hp
          · split at hp
            · cases hp
            · exact hp
        rw [← request_permanentUrl hresp hpermanent]
        exact hcanonical

/-- A save moves the row as its ending says, or leaves the URL alone. -/
theorem url_of_write {copy : Feed} {fields : List Column} {moved : Option Text}
    (hcopy : copy.url = moved.getD row.url) (hfields : .url ∈ fields → moved.isSome = true) :
    (copy.write fields row).url = row.url ∨ moved = some (copy.write fields row).url := by
  by_cases hurl : .url ∈ fields
  · obtain ⟨url, hmoved⟩ := Option.isSome_iff_exists.mp (hfields hurl)
    refine .inr ?_
    rw [Feed.write, if_pos hurl, hcopy, hmoved]
    rfl
  · refine .inl ?_
    rw [Feed.write, if_neg hurl]

/-! ### The invariant -/

/-- A stored validator, if it is not empty, was received with a request at the URL. -/
def Received (t : HostTables) (exchanges : List Exchange) (url : Text)
    (header : Exchange → Option Text) (stored : Option Text) : Prop :=
  truthy stored = true → ∃ x ∈ exchanges, x.At t url ∧ header x = stored

/-- A response brings what is stored: a validator, and with a 304 the same one. -/
def Brings (statusCode : ℕ) (received stored : Option Text) : Prop :=
  truthy stored = true → truthy received = true ∧ (statusCode = 304 → received = stored)

section Received

variable {t : HostTables} {exchanges exchanges' : List Exchange} {url url' : Text}
  {header : Exchange → Option Text} {stored : Option Text} {x : Exchange}

theorem Received.none : Received t exchanges url header none := fun h => absurd h (by decide)

theorem Received.mono (h : Received t exchanges url header stored) (hsub : exchanges ⊆ exchanges') :
    Received t exchanges' url header stored := by
  intro hstored
  obtain ⟨x, hx, hat, hheader⟩ := h hstored
  exact ⟨x, hsub hx, hat, hheader⟩

/-- A response keeps what is stored, or renews it: the feed stays, or the response
brings what is stored. -/
theorem Received.answered {statusCode : ℕ} {stored' : Option Text}
    (h : Received t exchanges url header stored) (hat : x.At t url')
    (hmoved : url' = url ∨ Brings statusCode (header x) stored)
    (hstored : statusCode = 304 ∧ stored' = stored ∨ stored' = orText (header x) stored) :
    Received t (x :: exchanges) url' header stored' := by
  by_cases hrenewed : truthy (header x) = true ∧ stored' = header x
  · obtain ⟨-, rfl⟩ := hrenewed
    exact fun _ => ⟨x, List.mem_cons_self, hat, rfl⟩
  · -- nothing new is stored
    have hsame : stored' = stored := by
      rcases hstored with ⟨-, hsame⟩ | hor
      · exact hsame
      · by_cases hbrings : truthy (header x) = true
        · rw [orText, if_pos hbrings] at hor
          exact absurd ⟨hbrings, hor⟩ hrenewed
        · rw [orText, if_neg hbrings] at hor
          exact hor
    subst hsame
    rcases hmoved with rfl | hbrings
    · exact h.mono (List.subset_cons_self _ _)
    · intro htruthy
      obtain ⟨hreceived, h304⟩ := hbrings htruthy
      refine ⟨x, List.mem_cons_self, hat, ?_⟩
      rcases hstored with ⟨hstatus, -⟩ | hor
      · exact h304 hstatus
      · rw [orText, if_pos hreceived] at hor
        exact hor.symm

end Received

/-- The invariant: the stored validators belong to the stored URL. -/
structure Belong (s : FetchSettings) (h : History) : Prop where
  etag : Received s.hosts h.exchanges h.row.url Exchange.etag h.row.etag
  lastModified :
    Received s.hosts h.exchanges h.row.url Exchange.lastModified h.row.lastModified

/-- A response with which the feed moves brings each validator that is stored. -/
def BringsValidators (s : FetchSettings) (h : History) : Op → Prop
  | .fetch w others =>
    Permitted s w h.row → ∀ resp url, Answered s w h.row resp → MovesTo s others h.row resp url →
      Brings resp.statusCode (headerGet "etag".toList resp.headers) h.row.etag ∧
        Brings resp.statusCode (headerGet "last-modified".toList resp.headers) h.row.lastModified
  | .tick _ | .refresh _ | .update _ _ | .delete | .restore _ _ => True

/-! ### What keeps the invariant -/

theorem Belong.of_eq {row' : Feed} {exchanges : List Exchange} {events : List CrawlEvent}
    (hb : Belong s h) (hurl : row'.url = h.row.url) (hetag : row'.etag = h.row.etag)
    (hlast : row'.lastModified = h.row.lastModified) (hsub : h.exchanges ⊆ exchanges) :
    Belong s ⟨row', exchanges, events⟩ := by
  refine ⟨?_, ?_⟩
  · show Received s.hosts exchanges row'.url Exchange.etag row'.etag
    rw [hurl, hetag]
    exact hb.etag.mono hsub
  · show Received s.hosts exchanges row'.url Exchange.lastModified row'.lastModified
    rw [hurl, hlast]
    exact hb.lastModified.mono hsub

theorem Belong.of_none {row' : Feed} {exchanges : List Exchange} {events : List CrawlEvent}
    (hetag : row'.etag = none) (hlast : row'.lastModified = none) :
    Belong s ⟨row', exchanges, events⟩ := by
  refine ⟨?_, ?_⟩
  · show Received s.hosts exchanges row'.url Exchange.etag row'.etag
    rw [hetag]
    exact Received.none
  · show Received s.hosts exchanges row'.url Exchange.lastModified row'.lastModified
    rw [hlast]
    exact Received.none

/-- **A response** leaves the validators where they belong, whether the feed moves
with it or stays. -/
theorem Belong.answered {row' : Feed} {resp : Response} {events : List CrawlEvent}
    (hb : Belong s h) (hcond : BringsValidators s h (.fetch w others))
    (hperm : Permitted s w h.row) (hresp : Answered s w h.row resp)
    (hurl : row'.url = h.row.url ∨ MovesTo s others h.row resp row'.url)
    (hetag : resp.statusCode = 304 ∧ row'.etag = h.row.etag ∨
      row'.etag = orText (headerGet "etag".toList resp.headers) h.row.etag)
    (hlast : resp.statusCode = 304 ∧ row'.lastModified = h.row.lastModified ∨
      row'.lastModified =
        orText (headerGet "last-modified".toList resp.headers) h.row.lastModified) :
    Belong s ⟨row', (exchange s w h.row).toList ++ h.exchanges, events⟩ := by
  rw [exchange_of_answered hperm hresp]
  rcases hurl with hstay | hmoves
  · refine ⟨hb.etag.answered ?_ (.inl hstay) hetag, hb.lastModified.answered ?_ (.inl hstay) hlast⟩
    · exact .inl hstay.symm
    · exact .inl hstay.symm
  · obtain ⟨hbringsEtag, hbringsLast⟩ := hcond hperm resp _ hresp hmoves
    have hcanonical := hmoves.canonicalUrl_eq hresp
    refine ⟨hb.etag.answered ?_ (.inr hbringsEtag) hetag,
      hb.lastModified.answered ?_ (.inr hbringsLast) hlast⟩
    · exact .inr hcanonical
    · exact .inr hcanonical

/-- **A save of an ending** keeps the validators where they belong. -/
theorem Belong.save {ending : Ending} {fields : List Column} {events : List CrawlEvent}
    (hb : Belong s h) (hcond : BringsValidators s h (.fetch w others))
    (hends : Ends s w (tableWith h.row others) h.row ending) (hsaves : Saves ending fields) :
    Belong s ⟨ending.copy.write fields h.row,
      (exchange s w h.row).toList ++ h.exchanges, events⟩ := by
  -- an ending that names no validator and no URL
  have huntouched : .url ∉ ending.fields → .etag ∉ ending.fields →
      .lastModified ∉ ending.fields →
      Belong s ⟨ending.copy.write fields h.row,
        (exchange s w h.row).toList ++ h.exchanges, events⟩ := by
    intro hurl hetag hlast
    exact hb.of_eq (if_neg (mt hsaves.url hurl)) (if_neg (hsaves.notMem (by decide) hetag))
      (if_neg (hsaves.notMem (by decide) hlast)) (List.subset_append_right _ _)
  cases hends with
  | robotsBlocked =>
    exact huntouched (by simp [Feeds.robotsBlocked]) (by simp [Feeds.robotsBlocked])
      (by simp [Feeds.robotsBlocked])
  | rateLimited =>
    exact huntouched (by simp [Feeds.rateLimited]) (by simp [Feeds.rateLimited])
      (by simp [Feeds.rateLimited])
  | failed status _ =>
    exact huntouched (by simp [recordFailure]) (by simp [recordFailure])
      (by simp [recordFailure])
  | notModified result hperm hfetch h304 =>
    -- the columns of the validators are not written
    obtain ⟨resp, hresp, hstatus, rfl⟩ := fetch_notModified hfetch h304
    refine hb.answered hcond hperm hresp ?_ (.inl ⟨hstatus, ?_⟩) (.inl ⟨hstatus, ?_⟩)
    · exact url_of_write rfl (hsaves.moved rfl (by simp))
    · exact if_neg (hsaves.notMem (by decide) (by simp [Feeds.notModified, notMem_movedFields]))
    · exact if_neg (hsaves.notMem (by decide) (by simp [Feeds.notModified, notMem_movedFields]))
  | fetched result parsed title hperm hfetch hok =>
    obtain ⟨resp, hresp, hof, hresult⟩ := fetch_downloaded hfetch hok
    refine hb.answered hcond hperm hresp ?_ (.inr ?_) (.inr ?_)
    · rw [hof] at hsaves ⊢
      exact url_of_write rfl (hsaves.moved rfl (by simp))
    · rw [hresult] at hsaves ⊢
      exact if_pos (hsaves.mem (by decide) (by simp [Feeds.fetched]))
    · rw [hresult] at hsaves ⊢
      exact if_pos (hsaves.mem (by decide) (by simp [Feeds.fetched]))

theorem Feed.setAttrs_url {attrs : FeedAttrs} (hstays : attrs.changesUrl row = false) :
    (row.setAttrs attrs).url = row.url := by
  rw [FeedAttrs.changesUrl] at hstays
  rw [Feed.setAttrs]
  cases hurl : attrs.url with
  | none => rfl
  | some url =>
    rw [hurl] at hstays
    simpa using hstays

/-- **The step lemma**: every operation keeps the validators where they belong, if a
response with which the feed moves brings them. -/
theorem Belong.advance (hb : Belong s h) {op : Op} (hcond : BringsValidators s h op)
    (hnext : advance s op h = some h') : Belong s h' := by
  cases op with
  | fetch w others =>
    cases hnext
    rcases fetchRow_cases s w others h.row with hr | ⟨ending, fields, hlive, hends, hsaves, hr⟩
    · rw [hr]
      exact hb.of_eq rfl rfl rfl (List.subset_append_right _ _)
    · rw [hr, if_pos hlive]
      exact hb.save hcond hends hsaves
  | tick now =>
    cases hnext
    show Belong s ⟨Feeds.tick now h.row, h.exchanges, h.events⟩
    rw [Feeds.tick]
    split
    · exact hb.of_eq rfl rfl rfl (List.Subset.refl _)
    · exact hb
  | refresh now =>
    rw [Feeds.advance] at hnext
    split at hnext
    · cases hnext
    · cases hnext
      exact hb.of_eq rfl rfl rfl (List.Subset.refl _)
  | update attrs now =>
    rw [Feeds.advance] at hnext
    split at hnext
    · cases hnext
    · cases hnext
      rw [updated]
      cases hchanges : attrs.changesUrl h.row with
      | true => exact .of_none rfl rfl
      | false => exact hb.of_eq (Feed.setAttrs_url hchanges) rfl rfl (List.Subset.refl _)
  | delete =>
    rw [Feeds.advance] at hnext
    split at hnext
    · cases hnext
    · cases hnext
      exact hb.of_eq rfl rfl rfl (List.Subset.refl _)
  | restore attrs now =>
    rw [Feeds.advance] at hnext
    split at hnext
    · cases hnext
      exact .of_none rfl rfl
    · cases hnext

theorem truthy_some {v : Text} (hv : v ≠ []) : truthy (some v) = true := by
  rw [truthy, List.isEmpty_eq_false_iff.mpr hv]
  rfl

/-- **Validators belong to the URL they are sent to.**  In every history of a feed that
starts without validators, and in which each response with which the feed moves
brings what is stored: a validator that `fetch_feed` sends was received with an
earlier request that started or ended at the URL of the feed. -/
theorem validators_belong_to_their_url (hetag : row₀.etag = none)
    (hlast : row₀.lastModified = none)
    (hreach : Reach (advance s) (BringsValidators s) ⟨row₀, [], []⟩ h) :
    ∀ w v,
      (Sends s w h.row "If-None-Match".toList v →
        ∃ x ∈ h.exchanges, x.At s.hosts h.row.url ∧ x.etag = some v) ∧
      (Sends s w h.row "If-Modified-Since".toList v →
        ∃ x ∈ h.exchanges, x.At s.hosts h.row.url ∧ x.lastModified = some v) := by
  have hb : Belong s h :=
    hreach.invariant (.of_none hetag hlast) fun _ _ _ hb hcond hnext => hb.advance hcond hnext
  intro w v
  constructor
  · intro hsends
    obtain ⟨hstored, hv⟩ := hsends.etag
    have hreceived := hb.etag
    rw [hstored] at hreceived
    exact hreceived (truthy_some hv)
  · intro hsends
    obtain ⟨hstored, hv⟩ := hsends.lastModified
    have hreceived := hb.lastModified
    rw [hstored] at hreceived
    exact hreceived (truthy_some hv)

/-! ### A move without the validator -/

instance (t : HostTables) (url : Text) (x : Exchange) : Decidable (x.At t url) :=
  inferInstanceAs (Decidable (_ ∨ _))

/-- The server answers with these headers. -/
def directWorld (headers : List (Text × Text)) : World :=
  worldWith (answering fun _ => ⟨200, headers⟩) ⟨false, [], none, none⟩ 7

/-- The feed is behind a permanent redirect, and answers there with these headers. -/
def redirectWorld (headers : List (Text × Text)) : World :=
  worldWith (answering fun hop =>
    if hop = 0 then ⟨301, [("Location".toList, "/new".toList)]⟩ else ⟨200, headers⟩)
    ⟨false, [], none, none⟩ 8

def tag : List (Text × Text) := [("ETag".toList, "v1".toList)]

/-- The feed is downloaded where it moved to, and asked for there. -/
theorem validators_belong_to_their_url_moved :
    ∃ h, Reach (advance sampleSettings) (BringsValidators sampleSettings) ⟨sampleFeed, [], []⟩ h ∧
      h.row.url = "https://a.example/new".toList ∧
      Sends sampleSettings (directWorld []) h.row "If-None-Match".toList "v1".toList ∧
      ∃ x ∈ h.exchanges, x.At sampleSettings.hosts h.row.url ∧ x.etag = some "v1".toList := by
  have hrun : ((exec (advance sampleSettings) [.fetch (redirectWorld tag) []]
      ⟨sampleFeed, [], []⟩).map fun h => h.row) = some { sampleFeed with
        url := "https://a.example/new".toList
        etag := some "v1".toList
        lastStatus := some .ok
        lastFetchedAt := some 8 } := by
    decide
  -- nothing is stored that the move could lose
  have hok : Along (advance sampleSettings) (BringsValidators sampleSettings)
      [.fetch (redirectWorld tag) []] ⟨sampleFeed, [], []⟩ :=
    ⟨fun _ resp url _ _ => ⟨fun h => absurd h (by decide), fun h => absurd h (by decide)⟩,
      fun _ _ => trivial⟩
  obtain ⟨h, hreach, hrow⟩ := Reach.exists_of_exec _ hrun hok
  have hsends : Sends sampleSettings (directWorld []) h.row "If-None-Match".toList
      "v1".toList := by
    rw [hrow]
    exact ⟨rfl, ⟨⟨none, rfl⟩, by decide⟩, by decide⟩
  exact ⟨h, hreach, by rw [hrow], hsends,
    (validators_belong_to_their_url rfl rfl hreach (directWorld []) _).1 hsends⟩

/-- **An old validator is sent to the new URL.**  A download that moves the feed has
no validator, so the one of the old URL is kept, and sent where nobody has
issued it. -/
theorem old_validator_is_sent_to_the_new_url :
    ∃ h w v, Reach (advance sampleSettings) anyMove ⟨sampleFeed, [], []⟩ h ∧
      Sends sampleSettings w h.row "If-None-Match".toList v ∧
      ¬ ∃ x ∈ h.exchanges, x.At sampleSettings.hosts h.row.url ∧ x.etag = some v := by
  have hrun : ((exec (advance sampleSettings)
      [.fetch (directWorld tag) [], .fetch (redirectWorld []) []] ⟨sampleFeed, [], []⟩).map
        fun h => (h.row, h.exchanges)) =
      some ({ sampleFeed with
        url := "https://a.example/new".toList
        etag := some "v1".toList
        lastStatus := some .ok
        lastFetchedAt := some 8 },
        [⟨"https://a.example/feed".toList, "https://a.example/new".toList, none, none⟩,
          ⟨"https://a.example/feed".toList, "https://a.example/feed".toList,
            some "v1".toList, none⟩]) := by
    decide
  obtain ⟨h, hreach, hend⟩ := Reach.exists_of_exec anyMove hrun (along_anyMove _ _)
  obtain ⟨hrow, hexchanges⟩ := Prod.mk.inj hend
  refine ⟨h, directWorld [], "v1".toList, hreach, ?_, ?_⟩
  · rw [hrow]
    exact ⟨rfl, ⟨⟨none, rfl⟩, by decide⟩, by decide⟩
  · rw [hrow, hexchanges]
    decide

end Feeds
