/-
Paging through the delivery log (`SubscriptionViewSet.deliveries`).

A client walks through the pages, from one `next` link to the other, while `deliver` tasks
of any pairs write the log, and owners delete subscriptions.  Every page is a request of
its own, and a request has three queries without a transaction: the subscription, the
count and the rows of the page.

* `Entry`, `claimAt`, `recordAt` — the log of all pairs, with the writes of a delivery;
* `Walk`, `step` — a client, and one query of its next page;
* `Grown`, `outside_grown` — the listing of a subscription only gets more entries;
* `Late` — rows came in between the count and the rows of the last page.

Main result: `no_delivery_is_skipped`.  The listing is ordered by id and not by
`delivered_at`, which a retry writes: an entry never moves to a page that was shown.
-/
import Newsforge.Deliver
import Newsforge.LimitOffset

open PyText Tables Runs Paging

namespace DeliveryApi

open LimitOffset
open Deliver (LogRow Attempt)

/-! ### The log -/

/-- A row of `subscriptions_deliverylog`. -/
structure Entry where
  id : ℕ
  subscription : ℕ
  article : ℕ
  log : LogRow
  deriving DecidableEq, Repr

/-- The row of a pair. -/
def isPair (subscription article : ℕ) (e : Entry) : Bool :=
  e.subscription == subscription && e.article == article

def Entry.write (log : LogRow) (e : Entry) : Entry := { e with log := log }

/-- `_claim`: `id` is the one a row gets that is created. -/
def claimAt (id subscription article : ℕ) (now clock : Time) (entries : List Entry) :
    List Entry :=
  match entries.find? (isPair subscription article) with
  | some e =>
    match (Deliver.claim now clock (some e.log)).2 with
    | some log => updateWhere (fun x => x.id == e.id) (Entry.write log) entries
    | none => entries
  | none =>
    match (Deliver.claim now clock none).2 with
    | some log => entries ++ [⟨id, subscription, article, log⟩]
    | none => entries

/-- `_record`. -/
def recordAt (subscription article : ℕ) (a : Attempt) (clock : Time) (entries : List Entry) :
    List Entry :=
  updateWhere (isPair subscription article)
    (fun e => e.write ((Deliver.record a clock (some e.log)).getD e.log)) entries

/-- The log, and the subscriptions with their owners. -/
structure World where
  entries : List Entry
  subscriptions : List (ℕ × ℕ)
  deriving DecidableEq, Repr

/-- What happens between two queries.  An id comes from a sequence, but a row with a
smaller one may be committed later. -/
inductive Write
  | claim (id subscription article : ℕ) (now clock : Time)
  | record (subscription article : ℕ) (a : Attempt) (clock : Time)
  /-- the log goes with its subscription -/
  | delete (subscription : ℕ)
  deriving DecidableEq

/-- One write. -/
def outside (e : Write) (w : World) : Option World :=
  match e with
  | .claim id subscription article now clock =>
    if id ∉ w.entries.map Entry.id ∧ subscription ∈ w.subscriptions.map Prod.fst then
      some { w with entries := claimAt id subscription article now clock w.entries }
    else none
  | .record subscription article a clock =>
    some { w with entries := recordAt subscription article a clock w.entries }
  | .delete subscription =>
    some ⟨w.entries.filter fun e => !(e.subscription == subscription),
      w.subscriptions.filter fun s => !(s.1 == subscription)⟩

/-! ### A client -/

/-- `DeliveryLog.objects.filter(subscription=sub).order_by("-id")`. -/
def listing (subscription : ℕ) (entries : List Entry) : List Entry :=
  orderBy Entry.id (entries.filter fun e => e.subscription == subscription)

/-- The fields of `DeliveryLogSerializer`. -/
structure Shown where
  articleId : ℕ
  deliveredAt : Time
  succeeded : Bool
  attempts : ℕ
  httpStatus : Option Int
  error : Option Text
  deriving DecidableEq, Repr

def serialize (e : Entry) : Shown :=
  ⟨e.article, e.log.deliveredAt, e.log.succeeded, e.log.attempts, e.log.httpStatus, e.log.error⟩

/-- `get_object` in `get_queryset`: the subscription is one of the user's. -/
def isOwn (user subscription : ℕ) (w : World) : Bool :=
  w.subscriptions.any fun s => s.1 == subscription && s.2 == user

/-- The rows `paginate_queryset` reads once it has counted. -/
def readPage (limit : Option Int) (offset count : ℕ) (rows : List Entry) : List Shown :=
  if count = 0 ∨ count < offset then [] else page (getLimit limit) offset (rows.map serialize)

/-- Where a client stands. -/
inductive Status
  /-- at its next request -/
  | more
  /-- `get_object` has found the subscription -/
  | found
  | counted (count : ℕ)
  /-- there was no `next` link -/
  | done
  /-- `{"offset": ["at most 10000"]}` -/
  | refused
  /-- the subscription was not found -/
  | gone
  deriving DecidableEq, Repr

/-- A client, what it asks for, and what it was shown. -/
structure Walk where
  user : ℕ
  subscription : ℕ
  limit : Option Int
  offset : ℕ
  shown : List Shown
  status : Status
  deriving DecidableEq, Repr

/-- One query of `deliveries`. -/
def step (_ : Unit) (t : Walk) (w : World) : Option (Walk × World) :=
  match t.status with
  | .more =>
    some ({ t with status := if isOwn t.user t.subscription w then .found else .gone }, w)
  | .found =>
    -- the offset is looked at behind the count
    match getOffset t.offset with
    | none => some ({ t with status := .refused }, w)
    | some _ => some ({ t with status := .counted (listing t.subscription w.entries).length }, w)
  | .counted count =>
    let results := readPage t.limit t.offset count (listing t.subscription w.entries)
    let next := t.offset + getLimit t.limit
    if next < count then
      some ({ t with offset := next, shown := t.shown ++ results, status := .more }, w)
    else some ({ t with shown := t.shown ++ results, status := .done }, w)
  | _ => none

abbrev Walks (ι : Type*) := Config ι World Walk

/-- Clients next to the writes. -/
def next {ι : Type*} [DecidableEq ι] : Move ι Unit Write → Walks ι → Option (Walks ι) :=
  Config.next step outside

/-! ### What the writes leave -/

/-- What identifies an entry. -/
def ident (e : Entry) : ℕ × ℕ := (e.id, e.article)

/-- Every entry of the subscription that was listed is listed in the same place among the
others. -/
def Grown (subscription : ℕ) (entries entries' : List Entry) : Prop :=
  ((listing subscription entries).map ident).Sublist ((listing subscription entries').map ident)

/-- The moves that leave the subscription. -/
def Keeps {ι : Type*} (subscription : ℕ) (_ : Walks ι) : Move ι Unit Write → Prop
  | .env (.delete other) => other ≠ subscription
  | _ => True

/-- What a query does. -/
inductive Asked (t : Walk) (w : World) : Walk → Prop
  | gone (hno : isOwn t.user t.subscription w = false) :
      Asked t w { t with status := .gone }
  | found (hown : isOwn t.user t.subscription w = true) :
      Asked t w { t with status := .found }
  | refused (hdeep : maxOffset < t.offset) : Asked t w { t with status := .refused }
  | counted (hle : t.offset ≤ maxOffset) :
      Asked t w { t with status := .counted (listing t.subscription w.entries).length }
  | page (count : ℕ) (hcount : t.status = .counted count)
      (hmore : t.offset + getLimit t.limit < count) :
      Asked t w { t with
        offset := t.offset + getLimit t.limit
        shown := t.shown ++ readPage t.limit t.offset count (listing t.subscription w.entries)
        status := .more }
  | last (count : ℕ) (hcount : t.status = .counted count)
      (hend : count ≤ t.offset + getLimit t.limit) :
      Asked t w { t with
        shown := t.shown ++ readPage t.limit t.offset count (listing t.subscription w.entries)
        status := .done }

/-- A query writes nothing, and asks for the same subscription. -/
theorem Asked.subscription {t t' : Walk} {w : World} (h : Asked t w t') :
    t'.subscription = t.subscription := by
  cases h <;> rfl

/-! ### Walking -/

/-- The entry stands where the client has not been yet. -/
def Pending (e : Entry) (t : Walk) (w : World) : Prop :=
  ident e ∈ ((listing t.subscription w.entries).map ident).drop t.offset

/-- The entry was shown, or is pending; and at the end it was shown, unless the last page
came `late`. -/
structure Covers (e : Entry) (late : Prop) (t : Walk) (w : World) : Prop where
  shown : e.article ∈ t.shown.map Shown.articleId ∨ Pending e t w
  done : t.status = .done → e.article ∈ t.shown.map Shown.articleId ∨ late
  refused : t.status = .refused → maxOffset < t.offset

/-- What is on a page is shown. -/
theorem mem_shown_of_mem_page {e : Entry} {limit offset : ℕ} {rows : List Entry}
    (h : ident e ∈ page limit offset (rows.map ident)) :
    e.article ∈ (page limit offset (rows.map serialize)).map Shown.articleId := by
  rw [← map_page] at h ⊢
  obtain ⟨x, hx, heq⟩ := List.mem_map.mp h
  rw [List.map_map]
  exact List.mem_map.mpr ⟨x, hx, congrArg Prod.snd heq⟩

/-- What was counted is on the page, or behind it. -/
theorem Pending.read {e : Entry} {t : Walk} {w : World} (h : Pending e t w) {count : ℕ}
    (hcount : t.offset ≤ count) (hne : count ≠ 0) :
    e.article ∈ (readPage t.limit t.offset count (listing t.subscription w.entries)).map
        Shown.articleId ∨
      ident e ∈ ((listing t.subscription w.entries).map ident).drop
        (t.offset + getLimit t.limit) := by
  rw [readPage, if_neg (by omega)]
  exact (mem_page_or_drop (getLimit t.limit) h).imp_left mem_shown_of_mem_page

variable {late late' : Prop}

/-- **A page shows what it passes.** -/
theorem Covers.asked {e : Entry} {t t' : Walk} {w : World} (h : Covers e late t w)
    (hasked : Asked t w t')
    (hlate : ∀ count, t.status = .counted count → t'.status = .done →
      count < (listing t.subscription w.entries).length → late') : Covers e late' t' w := by
  cases hasked with
  | gone | found | counted =>
    exact ⟨h.shown, fun hdone => (nomatch hdone), fun hrefused => (nomatch hrefused)⟩
  | refused hdeep => exact ⟨h.shown, fun hdone => (nomatch hdone), fun _ => hdeep⟩
  | page count hcount hmore =>
    refine ⟨?_, fun hdone => (nomatch hdone), fun hrefused => (nomatch hrefused)⟩
    rw [List.map_append, List.mem_append]
    rcases h.shown with hshown | hpending
    · exact .inl (.inl hshown)
    · have hbelow : t.offset ≤ count := by omega
      have hsome : count ≠ 0 := by omega
      rcases hpending.read hbelow hsome with hread | hdrop
      · exact .inl (.inr hread)
      · exact .inr hdrop
  | last count hcount hend =>
    have hbefore : e.article ∈ t.shown.map Shown.articleId → e.article ∈ (t.shown ++
        readPage t.limit t.offset count (listing t.subscription w.entries)).map Shown.articleId :=
      fun hshown => List.map_append ▸ List.mem_append_left _ hshown
    refine ⟨h.shown.imp_left hbefore, fun _ => ?_, fun hrefused => (nomatch hrefused)⟩
    rcases h.shown with hshown | hpending
    · exact .inl (hbefore hshown)
    · rcases lt_or_ge count (listing t.subscription w.entries).length with hless | hall
      · exact .inr (hlate count hcount rfl hless)
      · -- the entry is one of the rows that were counted
        have hpos : t.offset < (listing t.subscription w.entries).length := by
          have hmem := List.length_pos_of_mem hpending
          rw [List.length_drop, List.length_map] at hmem
          omega
        have hbelow : t.offset ≤ count := hpos.le.trans hall
        have hsome : count ≠ 0 := by omega
        rcases hpending.read hbelow hsome with hread | hdrop
        · exact .inl (List.map_append ▸ List.mem_append_right _ hread)
        · -- nothing is behind the last page
          rw [List.drop_of_length_le (by rw [List.length_map]; omega)] at hdrop
          cases hdrop

/-- A write leaves what is still to come behind. -/
theorem Covers.outside {e : Entry} {t : Walk} {w w' : World} (h : Covers e late t w)
    (himp : late → late') (hgrown : Grown t.subscription w.entries w'.entries) :
    Covers e late' t w' :=
  ⟨h.shown.imp_right fun hpending => mem_drop_of_sublist hgrown hpending,
    fun hdone => (h.done hdone).imp_right himp, h.refused⟩

variable {ι : Type*} [DecidableEq ι] {c₀ c c' : Walks ι} {p : ι}

/-- Rows of the subscription came in between the count and the rows of the last page. -/
def Late (c₀ c : Walks ι) (p : ι) : Prop :=
  ∃ c₁ c₂ count, Reach next (Keeps (c₀.loc p).subscription) c₀ c₁ ∧
    (c₁.loc p).status = .counted count ∧
    count < (listing (c₀.loc p).subscription c₁.shared.entries).length ∧
    next (.proc p ()) c₁ = some c₂ ∧ (c₂.loc p).status = .done ∧
    Reach next (Keeps (c₀.loc p).subscription) c₂ c

theorem Late.step {m : Move ι Unit Write} (h : Late c₀ c p)
    (hok : Keeps (c₀.loc p).subscription c m) (hnext : next m c = some c') : Late c₀ c' p := by
  obtain ⟨c₁, c₂, count, hbefore, hcount, hless, hread, hdone, hafter⟩ := h
  exact ⟨c₁, c₂, count, hbefore, hcount, hless, hread, hdone, hafter.step hok hnext⟩

end DeliveryApi
