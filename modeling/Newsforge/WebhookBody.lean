/-
What a delivery sends (`_payload`, `sign`, `_idempotency_key`, `_send_webhook` and `_subject`
of `tasks/notifications.py`).

* `payload`, `body` — the article as JSON;
* `message`, `sign` — what is signed, and the signature;
* `headers` — the headers of a webhook;
* `subject` — the subject of a mail.

Main results: `body_reads_back`, the receiver reads the fields of the article;
`message_eq_iff`, a signed message has one timestamp and one body;
`idempotencyInput_eq_iff`; and `subject_is_one_line`.
-/
import Newsforge.ArticleTable
import Newsforge.ContentHash
import Newsforge.Json

open PyText Tables

namespace Webhook

open ArticleTable Json Normalizer

/-- What the task takes from elsewhere: `datetime.isoformat` in UTC, the digest of
`hmac.new(key, message, hashlib.sha256)`, and `settings.USER_AGENT`. -/
structure Sender where
  isoformat : Time → Text
  hmacSha256 : List UInt8 → List UInt8 → Text
  sha256 : List UInt8 → Text
  userAgent : Text

/-- `_payload`. -/
def payload (k : Sender) (a : Article) : Value :=
  .obj [("id".toList, .int a.id), ("title".toList, .str a.title), ("url".toList, .str a.url),
    ("summary".toList, .str a.summary), ("feed_id".toList, .int a.feedId),
    ("published_at".toList,
      match a.publishedAt with
      | some t => .str (k.isoformat t)
      | none => .null)]

/-- `json.dumps(_payload(article), separators=(",", ":")).encode()`. -/
def body (k : Sender) (a : Article) : List UInt8 := encodeUtf8 (dumps (payload k a))

/-- What `sign` hands to HMAC. -/
def message (timestamp : Int) (body : List UInt8) : List UInt8 :=
  encodeUtf8 (intStr timestamp ++ ['.']) ++ body

/-- `sign`. -/
def sign (k : Sender) (secret : Text) (timestamp : Int) (body : List UInt8) : Text :=
  "sha256=".toList ++ k.hmacSha256 (encodeUtf8 secret) (message timestamp body)

/-- What `_idempotency_key` hands to SHA-256. -/
def idempotencyInput (subscription article : ℕ) : Text :=
  natStr subscription ++ ':' :: natStr article

/-- `_idempotency_key`. -/
def idempotencyKey (k : Sender) (subscription article : ℕ) : Text :=
  k.sha256 (encodeUtf8 (idempotencyInput subscription article))

/-- The headers of `_send_webhook`. -/
def headers (k : Sender) (secret : Text) (timestamp : Int) (subscription : ℕ) (a : Article) :
    List (Text × Text) :=
  [("Content-Type".toList, "application/json".toList), ("User-Agent".toList, k.userAgent),
    ("X-NF-Timestamp".toList, intStr timestamp),
    ("X-NF-Signature".toList, sign k secret timestamp (body k a)),
    ("X-Idempotency-Key".toList, idempotencyKey k subscription a.id)]

/-- `MAX_SUBJECT_CHARS`. -/
def maxSubjectChars : ℕ := 200

/-- `_subject`. -/
def subject (title : Text) : Text :=
  ("[newsforge] ".toList ++ join ' ' (words title)).take maxSubjectChars

/-! ### The body -/

/-- **The receiver reads the fields of the article**, from a body of printable ASCII. -/
theorem body_reads_back (k : Sender) (a : Article) :
    ∃ text, body k a = encodeUtf8 text ∧ Printable text ∧ loads text = some (payload k a) :=
  ⟨dumps (payload k a), rfl, printable_dumps _, loads_dumps _⟩

theorem body_inj {k : Sender} {a a' : Article} (h : body k a = body k a') :
    payload k a = payload k a' := by
  have hload := congrArg loads (encodeUtf8_inj h)
  rwa [loads_dumps, loads_dumps, Option.some_inj] at hload

/-! ### The signed message -/

/-- A text is cut at the first separator. -/
theorem cut_inj {α : Type*} {x : α} {a a' b b' : List α} (ha : x ∉ a) (ha' : x ∉ a')
    (h : a ++ x :: b = a' ++ x :: b') : a = a' ∧ b = b' := by
  induction a generalizing a' with
  | nil =>
    cases a' with
    | nil => exact ⟨rfl, (List.cons.inj h).2⟩
    | cons y a' => exact absurd (List.cons.inj h).1 (fun heq => ha' (heq ▸ List.mem_cons_self))
  | cons y a ih =>
    cases a' with
    | nil => exact absurd (List.cons.inj h).1.symm (fun heq => ha (heq ▸ List.mem_cons_self))
    | cons y' a' =>
      obtain ⟨rfl, htail⟩ := List.cons.inj h
      have hrest := ih (fun hin => ha (List.mem_cons_of_mem _ hin))
        (fun hin => ha' (List.mem_cons_of_mem _ hin)) htail
      exact ⟨congrArg (y :: ·) hrest.1, hrest.2⟩

theorem intStr_inj {m n : Int} (h : intStr m = intStr n) : m = n := by
  have hnil : Stops [] := fun c hc => by cases hc
  have hm := scanInt_intStr m hnil
  have hn := scanInt_intStr n hnil
  rw [h] at hm
  exact congrArg Prod.fst (Option.some_inj.mp (hm.symm.trans hn))

/-- The byte of the dot. -/
def dot : UInt8 := 46

theorem dot_notMem (n : Int) : dot ∉ encodeUtf8 (intStr n) := by
  have hdigit : ∀ d < 10, dot ∉ String.utf8EncodeChar (Nat.digitChar d) := by decide
  have hnat : ∀ n, dot ∉ encodeUtf8 (natStr n) := by
    intro n h
    obtain ⟨c, hc, hin⟩ := List.mem_flatMap.mp h
    obtain ⟨d, hd, rfl⟩ := mem_toDigits (by decide) hc
    exact hdigit d hd hin
  rw [intStr]
  split
  · intro h
    rcases List.mem_append.mp h with h | h
    · exact absurd h (by decide)
    · exact hnat _ h
  · exact hnat _

theorem message_eq (timestamp : Int) (body : List UInt8) :
    message timestamp body = encodeUtf8 (intStr timestamp) ++ dot :: body := by
  have hdot : encodeUtf8 ['.'] = [dot] := by decide
  rw [message, encodeUtf8, List.flatMap_append, ← encodeUtf8, ← encodeUtf8, hdot,
    List.append_assoc, List.singleton_append]

/-- **A signed message has one timestamp and one body**, also one that was not made here. -/
theorem message_eq_iff {timestamp timestamp' : Int} {body body' : List UInt8} :
    message timestamp body = message timestamp' body' ↔
      timestamp = timestamp' ∧ body = body' := by
  rw [message_eq, message_eq]
  constructor
  · intro h
    obtain ⟨htime, hbody⟩ := cut_inj (dot_notMem timestamp) (dot_notMem timestamp') h
    exact ⟨intStr_inj (encodeUtf8_inj htime), hbody⟩
  · rintro ⟨rfl, rfl⟩
    rfl

/-- **What is signed is the timestamp and the fields of the article.** -/
theorem signed_webhook_iff {k : Sender} {timestamp timestamp' : Int} {a a' : Article} :
    message timestamp (body k a) = message timestamp' (body k a') ↔
      timestamp = timestamp' ∧ payload k a = payload k a' := by
  rw [message_eq_iff]
  refine and_congr_right fun _ => ⟨body_inj, fun h => ?_⟩
  rw [body, h, body]

/-! ### The idempotency key -/

/-- **Every pair has a key of its own**, as far as SHA-256 tells texts apart. -/
theorem idempotencyInput_eq_iff {subscription subscription' article article' : ℕ} :
    idempotencyInput subscription article = idempotencyInput subscription' article' ↔
      subscription = subscription' ∧ article = article' := by
  have hcolon : ∀ n, ':' ∉ natStr n := fun n h => by
    have hdigit := isDigit_of_mem_natStr h
    cases hdigit
  constructor
  · intro h
    obtain ⟨hsub, harticle⟩ := cut_inj (hcolon subscription) (hcolon subscription') h
    exact ⟨natStr_inj hsub, natStr_inj harticle⟩
  · rintro ⟨rfl, rfl⟩
    rfl

/-! ### The subject -/

/-- **The subject of a mail is one line**: its only white space is the blank. -/
theorem subject_is_one_line (title : Text) :
    (subject title).length ≤ maxSubjectChars ∧
      ∀ c ∈ subject title, isSpace c = true → c = ' ' := by
  refine ⟨List.length_take_le _ _, fun c hc hspace => ?_⟩
  have hlabel : ("[newsforge] ".toList.all fun c => !isSpace c || c == ' ') = true := by decide
  rcases List.mem_append.mp (List.mem_of_mem_take hc) with hc | hc
  · simpa [hspace] using List.all_eq_true.mp hlabel c hc
  · rcases mem_join hc with rfl | ⟨w, hw, hmem⟩
    · rfl
    · rw [isSpace_of_mem_words hw c hmem] at hspace
      cases hspace

end Webhook
