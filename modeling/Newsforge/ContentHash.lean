/-
The content hash and its migration.

* `canonicalizeUrl_safe` — a canonical URL has no line feed, and neither has a title, being
  a plain text;
* `hashedBytes_inj` — so what is hashed can be told apart again;
* `strip_eq_btrim_iff` — when Python and SQL trim the same characters;
* `Stored` — a row that was written from a normalized entry, and `stored_of_run`:
  every row of the table is.

Main results: `contentHash_separates`, `rehash_eq_iff`.
-/
import Newsforge.ArticleUrl
import Newsforge.DedupUpsert
import Newsforge.TextLines

open PyText UrlParse ArticleTable
open Tables (mem_updateWhere)

namespace Normalizer

variable {u : UnicodeTables} {c : CharTables} {k : Tools}

/-! ### What is hashed -/

theorem encodeUtf8_inj {s t : Text} (h : encodeUtf8 s = encodeUtf8 t) : s = t := by
  rw [← Percent.decodeUtf8_encode s, ← Percent.decodeUtf8_encode t]
  exact congrArg Percent.decodeUtf8 h

/-- Nothing that is removed from a URL is in a canonical one. -/
theorem canonicalizeUrl_safe (hu : UnicodeRules u c) {url v : Text}
    (h : canonicalizeUrl u url = .ok v) : ∀ x ∈ v, isUnsafe x = false := by
  obtain ⟨parsed, port, hparse, rfl⟩ := canonicalizeUrl_ok h
  intro x hx
  rw [List.mem_append] at hx
  rcases hx with hx | hx
  · exact (canonicalBase_chars hu hparse hx).2.2
  · rw [queryPart] at hx
    split at hx
    · exact absurd hx List.not_mem_nil
    · rcases List.mem_cons.mp hx with rfl | hx
      · decide
      · exact (mem_urlencode_plain hx).2

/-- What `content_hash` hands to SHA-256 for an entry. -/
def hashedBytes (e : NormalizedEntry) : List UInt8 :=
  payload e.canonicalUrl e.title (orElse e.body e.summary)

/-- What is known of an entry that was normalized. -/
structure Normalized (k : Tools) (e : NormalizedEntry) : Prop where
  url : ∃ link, canonicalizeUrl k.unicode link = .ok e.canonicalUrl
  title : ∃ value, plainText k.toHtml value maxTitleChars = .ok e.title
  hash : e.contentHash = k.sha256 (hashedBytes e)

theorem normalizeEntry_eq_ok {now : Tables.Time} {raw : RawEntry} {e : NormalizedEntry}
    (h : normalizeEntry k now raw = .ok e) : Normalized k e := by
  have hmade := normalizeEntry_eq_ok_iff.mp h
  exact ⟨⟨e.url, hmade.canonicalUrl⟩, ⟨_, hmade.title⟩, hmade.contentHash⟩

namespace Normalized

variable {e e₁ e₂ : NormalizedEntry}

theorem lineFeed_notMem_url (h : Normalized k e) (hu : UnicodeRules k.unicode c) :
    '\n' ∉ e.canonicalUrl := by
  obtain ⟨link, hlink⟩ := h.url
  intro hmem
  exact absurd (canonicalizeUrl_safe hu hlink _ hmem) (by decide)

theorem lineFeed_notMem_title (h : Normalized k e) : '\n' ∉ strip isSpace e.title := by
  obtain ⟨value, htitle⟩ := h.title
  intro hmem
  obtain ⟨a, b, hsplit, -, -⟩ := strip_eq_append isSpace e.title
  have hmem' : '\n' ∈ e.title := by
    rw [hsplit]
    exact List.mem_append_left _ (List.mem_append_right _ hmem)
  exact absurd (space_of_mem_plainText htitle hmem' (by decide)) (by decide)

/-- **The parts of what is hashed can be told apart**: the first line is the URL,
the second one the title. -/
theorem hashedBytes_inj (h₁ : Normalized k e₁) (h₂ : Normalized k e₂)
    (hu : UnicodeRules k.unicode c) (h : hashedBytes e₁ = hashedBytes e₂) :
    e₁.canonicalUrl = e₂.canonicalUrl ∧
      strip isSpace e₁.title = strip isSpace e₂.title ∧
      strip isSpace (orElse e₁.body e₁.summary) = strip isSpace (orElse e₂.body e₂.summary) := by
  have htext := congrArg (partition '\n') (encodeUtf8_inj h)
  rw [partition_append (h₁.lineFeed_notMem_url hu), partition_append (h₂.lineFeed_notMem_url hu)]
    at htext
  simp only [Prod.mk.injEq, true_and] at htext
  obtain ⟨hurl, hrest⟩ := htext
  have hlines := congrArg (partition '\n') hrest
  rw [partition_append h₁.lineFeed_notMem_title, partition_append h₂.lineFeed_notMem_title]
    at hlines
  simp only [Prod.mk.injEq, true_and] at hlines
  exact ⟨hurl, hlines⟩

end Normalized

/-- **Separation.**  Two entries with the same bytes under their content hashes have
the same canonical URL and, but for the white space around them, the same title and
the same text. -/
theorem contentHash_separates (hu : UnicodeRules k.unicode c) {now₁ now₂ : Tables.Time}
    {raw₁ raw₂ : RawEntry} {e₁ e₂ : NormalizedEntry} (h₁ : normalizeEntry k now₁ raw₁ = .ok e₁)
    (h₂ : normalizeEntry k now₂ raw₂ = .ok e₂) :
    e₁.contentHash = k.sha256 (hashedBytes e₁) ∧ e₂.contentHash = k.sha256 (hashedBytes e₂) ∧
      (hashedBytes e₁ = hashedBytes e₂ →
        e₁.canonicalUrl = e₂.canonicalUrl ∧
          strip isSpace e₁.title = strip isSpace e₂.title ∧
          strip isSpace (orElse e₁.body e₁.summary) =
            strip isSpace (orElse e₂.body e₂.summary)) := by
  have hn₁ := normalizeEntry_eq_ok h₁
  have hn₂ := normalizeEntry_eq_ok h₂
  exact ⟨hn₁.hash, hn₂.hash, hn₁.hashedBytes_inj hn₂ hu⟩

/-- What is hashed for an article with the given text. -/
def sampleBytes (text : Text) : List UInt8 :=
  encodeUtf8 ("https://news.example/a\nTitle\n".toList ++ text)

/-- Tools for texts without markup, with the SHA-256 digests of two of them. -/
def sampleTools : Tools where
  toHtml := bareHtml
  unicode := basicUnicode
  detect _ := none
  sha256 bs :=
    if bs = sampleBytes "本文".toList then
      "cc87b8ba26bad313bfc6c53c55bd7d809ddafac51265dd6517ad6e99b5522f3f".toList
    else if bs = sampleBytes "\u3000本文".toList then
      "15eefac5db5582c88c5ed93eeaa5c6ad410ccca5cd00e44f7279cb3cf24d009c".toList
    else []

/-- A feed entry with a title and a text. -/
def sampleRaw (title text : Text) : RawEntry :=
  ⟨"https://news.example/a".toList, title, [], text, none, none, none, "simple".toList⟩

/-- What is made of it. -/
def sampleEntry (text : Text) : NormalizedEntry where
  canonicalUrl := "https://news.example/a".toList
  url := "https://news.example/a".toList
  title := "Title".toList
  summary := []
  body := text
  author := none
  language := "simple".toList
  contentHash := "cc87b8ba26bad313bfc6c53c55bd7d809ddafac51265dd6517ad6e99b5522f3f".toList
  guid := []
  publishedAt := none

theorem contentHash_separates_sample :
    (sampleEntry "本文".toList).contentHash =
        sampleTools.sha256 (hashedBytes (sampleEntry "本文".toList)) ∧
      (sampleEntry "\u3000本文".toList).contentHash =
        sampleTools.sha256 (hashedBytes (sampleEntry "\u3000本文".toList)) ∧
      (hashedBytes (sampleEntry "本文".toList) = hashedBytes (sampleEntry "\u3000本文".toList) →
        (sampleEntry "本文".toList).canonicalUrl = (sampleEntry "\u3000本文".toList).canonicalUrl ∧
          strip isSpace (sampleEntry "本文".toList).title =
            strip isSpace (sampleEntry "\u3000本文".toList).title ∧
          strip isSpace (orElse (sampleEntry "本文".toList).body []) =
            strip isSpace (orElse (sampleEntry "\u3000本文".toList).body [])) :=
  contentHash_separates (k := sampleTools) basicUnicode_rules
    (show normalizeEntry sampleTools 0 (sampleRaw "Title".toList "本文".toList) =
      .ok (sampleEntry "本文".toList) by decide)
    (show normalizeEntry sampleTools 0 (sampleRaw "\n Title ".toList "\u3000本文".toList) =
      .ok (sampleEntry "\u3000本文".toList) by decide)

/-! ### What Python and SQL trim -/

theorem isSpace_of_isSqlBlank {x : Char} (h : isSqlBlank x = true) : isSpace x = true := by
  simp only [isSqlBlank, Bool.or_eq_true, beq_iff_eq] at h
  rcases h with ((((rfl | rfl) | rfl) | rfl) | rfl) | rfl <;> decide

theorem strip_of_all {p : Char → Bool} {s : Text} (h : ∀ x ∈ s, p x = true) : strip p s = [] := by
  rw [strip, rstrip, lstrip, List.dropWhile_eq_nil_iff.mpr h]
  rfl

/-- **Python trims what SQL trims** exactly where nothing but that stands around the
text. -/
theorem strip_eq_btrim_iff (s : Text) :
    strip isSpace s = btrim s ↔ Stripped isSpace (btrim s) := by
  constructor
  · intro h
    rw [← h]
    exact stripped_strip isSpace s
  · intro h
    obtain ⟨a, b, hsplit, ha, hb⟩ := strip_eq_append isSqlBlank s
    have ha' : ∀ x ∈ a, isSpace x = true := fun x hx => isSpace_of_isSqlBlank (ha x hx)
    have hb' : ∀ x ∈ b, isSpace x = true := fun x hx => isSpace_of_isSqlBlank (hb x hx)
    rw [← btrim] at hsplit
    rcases eq_or_ne (btrim s) [] with hnil | hne
    · rw [hnil, List.append_nil] at hsplit
      rw [hnil]
      refine strip_of_all fun x hx => ?_
      rw [hsplit, List.mem_append] at hx
      exact hx.elim (ha' x) (hb' x)
    · conv_lhs => rw [hsplit]
      exact strip_append ha' hb' h hne

/-- A title is trimmed alike: its only white space is the blank. -/
theorem strip_title {e : NormalizedEntry} (h : Normalized k e) :
    strip isSpace e.title = btrim e.title := by
  obtain ⟨value, htitle⟩ := h.title
  have hblank : ∀ x ∈ btrim e.title, isSpace x = true → isSqlBlank x = true := by
    intro x hx hspace
    obtain ⟨a, b, hsplit, -, -⟩ := strip_eq_append isSqlBlank e.title
    have hmem : x ∈ e.title := by
      rw [hsplit]
      exact List.mem_append_left _ (List.mem_append_right _ hx)
    rw [space_of_mem_plainText htitle hmem hspace]
    decide
  have hends := stripped_strip isSqlBlank e.title
  rw [strip_eq_btrim_iff]
  constructor
  · intro x hx
    by_contra hspace
    rw [Bool.not_eq_false] at hspace
    have := hblank x (List.mem_of_mem_head? hx) hspace
    rw [hends.head x hx] at this
    exact Bool.false_ne_true this
  · intro x hx
    by_contra hspace
    rw [Bool.not_eq_false] at hspace
    have := hblank x (List.mem_of_getLast? hx) hspace
    rw [hends.last x hx] at this
    exact Bool.false_ne_true this

/-! ### Stored rows -/

/-- A row whose columns were written from a normalized entry. -/
structure StoredFrom (e : NormalizedEntry) (r : Article) : Prop where
  url : r.canonicalUrl = e.canonicalUrl
  title : r.title = e.title
  summary : r.summary = e.summary
  body : r.body = e.body
  hash : r.contentHash = e.contentHash

/-- A row that holds some normalized entry. -/
def Stored (k : Tools) (r : Article) : Prop :=
  ∃ now raw e, normalizeEntry k now raw = .ok e ∧ StoredFrom e r

/-- One upsert of a normalized entry keeps every row of this kind. -/
theorem stored_of_upsert {db : Db} (hwf : WellFormed db) {call : Call}
    (hcall : ∃ now raw, normalizeEntry k now raw = .ok call.entry)
    (h : ∀ r ∈ db.rows, Stored k r) :
    ∀ r ∈ (upsertArticle call.feedId call.entry call.times db).2.rows, Stored k r := by
  obtain ⟨now, raw, hentry⟩ := hcall
  obtain ⟨d, hd⟩ := exists_decides call.feedId call.entry db.rows
  rw [(carries_decision hwf hd call.times).rows]
  intro r hr
  cases d with
  | insert =>
    rcases List.mem_append.mp hr with hr | hr
    · exact h r hr
    · rw [List.mem_singleton.mp hr]
      exact ⟨now, raw, call.entry, hentry, rfl, rfl, rfl, rfl, rfl⟩
  | edit q =>
    obtain ⟨r₀, hr₀, rfl⟩ := mem_updateWhere.mp hr
    split
    · exact ⟨now, raw, call.entry, hentry, rfl, rfl, rfl, rfl, rfl⟩
    · exact h r₀ hr₀
  | touch q =>
    obtain ⟨r₀, hr₀, rfl⟩ := mem_updateWhere.mp hr
    split
    · -- a touch writes none of the columns
      obtain ⟨now, raw, e, he, hs⟩ := h r₀ hr₀
      exact ⟨now, raw, e, he, hs.url, hs.title, hs.summary, hs.body, hs.hash⟩
    · exact h r₀ hr₀

theorem stored_of_run {db : Db} (hwf : WellFormed db) {calls : List Call}
    (hcalls : ∀ call ∈ calls, ∃ now raw, normalizeEntry k now raw = .ok call.entry)
    (h : ∀ r ∈ db.rows, Stored k r) : ∀ r ∈ (runUpserts calls db).rows, Stored k r := by
  induction calls generalizing db with
  | nil => exact h
  | cons call calls ih =>
    obtain ⟨hcall, hcalls⟩ := List.forall_mem_cons.mp hcalls
    exact ih (upsertArticle_wellFormed hwf call.feedId call.entry call.times) hcalls
      (stored_of_upsert hwf hcall h)

/-- What is hashed for a row, live and in the migration. -/
theorem rehashPayload_eq_iff {e : NormalizedEntry} {r : Article} (he : Normalized k e)
    (h : StoredFrom e r) :
    rehashPayload r = hashedBytes e ↔ Stripped isSpace (btrim (orElse r.body r.summary)) := by
  rw [← strip_eq_btrim_iff, rehashPayload, hashedBytes, payload, h.url, h.title, h.body, h.summary,
    strip_title he]
  constructor
  · intro heq
    have htext := encodeUtf8_inj heq
    simp only [List.append_cancel_left_eq, List.cons.injEq, true_and] at htext
    exact htext.symm
  · intro htext
    rw [htext]

/-- **The migration.**  In a table that upserts of normalized entries have filled,
each stored hash is that of the stored columns; and as far as SHA-256 tells its two
inputs apart, the migration computes it again exactly if the text, trimmed by SQL,
has no other white space around it. -/
theorem rehash_eq_iff {calls : List Call}
    (hcalls : ∀ call ∈ calls, ∃ now raw, normalizeEntry k now raw = .ok call.entry) {r : Article}
    (hr : r ∈ (runUpserts calls Db.empty).rows)
    (hsha : k.sha256 (rehashPayload r) =
        k.sha256 (payload r.canonicalUrl r.title (orElse r.body r.summary)) →
      rehashPayload r = payload r.canonicalUrl r.title (orElse r.body r.summary)) :
    r.contentHash = contentHash k r.canonicalUrl r.title (orElse r.body r.summary) ∧
      (rehash k r = r.contentHash ↔ Stripped isSpace (btrim (orElse r.body r.summary))) := by
  obtain ⟨now, raw, e, he, hs⟩ := stored_of_run WellFormed.empty hcalls
    (fun r hr => absurd hr List.not_mem_nil) r hr
  have hn := normalizeEntry_eq_ok he
  have hbytes : payload r.canonicalUrl r.title (orElse r.body r.summary) = hashedBytes e := by
    rw [hashedBytes, hs.url, hs.title, hs.body, hs.summary]
  have hhash : r.contentHash = contentHash k r.canonicalUrl r.title (orElse r.body r.summary) := by
    rw [contentHash, hbytes, hs.hash, hn.hash]
  refine ⟨hhash, ?_⟩
  rw [hhash, rehash, contentHash, ← rehashPayload_eq_iff hn hs, ← hbytes]
  exact ⟨hsha, congrArg k.sha256⟩

/-- One upsert of an entry. -/
def sampleCall (text : Text) : Call := ⟨1, sampleEntry text, ⟨0, 0, 0⟩⟩

theorem rehash_eq_iff_sample :
    (newArticle 1 (sampleEntry "本文".toList) 0 1).contentHash =
        contentHash sampleTools "https://news.example/a".toList "Title".toList "本文".toList ∧
      (rehash sampleTools (newArticle 1 (sampleEntry "本文".toList) 0 1) =
          (newArticle 1 (sampleEntry "本文".toList) 0 1).contentHash ↔
        Stripped isSpace (btrim "本文".toList)) :=
  rehash_eq_iff (k := sampleTools)
    (by
      intro call hcall
      rw [List.mem_singleton.mp hcall]
      exact ⟨0, sampleRaw "Title".toList "本文".toList, by decide⟩)
    (show newArticle 1 (sampleEntry "本文".toList) 0 1 ∈
      (runUpserts [sampleCall "本文".toList] Db.empty).rows by decide)
    (fun _ => by decide)

/-- An ideographic space in front of the text: Python trims it, SQL does not. -/
theorem rehash_ideographic_space :
    normalizeEntry sampleTools 0 (sampleRaw "Title".toList "\u3000本文".toList) =
        .ok (sampleEntry "\u3000本文".toList) ∧
      newArticle 1 (sampleEntry "\u3000本文".toList) 0 1 ∈
        (runUpserts [sampleCall "\u3000本文".toList] Db.empty).rows ∧
      rehash sampleTools (newArticle 1 (sampleEntry "\u3000本文".toList) 0 1) ≠
        (newArticle 1 (sampleEntry "\u3000本文".toList) 0 1).contentHash := by
  decide

end Normalizer
