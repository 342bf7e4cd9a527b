/-
The result of the body reader, from the format and the raw bytes alone.

* `outcome` — the result for a format and the raw bytes, up to the texts of errors;
* `Live`, `After`, `ReadsTo` — an object in the middle of a stream, and what the loops
  end with, in terms of the bytes read so far;
* `Borderline` — a failure that the cap may hide: the bytes in front of it have filled
  the buffer already.

Main results: `readBody_kind`, the result is the outcome for the format that the first
chunk calls for; `decompressor_first`, which is the one that the body calls for, unless
that chunk is one byte.
-/
import Newsforge.BodyContent

open PyText

namespace SafeHttp

variable {t : HostTables} {z : Zlib} {D : Decoder} {reply : Reply} {maxBytes : ℕ}
  {truncate : Bool} {deadline : Seconds} {f : Format}

/-! ### Outcomes -/

/-- The kind of an exception: its class, without the text. -/
def BodyError.kind : BodyError → BodyError
  | .responseTooLarge => .responseTooLarge
  | .deadlineExceeded => .deadlineExceeded
  | .client (.httpError _) => .client (.httpError [])
  | .client (.other _) => .client (.other [])

/-- The same body and flag, or exceptions of one kind. -/
def SameKind (r₁ r₂ : Except BodyError (Bytes × Bool)) : Prop :=
  r₁.mapError BodyError.kind = r₂.mapError BodyError.kind

/-- A body that can be decoded, under the cap. -/
def capped (maxBytes : ℕ) (truncate : Bool) (content : Bytes) : Except BodyError (Bytes × Bool) :=
  if content.length ≤ maxBytes then .ok (content, false)
  else if truncate then .ok (content.take maxBytes, true)
  else .error .responseTooLarge

/-- The bytes fail, and room for one byte over the cap is enough to come to the failure. -/
def FailsEarly (D : Decoder) (maxBytes : ℕ) (f : Format) (raw : Bytes) : Prop :=
  D.status f raw = .failed ∧ D.reach f raw ≤ maxBytes + 1

instance (D : Decoder) (maxBytes : ℕ) (f : Format) (raw : Bytes) :
    Decidable (FailsEarly D maxBytes f raw) := inferInstanceAs (Decidable (_ ∧ _))

/-- What a body is read as. -/
def outcome (D : Decoder) (maxBytes : ℕ) (truncate : Bool) (format : Option Format) (raw : Bytes) :
    Except BodyError (Bytes × Bool) :=
  match format with
  | none => capped maxBytes truncate raw
  | some f =>
    if FailsEarly D maxBytes f raw then .error (.client (.httpError []))
    else capped maxBytes truncate (D.output f raw)

/-- The body fails in the room for one byte over the cap, and a part of it in front of the
failure fills that room. -/
def Borderline (D : Decoder) (maxBytes : ℕ) (f : Format) (raw : Bytes) : Prop :=
  FailsEarly D maxBytes f raw ∧
    ∃ p, p <+: raw ∧ D.status f p ≠ .failed ∧ maxBytes < (D.output f p).length

theorem capped_full {buf content : Bytes} (hfull : maxBytes < buf.length)
    (hbegins : buf <+: content) : capped maxBytes truncate content =
      if truncate then .ok (buf.take maxBytes, true) else .error .responseTooLarge := by
  have hlen := hbegins.length_le
  rw [capped, if_neg (by omega)]
  obtain ⟨rest, rfl⟩ := hbegins
  rw [List.take_append_of_le_length (Nat.le_of_lt hfull)]

theorem capped_kind (maxBytes : ℕ) (truncate : Bool) (content : Bytes) :
    (capped maxBytes truncate content).mapError BodyError.kind =
      capped maxBytes truncate content := by
  rw [capped]
  split
  · rfl
  · split <;> rfl

theorem FailsEarly.mono {raw more : Bytes} (h : FailsEarly D maxBytes f raw) :
    FailsEarly D maxBytes f (raw ++ more) := by
  obtain ⟨hfailed, hlen⟩ := h
  obtain ⟨-, hstatus, hreach⟩ := D.stop f raw more (by rw [hfailed]; decide)
  exact ⟨hstatus.trans hfailed, hreach.symm ▸ hlen⟩

/-- A failure behind a content within the cap is an early one. -/
theorem failsEarly_of_room {raw : Bytes} (hfailed : D.status f raw = .failed)
    (hroom : (D.output f raw).length ≤ maxBytes) : FailsEarly D maxBytes f raw :=
  ⟨hfailed, (D.reach_le f raw).trans (Nat.succ_le_succ hroom)⟩

/-- A borderline body is over the cap. -/
theorem Borderline.lt_length {raw : Bytes} (h : Borderline D maxBytes f raw) :
    maxBytes < (D.output f raw).length := by
  obtain ⟨-, p, ⟨more, rfl⟩, -, hlong⟩ := h
  exact Nat.lt_of_lt_of_le hlong (D.grow f p more).length_le

/-! ### One chunk -/

/-- An object in the middle of a stream, which has returned everything so far. -/
structure Live (z : Zlib) (D : Decoder) (maxBytes : ℕ) (f : Format) (raw buf : Bytes)
    (s : z.State) : Prop where
  fed : z.Fed f raw buf s
  output : buf = D.output f raw
  room : buf.length ≤ maxBytes
  eof : z.eof s = false
  tail : z.unconsumedTail s = []
  status : D.status f raw ≠ .failed

theorem live_start (hz : z.Outputs D) (maxBytes : ℕ) (f : Format) :
    Live z D maxBytes f [] [] (z.start f) where
  fed := .start
  output := (D.nil f).1.symm
  room := Nat.zero_le _
  eof := by
    by_contra heof
    have hended := (hz.eof .start (Bool.eq_true_of_not_eq_false heof)).1
    rw [(D.nil f).2] at hended
    cases hended
  tail := hz.tail_start f
  status := by
    rw [(D.nil f).2]
    decide

/-- What the loop over a chunk ends with, after the bytes `raw`. -/
inductive After (z : Zlib) (D : Decoder) (maxBytes : ℕ) (f : Format) (raw : Bytes) :
    Except Text (Bytes × z.State) → Prop
  | failed (m : Text) : FailsEarly D maxBytes f raw → After z D maxBytes f raw (.error m)
  | full {buf : Bytes} {s : z.State} : ¬ FailsEarly D maxBytes f raw → maxBytes < buf.length →
    buf <+: D.output f raw → After z D maxBytes f raw (.ok (buf, s))
  | ended {buf : Bytes} {s : z.State} : z.eof s = true → D.status f raw = .ended →
    buf = D.output f raw → buf.length ≤ maxBytes → After z D maxBytes f raw (.ok (buf, s))
  | live {buf : Bytes} {s : z.State} : Live z D maxBytes f raw buf s →
    After z D maxBytes f raw (.ok (buf, s))

/-- **One call is enough for a chunk**: it uses up the chunk, or the room. -/
theorem inflate_after (hz : z.Reports D) {raw buf : Bytes} {s : z.State}
    (h : Live z D maxBytes f raw buf s) (chunk : Bytes) :
    After z D maxBytes f (raw ++ chunk) (inflate z (maxBytes + 1) s chunk buf) := by
  by_cases hchunk : chunk = []
  · rw [hchunk, List.append_nil, inflate_stop (not_guard_iff.mpr (.inl rfl))]
    exact .live h
  have hroom : buf.length < maxBytes + 1 := Nat.lt_succ_of_le h.room
  have hguard : Guard z (maxBytes + 1) (s, chunk, buf) := ⟨hchunk, hroom, h.eof⟩
  have hn : 0 < maxBytes + 1 - buf.length := Nat.sub_pos_of_lt hroom
  have hfails := @hz.fails f raw buf s chunk _ h.fed hn h.eof
  rw [Nat.add_sub_cancel' (Nat.le_of_lt hroom)] at hfails
  cases hcall : z.decompress s chunk (maxBytes + 1 - buf.length) with
  | error m =>
    rw [inflate_fail hguard hcall]
    exact .failed m (hfails.mp ⟨m, hcall⟩)
  | ok r =>
    obtain ⟨out, s'⟩ := r
    have hno : ¬ FailsEarly D maxBytes f (raw ++ chunk) := by
      intro hearly
      obtain ⟨m, hm⟩ := hfails.mpr hearly
      rw [hcall] at hm
      cases hm
    obtain ⟨now, hnow⟩ := hz.tail hn hcall
    have hfed : z.Fed f (raw ++ now) (buf ++ out) s' :=
      h.fed.decompress hn h.eof (hnow.symm ▸ hcall)
    have hle := z.length_le hn hcall
    rw [inflate_call hguard hcall]
    by_cases hshort : out.length < maxBytes + 1 - buf.length
    · -- the chunk is used up
      have htail : z.unconsumedTail s' = [] := by
        by_contra hne
        exact Nat.ne_of_lt hshort (z.length_eq hn hcall hne)
      have hout := hz.all h.fed hn h.eof hcall hshort
      rw [htail, List.append_nil] at hnow
      rw [htail, inflate_stop (not_guard_iff.mpr (.inl rfl))]
      rw [hnow] at hfed
      have hlen : (buf ++ out).length ≤ maxBytes := by
        rw [List.length_append]
        omega
      by_cases heof : z.eof s' = true
      · exact .ended heof (hz.eof hfed heof).1 hout hlen
      · refine .live ⟨hfed, hout, hlen, Bool.eq_false_of_not_eq_true heof, htail, ?_⟩
        exact fun hfailed => hno (failsEarly_of_room hfailed (hout ▸ hlen))
    · -- the room is
      have hlen : (buf ++ out).length = maxBytes + 1 := by
        rw [List.length_append]
        omega
      rw [inflate_stop (not_guard_iff.mpr (.inr (.inl (Nat.le_of_eq hlen.symm))))]
      refine .full hno (by omega) ((hz.output hfed).trans ?_)
      rw [← hnow, ← List.append_assoc]
      exact D.grow f (raw ++ now) _

/-! ### The chunks -/

section Chunk

variable {ending : Option ClientError} {now : Seconds} {chunk buf : Bytes} {n : ℕ}
  {rest : List (Seconds × Bytes)} {s : z.State}

theorem readChunks_of_error {m : Text} (hclock : ¬ deadline < now)
    (h : inflate z (maxBytes + 1) s chunk buf = .error m) :
    readChunks t z reply maxBytes deadline ending ((now, chunk) :: rest) ⟨buf, n, some (some s)⟩ =
      .error (.client (.httpError ("invalid compressed body: ".toList ++ m))) := by
  rw [readChunks, if_neg hclock, readChunk, chooseDecoder]
  simp [extend, h, orDecodingError, Except.map, bind, Except.bind]

theorem readChunks_of_ok {buf' : Bytes} {s' : z.State} (hclock : ¬ deadline < now)
    (h : inflate z (maxBytes + 1) s chunk buf = .ok (buf', s')) :
    readChunks t z reply maxBytes deadline ending ((now, chunk) :: rest) ⟨buf, n, some (some s)⟩ =
      if z.eof s' = true ∨ maxBytes < buf'.length ∨
          maxBytes + rawSlackBytes < n + chunk.length then
        .ok ⟨buf', n + chunk.length, some (some s')⟩
      else readChunks t z reply maxBytes deadline ending rest
        ⟨buf', n + chunk.length, some (some s')⟩ := by
  have hchunk : readChunk t z reply maxBytes ⟨buf, n, some (some s)⟩ chunk =
      .ok (⟨buf', n + chunk.length, some (some s')⟩,
        !(z.eof s' || decide (maxBytes < buf'.length) ||
          decide (maxBytes + rawSlackBytes < n + chunk.length))) := by
    rw [readChunk, chooseDecoder]
    simp [extend, h, orDecodingError, Except.map, bind, Except.bind, pure, Except.pure]
  rw [readChunks, if_neg hclock, hchunk]
  by_cases hstop : z.eof s' = true ∨ maxBytes < buf'.length ∨
      maxBytes + rawSlackBytes < n + chunk.length
  · have hbool : (z.eof s' || decide (maxBytes < buf'.length) ||
        decide (maxBytes + rawSlackBytes < n + chunk.length)) = true := by
      simpa [or_assoc] using hstop
    rw [hbool, if_pos hstop]
    rfl
  · have hbool : (z.eof s' || decide (maxBytes < buf'.length) ||
        decide (maxBytes + rawSlackBytes < n + chunk.length)) = false := by
      simpa [not_or, and_assoc] using hstop
    rw [hbool, if_neg hstop]
    rfl

end Chunk

theorem rawBytes_cons (now : Seconds) (chunk : Bytes) (rest : List (Seconds × Bytes)) :
    rawBytes ((now, chunk) :: rest) = chunk ++ rawBytes rest := rfl

/-- The clock never passes the deadline. -/
def InTime (deadline : Seconds) (chunks : List (Seconds × Bytes)) : Prop :=
  ∀ c ∈ chunks, ¬ deadline < c.1

/-- What the loop over the chunks ends with, after the bytes `raw`. -/
inductive ReadsTo (z : Zlib) (D : Decoder) (maxBytes : ℕ) (f : Format) (raw : Bytes) :
    Except BodyError (Reading z) → Prop
  | failed (m : Text) : FailsEarly D maxBytes f raw →
    ReadsTo z D maxBytes f raw (.error (.client (.httpError m)))
  | full {r : Reading z} {p : Bytes} : p <+: raw → ¬ FailsEarly D maxBytes f p →
    maxBytes < r.buf.length → r.buf <+: D.output f p → ReadsTo z D maxBytes f raw (.ok r)
  | ended {r : Reading z} {s : z.State} : r.decoder = some (some s) → z.eof s = true →
    D.status f raw = .ended → r.buf = D.output f raw → r.buf.length ≤ maxBytes →
    r.rawRead ≤ maxBytes + rawSlackBytes → ReadsTo z D maxBytes f raw (.ok r)
  | live {r : Reading z} {s : z.State} : r.decoder = some (some s) →
    Live z D maxBytes f raw r.buf s → r.rawRead ≤ maxBytes + rawSlackBytes →
    ReadsTo z D maxBytes f raw (.ok r)

/-- **The loop over the chunks**, by induction on them: each is one call. -/
theorem readChunks_live (hz : z.Reports D) (t : HostTables) (reply : Reply)
    {chunks : List (Seconds × Bytes)} (hclock : InTime deadline chunks) {raw buf : Bytes} {n : ℕ}
    {s : z.State}
    (h : Live z D maxBytes f raw buf s)
    (hslack : n + (rawBytes chunks).length ≤ maxBytes + rawSlackBytes) :
    ReadsTo z D maxBytes f (raw ++ rawBytes chunks)
      (readChunks t z reply maxBytes deadline none chunks ⟨buf, n, some (some s)⟩) := by
  induction chunks generalizing raw buf n s with
  | nil =>
    rw [show rawBytes [] = [] from rfl, List.append_nil] at *
    exact .live rfl h (by omega)
  | cons c rest ih =>
    obtain ⟨now, chunk⟩ := c
    rw [rawBytes_cons] at hslack ⊢
    rw [List.length_append] at hslack
    rw [← List.append_assoc]
    have hnow : ¬ deadline < now := hclock _ List.mem_cons_self
    have hafter := inflate_after hz h chunk
    generalize hx : inflate z (maxBytes + 1) s chunk buf = x at hafter
    cases hafter with
    | failed m hearly =>
      rw [readChunks_of_error hnow hx]
      exact .failed _ hearly.mono
    | @full buf' s' hno hfull hbegins =>
      rw [readChunks_of_ok hnow hx, if_pos (.inr (.inl hfull))]
      exact .full (List.prefix_append _ _) hno hfull hbegins
    | @ended buf' s' heof hended hout hlen =>
      rw [readChunks_of_ok hnow hx, if_pos (.inl heof)]
      obtain ⟨houtput, hstatus, -⟩ :=
        D.stop f (raw ++ chunk) (rawBytes rest) (by rw [hended]; decide)
      have hread : n + chunk.length ≤ maxBytes + rawSlackBytes := by omega
      exact .ended rfl heof (hstatus.trans hended) (hout.trans houtput.symm) hlen hread
    | @live buf' s' hlive =>
      have hgo : ¬ (z.eof s' = true ∨ maxBytes < buf'.length ∨
          maxBytes + rawSlackBytes < n + chunk.length) := by
        rintro (heof | hfull | hslack')
        · rw [hlive.eof] at heof
          cases heof
        · exact absurd hlive.room (by omega)
        · omega
      rw [readChunks_of_ok hnow hx, if_neg hgo]
      exact ih (fun c hc => hclock c (List.mem_cons_of_mem _ hc)) hlive (by omega)

/-- Without a decoder nothing fails. -/
theorem readChunks_plain (t : HostTables) (z : Zlib) (reply : Reply)
    {chunks : List (Seconds × Bytes)} (hclock : InTime deadline chunks) (raw : Bytes) {n : ℕ}
    (hslack : n + (rawBytes chunks).length ≤ maxBytes + rawSlackBytes) :
    ∃ r : Reading z,
      readChunks t z reply maxBytes deadline none chunks ⟨raw, n, some none⟩ = .ok r ∧
        r.decoder = some none ∧ r.rawRead ≤ maxBytes + rawSlackBytes ∧
          r.buf <+: raw ++ rawBytes chunks ∧
            (r.buf = raw ++ rawBytes chunks ∨ maxBytes < r.buf.length) := by
  induction chunks generalizing raw n with
  | nil =>
    have hread : n ≤ maxBytes + rawSlackBytes := Nat.le_of_add_right_le hslack
    have hraw : raw = raw ++ rawBytes [] := (List.append_nil raw).symm
    exact ⟨⟨raw, n, some none⟩, rfl, rfl, hread, hraw ▸ List.prefix_refl raw, .inl hraw⟩
  | cons c rest ih =>
    obtain ⟨now, chunk⟩ := c
    rw [rawBytes_cons, List.length_append] at hslack
    have hnow : ¬ deadline < now := hclock _ List.mem_cons_self
    have hchunk : readChunk t z reply maxBytes ⟨raw, n, some none⟩ chunk =
        .ok (⟨raw ++ chunk, n + chunk.length, some none⟩,
          !(decide (maxBytes < (raw ++ chunk).length) ||
            decide (maxBytes + rawSlackBytes < n + chunk.length))) := rfl
    have hread : decide (maxBytes + rawSlackBytes < n + chunk.length) = false :=
      decide_eq_false (by omega)
    rw [hread, Bool.or_false] at hchunk
    rw [readChunks, if_neg hnow, hchunk, rawBytes_cons, ← List.append_assoc]
    by_cases hfull : maxBytes < (raw ++ chunk).length
    · rw [decide_eq_true hfull]
      exact ⟨⟨raw ++ chunk, n + chunk.length, some none⟩, rfl, rfl, Nat.le_of_add_right_le
        (by rw [Nat.add_assoc]; exact hslack), List.prefix_append _ _, .inr hfull⟩
    · rw [decide_eq_false hfull]
      exact ih (fun c hc => hclock c (List.mem_cons_of_mem _ hc)) _ (by omega)

/-- The first chunk starts the decoder. -/
theorem readChunks_first (z : Zlib) (maxBytes : ℕ) (deadline : Seconds)
    (ending : Option ClientError) (now : Seconds) {chunk : Bytes} (rest : List (Seconds × Bytes))
    {format : Option Format} (hformat : decompressor t reply chunk = .ok format) :
    readChunks t z reply maxBytes deadline ending ((now, chunk) :: rest) ⟨[], 0, none⟩ =
      readChunks t z reply maxBytes deadline ending ((now, chunk) :: rest)
        ⟨[], 0, some (format.map z.start)⟩ := by
  have hchoose : chooseDecoder t z reply chunk none =
      chooseDecoder t z reply chunk (some (format.map z.start)) := by
    show (decompressor t reply chunk).map _ = .ok _
    rw [hformat]
    rfl
  rw [readChunks, readChunks, readChunk, readChunk, hchoose]

/-! ### The result -/

section Body

variable {d : Decoding} {wire : Wire}

/-- Nothing is wrong with the declared length. -/
def LengthPasses (d : Decoding) (reply : Reply) (maxBytes : ℕ) (truncate : Bool) : Prop :=
  declaredTooLarge d (headerText "content-length".toList reply) maxBytes truncate = .ok false

theorem readBody_of_error (hlength : LengthPasses d reply maxBytes truncate) {e : BodyError}
    (h : readChunks t d.zlib reply maxBytes deadline wire.ending wire.chunks ⟨[], 0, none⟩ =
      .error e) : readBody t d wire reply maxBytes deadline truncate = .error e := by
  rw [readBody, hlength, h]
  rfl

theorem readBody_of_ok (hlength : LengthPasses d reply maxBytes truncate) {r : Reading d.zlib}
    (h : readChunks t d.zlib reply maxBytes deadline wire.ending wire.chunks ⟨[], 0, none⟩ =
      .ok r) (hflush : flushed d.zlib maxBytes r = .ok r.buf) :
    readBody t d wire reply maxBytes deadline truncate =
      if maxBytes < r.buf.length ∨ maxBytes + rawSlackBytes < r.rawRead then
        if truncate then .ok (r.buf.take maxBytes, true) else .error .responseTooLarge
      else .ok (r.buf, false) := by
  rw [readBody, hlength, h]
  simp only [bind, Except.bind, hflush, Bool.or_eq_true, decide_eq_true_eq]
  rfl

/-- A full buffer is not flushed, and is too large. -/
theorem readBody_of_full (hlength : LengthPasses d reply maxBytes truncate) {r : Reading d.zlib}
    (h : readChunks t d.zlib reply maxBytes deadline wire.ending wire.chunks ⟨[], 0, none⟩ =
      .ok r) (hfull : maxBytes < r.buf.length) {content : Bytes} (hbegins : r.buf <+: content) :
    readBody t d wire reply maxBytes deadline truncate = capped maxBytes truncate content := by
  have hflush : flushed d.zlib maxBytes r = .ok r.buf := by
    rw [flushed]
    cases r.object with
    | none => rfl
    | some s =>
      have hle : decide (r.buf.length ≤ maxBytes) = false := decide_eq_false (by omega)
      simp only [hle, Bool.false_and, Bool.false_eq_true, if_false]
  rw [readBody_of_ok hlength h hflush, if_pos (.inl hfull), capped_full hfull hbegins]

/-- A whole body is flushed, if there is something to flush. -/
theorem readBody_of_whole (hlength : LengthPasses d reply maxBytes truncate)
    {r : Reading d.zlib}
    (h : readChunks t d.zlib reply maxBytes deadline wire.ending wire.chunks ⟨[], 0, none⟩ =
      .ok r) (hflush : flushed d.zlib maxBytes r = .ok r.buf) (hroom : r.buf.length ≤ maxBytes)
    (hslack : r.rawRead ≤ maxBytes + rawSlackBytes) :
    readBody t d wire reply maxBytes deadline truncate = capped maxBytes truncate r.buf := by
  rw [readBody_of_ok hlength h hflush, if_neg (by omega), capped, if_pos hroom]

end Body

theorem Live.flushed (hz : z.Reports D) {raw : Bytes} {r : Reading z} {s : z.State}
    (hd : r.decoder = some (some s)) (h : Live z D maxBytes f raw r.buf s) :
    flushed z maxBytes r = .ok r.buf := by
  obtain ⟨rest, hrest⟩ := hz.flush_ok h.fed h.eof (by
    rw [h.tail, List.append_nil]
    exact h.status)
  have hnil := hz.flush h.fed h.eof hrest
  rw [h.tail, List.append_nil, ← h.output] at hnil
  have hgo : (decide (r.buf.length ≤ maxBytes) && !z.eof s) = true := by
    rw [h.eof, decide_eq_true h.room]
    rfl
  rw [SafeHttp.flushed, Reading.object, hd]
  simp only [Option.join_some]
  rw [if_pos hgo, hrest]
  show Except.ok (r.buf ++ rest) = _
  rw [hnil]

/-- The result for a format, given how the loop over the chunks ends. -/
theorem readBody_of_readsTo {d : Decoding} (wire : Wire) (hz : d.zlib.Reports D)
    (hlength : LengthPasses d reply maxBytes truncate) {raw : Bytes}
    (h : ReadsTo d.zlib D maxBytes f raw
      (readChunks t d.zlib reply maxBytes deadline wire.ending wire.chunks ⟨[], 0, none⟩)) :
    (readBody t d wire reply maxBytes deadline truncate).mapError BodyError.kind =
        outcome D maxBytes truncate (some f) raw ∨
      Borderline D maxBytes f raw ∧
        (readBody t d wire reply maxBytes deadline truncate).mapError BodyError.kind =
          capped maxBytes truncate (D.output f raw) := by
  have hwhole : ∀ r : Reading d.zlib, r.buf = D.output f raw → r.buf.length ≤ maxBytes →
      ¬ D.status f raw = .failed →
      capped maxBytes truncate r.buf = outcome D maxBytes truncate (some f) raw := by
    intro r hout hroom hstatus
    have hno : ¬ FailsEarly D maxBytes f raw := fun hearly => hstatus hearly.1
    rw [outcome, if_neg hno, hout]
  generalize hx : readChunks t d.zlib reply maxBytes deadline wire.ending wire.chunks
    ⟨[], 0, none⟩ = x at h
  cases h with
  | failed m hearly =>
    rw [readBody_of_error hlength hx, outcome, if_pos hearly]
    exact .inl rfl
  | @full r p hp hno hfull hbegins =>
    obtain ⟨more, rfl⟩ := hp
    rw [readBody_of_full hlength hx hfull (hbegins.trans (D.grow f p more)), capped_kind]
    by_cases hearly : FailsEarly D maxBytes f (p ++ more)
    · refine .inr ⟨⟨hearly, p, List.prefix_append _ _, ?_, ?_⟩, rfl⟩
      · intro hfailed
        -- the part fails where the body does
        obtain ⟨-, -, hreach⟩ := D.stop f p more (by rw [hfailed]; decide)
        exact hno ⟨hfailed, hreach ▸ hearly.2⟩
      · exact Nat.lt_of_lt_of_le hfull hbegins.length_le
    · rw [outcome, if_neg hearly]
      exact .inl rfl
  | @ended r s hd heof hended hout hroom hslack =>
    have hflush : flushed d.zlib maxBytes r = .ok r.buf := by
      rw [flushed, Reading.object, hd]
      simp only [Option.join_some, heof, Bool.not_true, Bool.and_false, Bool.false_eq_true,
        if_false]
    rw [readBody_of_whole hlength hx hflush hroom hslack, capped_kind]
    exact .inl (hwhole r hout hroom (by rw [hended]; decide))
  | @live r s hd hlive hslack =>
    rw [readBody_of_whole hlength hx (hlive.flushed hz hd) hlive.room hslack, capped_kind]
    exact .inl (hwhole r hlive.output hlive.room hlive.status)

/-- **The result is the outcome** for the format that the first chunk calls for; only in
a borderline case it may be the one of a body that is too large instead. -/
theorem readBody_kind {d : Decoding} (hz : d.zlib.Reports D)
    (hlength : LengthPasses d reply maxBytes truncate) {chunks : List (Seconds × Bytes)}
    (hclock : InTime deadline chunks)
    (hslack : (rawBytes chunks).length ≤ maxBytes + rawSlackBytes) {format : Option Format}
    (hchooses : Chooses t reply chunks format) :
    (readBody t d ⟨chunks, none⟩ reply maxBytes deadline truncate).mapError BodyError.kind =
        outcome D maxBytes truncate format (rawBytes chunks) ∨
      ∃ f, format = some f ∧ Borderline D maxBytes f (rawBytes chunks) ∧
        (readBody t d ⟨chunks, none⟩ reply maxBytes deadline truncate).mapError BodyError.kind =
          capped maxBytes truncate (D.output f (rawBytes chunks)) := by
  cases chunks with
  | nil =>
    have hflush : flushed d.zlib maxBytes ⟨[], 0, none⟩ = .ok [] := rfl
    rw [readBody_of_whole hlength (r := ⟨[], 0, none⟩) rfl hflush (Nat.zero_le _) (Nat.zero_le _)]
    refine .inl ?_
    cases format with
    | none => rfl
    | some f =>
      have hno : ¬ FailsEarly D maxBytes f [] := by
        rintro ⟨hfailed, -⟩
        rw [(D.nil f).2] at hfailed
        cases hfailed
      show _ = outcome D maxBytes truncate (some f) []
      rw [outcome, if_neg hno, (D.nil f).1]
      rfl
  | cons c rest =>
    obtain ⟨now, chunk⟩ := c
    have hfirst := readChunks_first d.zlib maxBytes deadline none now rest
      (hchooses now chunk rest rfl)
    cases format with
    | none =>
      have hplain := readChunks_plain t d.zlib reply hclock [] (n := 0) (by rwa [Nat.zero_add])
      obtain ⟨r, hread, hd, hslack', hbegins, hbuf⟩ := hplain
      rw [List.nil_append] at hbegins hbuf
      refine .inl ?_
      by_cases hfull : maxBytes < r.buf.length
      · rw [readBody_of_full hlength (hfirst.trans hread) hfull hbegins, capped_kind]
        rfl
      · have hflush : flushed d.zlib maxBytes r = .ok r.buf := by
          rw [flushed, Reading.object, hd]
          rfl
        rw [readBody_of_whole hlength (hfirst.trans hread) hflush (Nat.not_lt.mp hfull) hslack',
          capped_kind, hbuf.resolve_right hfull]
        rfl
    | some f =>
      have hlive := readChunks_live hz t reply hclock
        (live_start hz.toOutputs maxBytes f) (n := 0) (by rwa [Nat.zero_add])
      rw [List.nil_append] at hlive
      have hreads := hfirst.symm ▸ hlive
      rcases readBody_of_readsTo ⟨(now, chunk) :: rest, none⟩ hz hlength hreads with h | h
      · exact .inl h
      · exact .inr ⟨f, rfl, h⟩

/-! ### The choice of the decoder -/

theorem decompressor_cases (t : HostTables) (reply : Reply) :
    (∃ e, ∀ first, decompressor t reply first = .error e) ∨
      (∃ format, format ≠ some .wrapped ∧ ∀ first, decompressor t reply first = .ok format) ∨
        ∀ first, decompressor t reply first =
          .ok (some (if isWrapped first then .wrapped else .raw)) := by
  simp only [decompressor]
  generalize lower t.unicode (strip isSpace (headerText "content-encoding".toList reply)) = encoding
  by_cases hnone : encoding = [] ∨ encoding = "identity".toList
  · refine .inr (.inl ⟨none, by decide, fun first => ?_⟩)
    rw [if_pos hnone]
  · by_cases hgzip : encoding = "gzip".toList ∨ encoding = "x-gzip".toList
    · refine .inr (.inl ⟨some .gzip, by decide, fun first => ?_⟩)
      rw [if_neg hnone, if_pos hgzip]
    · by_cases hdeflate : encoding = "deflate".toList
      · refine .inr (.inr fun first => ?_)
        rw [if_neg hnone, if_neg hgzip, if_pos hdeflate]
      · refine .inl ⟨.client (.httpError ("unsupported content-encoding: ".toList ++ encoding)), ?_⟩
        intro first
        rw [if_neg hnone, if_neg hgzip, if_neg hdeflate]

theorem decompressor_ok {first : Bytes} {format : Option Format}
    (h : decompressor t reply first = .ok format) (first' : Bytes) :
    ∃ format', decompressor t reply first' = .ok format' := by
  rcases decompressor_cases t reply with ⟨e, herror⟩ | ⟨format', -, hsame⟩ | hdeflate
  · rw [herror] at h
    cases h
  · exact ⟨format', hsame first'⟩
  · exact ⟨_, hdeflate first'⟩

/-- Two bytes show whether there is a wrapper. -/
theorem isWrapped_eq {first raw : Bytes} (h : first <+: raw) (hlen : 2 ≤ first.length) :
    isWrapped first = isWrapped raw := by
  obtain ⟨more, rfl⟩ := h
  match first, hlen with
  | a :: b :: _, _ => rfl

/-- A wrapper shows in two bytes, not in one. -/
theorem decompressor_wrapped {raw : Bytes} (h : decompressor t reply raw = .ok (some .wrapped))
    (a : UInt8) : 2 ≤ raw.length ∧ decompressor t reply [a] = .ok (some .raw) := by
  rcases decompressor_cases t reply with ⟨e, herror⟩ | ⟨format', hne, hsame⟩ | hdeflate
  · rw [herror] at h
    cases h
  · rw [hsame] at h
    cases h
    exact absurd rfl hne
  · refine ⟨?_, hdeflate [a]⟩
    rw [hdeflate] at h
    match raw, h with
    | _ :: _ :: _, _ => exact Nat.le_add_left 2 _

/-- **The first chunk decides as the body does**, unless it is one byte of a body with a
wrapper. -/
theorem decompressor_first {first raw : Bytes} {format : Option Format}
    (h : decompressor t reply raw = .ok format) (hbegins : first <+: raw) (hne : first ≠ []) :
    decompressor t reply first = .ok format ∨
      first.length = 1 ∧ format = some .wrapped ∧ decompressor t reply first = .ok (some .raw) := by
  rcases decompressor_cases t reply with ⟨e, herror⟩ | ⟨format', -, hsame⟩ | hdeflate
  · rw [herror] at h
    cases h
  · rw [hsame] at h ⊢
    exact .inl h
  · rw [hdeflate] at h ⊢
    by_cases hlen : 2 ≤ first.length
    · rw [isWrapped_eq hbegins hlen]
      exact .inl h
    · have hone : first.length = 1 := by
        have hpos := List.length_pos_of_ne_nil hne
        omega
      have hno : isWrapped first = false := by
        obtain ⟨a, rfl⟩ := List.length_eq_one_iff.mp hone
        rfl
      rw [hno]
      by_cases hwrapped : isWrapped raw = true
      · rw [hwrapped] at h
        cases h
        exact .inr ⟨hone, rfl, rfl⟩
      · rw [Bool.eq_false_of_not_eq_true hwrapped] at h
        exact .inl h

end SafeHttp
