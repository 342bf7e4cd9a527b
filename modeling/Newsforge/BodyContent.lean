/-
What the body reader returns is the content of the body.

* `Agrees`, `SoFar` — the buffer holds what the decoder has returned for the bytes
  read so far;
* `Reads` — the states of the loop over the chunks;
* `DecoderCall` — a state of the loop over one chunk that a run comes to.

Main result: `readBody_sound`.
-/
import Newsforge.RequestErrors
import Newsforge.StoredZlib

open PyText Relation

namespace SafeHttp

variable {t : HostTables} {z : Zlib} {D : Decoder} {reply : Reply} {maxBytes : ℕ}
  {format : Option Format}

/-! ### One chunk -/

/-- The first chunk chooses the format. -/
def Chooses (t : HostTables) (reply : Reply) (chunks : List (Seconds × Bytes))
    (format : Option Format) : Prop :=
  ∀ now chunk rest, chunks = (now, chunk) :: rest → decompressor t reply chunk = .ok format

/-- The raw bytes of some chunks. -/
def rawBytes (chunks : List (Seconds × Bytes)) : Bytes := (chunks.map Prod.snd).flatten

/-- The chunks have one content. -/
theorem Chooses.content_eq {chunks : List (Seconds × Bytes)} {format' : Option Format}
    (h : Chooses t reply chunks format) (h' : Chooses t reply chunks format') :
    D.content format (rawBytes chunks) = D.content format' (rawBytes chunks) := by
  cases chunks with
  | nil => rw [rawBytes, List.map_nil, List.flatten_nil, D.content_nil, D.content_nil]
  | cons c rest =>
    have hformat : some format = some format' := by
      have h₁ := h c.1 c.2 rest rfl
      have h₂ := h' c.1 c.2 rest rfl
      rw [h₁, Except.ok.injEq] at h₂
      rw [h₂]
    rw [Option.some_inj.mp hformat]

/-- The buffer is what the bytes `raw` have given. -/
def Agrees (z : Zlib) (maxBytes : ℕ) (format : Option Format) (raw buf : Bytes)
    (decoder : Option z.State) : Prop :=
  match decoder with
  | none => format = none ∧ buf = raw
  | some s => ∃ f, format = some f ∧ z.Fed f raw buf s ∧ buf.length ≤ maxBytes + 1 ∧
    UsedUp z (maxBytes + 1) buf s

/-- The state of the loop after the bytes `raw`; before the first chunk there is no
decoder. -/
def SoFar (z : Zlib) (maxBytes : ℕ) (format : Option Format) (raw : Bytes) (r : Reading z) : Prop :=
  match r.decoder with
  | none => raw = [] ∧ r.buf = [] ∧ r.rawRead = 0
  | some decoder => Agrees z maxBytes format raw r.buf decoder

/-- What ends the loop. -/
def Stopped (maxBytes : ℕ) (r : Reading z) : Prop :=
  r.object.any z.eof = true ∨ maxBytes < r.buf.length ∨ maxBytes + rawSlackBytes < r.rawRead

theorem agrees_start (hz : z.Outputs D) (maxBytes : ℕ) (format : Option Format) :
    Agrees z maxBytes format [] [] (format.map z.start) := by
  cases format with
  | none => exact ⟨rfl, rfl⟩
  | some f => exact ⟨f, rfl, .start, Nat.zero_le _, fun _ _ => hz.tail_start f⟩

theorem chooseDecoder_agrees (hz : z.Outputs D) {raw chunk : Bytes} {r : Reading z}
    {decoder : Option z.State}
    (h : SoFar z maxBytes format raw r)
    (hfirst : r.decoder = none → decompressor t reply chunk = .ok format)
    (hchoose : chooseDecoder t z reply chunk r.decoder = .ok decoder) :
    Agrees z maxBytes format raw r.buf decoder := by
  rw [SoFar] at h
  cases hd : r.decoder with
  | none =>
    rw [hd] at h hchoose
    obtain ⟨rfl, hbuf, -⟩ := h
    rw [chooseDecoder, hfirst hd] at hchoose
    cases hchoose
    rw [hbuf]
    exact agrees_start hz maxBytes format
  | some d =>
    rw [hd] at h hchoose
    cases hchoose
    exact h

theorem extend_agrees (hz : z.Outputs D) {raw chunk buf buf' : Bytes}
    {decoder decoder' : Option z.State} (h : Agrees z maxBytes format raw buf decoder)
    (hextend : extend z maxBytes buf chunk decoder = .ok (buf', decoder')) :
    ∃ used data, raw ++ chunk = used ++ data ∧ Agrees z maxBytes format used buf' decoder' ∧
      (data = [] ∨ maxBytes < buf'.length ∨ decoder'.any z.eof = true) := by
  cases decoder with
  | none =>
    cases hextend
    obtain ⟨hformat, rfl⟩ := h
    exact ⟨buf ++ chunk, [], (List.append_nil _).symm, ⟨hformat, rfl⟩, .inl rfl⟩
  | some s =>
    obtain ⟨f, hformat, hfed, hroom, hsettled⟩ := h
    rw [extend] at hextend
    cases hinflate : inflate z (maxBytes + 1) s chunk buf with
    | error m =>
      rw [hinflate] at hextend
      cases hextend
    | ok r =>
      obtain ⟨buf₁, s'⟩ := r
      rw [hinflate] at hextend
      cases hextend
      obtain ⟨used, data, hall, hfed', hroom', hsettled', hstop⟩ :=
        inflate_fed hz hfed hroom hsettled hinflate
      exact ⟨used, data, hall, ⟨f, hformat, hfed', hroom', hsettled'⟩, hstop⟩

/-- The loop body, taken apart. -/
theorem readChunk_eq_ok {r r' : Reading z} {chunk : Bytes} {goes : Bool}
    (h : readChunk t z reply maxBytes r chunk = .ok (r', goes)) :
    ∃ decoder buf decoder', chooseDecoder t z reply chunk r.decoder = .ok decoder ∧
      extend z maxBytes r.buf chunk decoder = .ok (buf, decoder') ∧
        r' = ⟨buf, r.rawRead + chunk.length, some decoder'⟩ ∧
          (goes = true ↔ ¬ Stopped maxBytes r') := by
  rw [readChunk] at h
  cases hchoose : chooseDecoder t z reply chunk r.decoder with
  | error e =>
    rw [hchoose] at h
    cases h
  | ok decoder =>
    rw [hchoose] at h
    simp only [bind, Except.bind] at h
    cases hextend : extend z maxBytes r.buf chunk decoder with
    | error e =>
      rw [hextend] at h
      cases h
    | ok out =>
      obtain ⟨buf, decoder'⟩ := out
      rw [hextend] at h
      cases h
      refine ⟨decoder, buf, decoder', rfl, hextend, rfl, ?_⟩
      simp only [Stopped, Reading.object, Option.join_some, Bool.not_eq_true', Bool.or_eq_false_iff,
        decide_eq_false_iff_not, not_or, Bool.not_eq_true, and_assoc]

theorem readChunk_soFar (hz : z.Outputs D) {raw chunk : Bytes} {r r' : Reading z} {goes : Bool}
    (h : SoFar z maxBytes format raw r)
    (hfirst : r.decoder = none → decompressor t reply chunk = .ok format)
    (hread : readChunk t z reply maxBytes r chunk = .ok (r', goes)) :
    r'.decoder ≠ none ∧ (goes = true ↔ ¬ Stopped maxBytes r') ∧
      ∃ used data, raw ++ chunk = used ++ data ∧ SoFar z maxBytes format used r' ∧
        (data = [] ∨ Stopped maxBytes r') := by
  obtain ⟨decoder, buf, decoder', hchoose, hextend, rfl, hgoes⟩ := readChunk_eq_ok hread
  obtain ⟨used, data, hall, hagrees, hstop⟩ :=
    extend_agrees hz (chooseDecoder_agrees hz h hfirst hchoose) hextend
  refine ⟨Option.some_ne_none _, hgoes, used, data, hall, hagrees, ?_⟩
  rcases hstop with hnil | hfull | hend
  · exact .inl hnil
  · exact .inr (.inr (.inl hfull))
  · exact .inr (.inl hend)

/-! ### The chunks -/

/-- **What the loop over the chunks ends with**: all of the bytes have been used, or it
was stopped. -/
theorem readChunks_soFar (hz : z.Outputs D) {deadline : Seconds} {ending : Option ClientError}
    {chunks : List (Seconds × Bytes)} {raw : Bytes} {r r' : Reading z}
    (h : SoFar z maxBytes format raw r) (hfirst : r.decoder = none → Chooses t reply chunks format)
    (hread : readChunks t z reply maxBytes deadline ending chunks r = .ok r') :
    ∃ used data, raw ++ rawBytes chunks = used ++ data ∧ SoFar z maxBytes format used r' ∧
      (data = [] ∨ Stopped maxBytes r') := by
  induction chunks generalizing raw r with
  | nil =>
    cases ending with
    | some e => cases hread
    | none =>
      cases hread
      exact ⟨raw, [], rfl, h, .inl rfl⟩
  | cons c rest ih =>
    obtain ⟨now, chunk⟩ := c
    have hraw : raw ++ rawBytes ((now, chunk) :: rest) = raw ++ chunk ++ rawBytes rest := by
      simp [rawBytes]
    rw [hraw]
    rw [readChunks] at hread
    split at hread
    · cases hread
    cases hchunk : readChunk t z reply maxBytes r chunk with
    | error e => simp [hchunk] at hread
    | ok out =>
      obtain ⟨r₁, goes⟩ := out
      obtain ⟨hsome, hgoes, used, data, hall, hsofar, hdata⟩ :=
        readChunk_soFar hz h (fun hd => hfirst hd now chunk rest rfl) hchunk
      cases goes with
      | true =>
        have hnil := hdata.resolve_right (hgoes.mp rfl)
        rw [hnil, List.append_nil] at hall
        simp only [hchunk] at hread
        rw [hall]
        exact ih hsofar (fun hd => absurd hd hsome) hread
      | false =>
        simp only [hchunk] at hread
        cases hread
        have hstop : Stopped maxBytes r' := by
          by_contra hno
          exact Bool.false_ne_true (hgoes.mpr hno)
        exact ⟨used, data ++ rawBytes rest, by rw [hall, List.append_assoc], hsofar, .inr hstop⟩

/-- A body that is read has a format. -/
theorem exists_chooses {deadline : Seconds} {ending : Option ClientError}
    {chunks : List (Seconds × Bytes)} {r : Reading z}
    (hread : readChunks t z reply maxBytes deadline ending chunks ⟨[], 0, none⟩ = .ok r) :
    ∃ format, Chooses t reply chunks format := by
  cases chunks with
  | nil => exact ⟨none, fun _ _ _ h => by cases h⟩
  | cons c rest =>
    obtain ⟨now, chunk⟩ := c
    rw [readChunks] at hread
    split at hread
    · cases hread
    cases hchunk : readChunk t z reply maxBytes ⟨[], 0, none⟩ chunk with
    | error e => simp [hchunk] at hread
    | ok out =>
      obtain ⟨decoder, buf, decoder', hchoose, -, -, -⟩ := readChunk_eq_ok hchunk
      rw [chooseDecoder] at hchoose
      cases hformat : decompressor t reply chunk with
      | error e =>
        rw [hformat] at hchoose
        cases hchoose
      | ok format =>
        refine ⟨format, ?_⟩
        rintro _ _ _ ⟨rfl, rfl⟩
        exact hformat

/-! ### The states of the loops -/

section Loops

variable (t : HostTables) (z : Zlib) (reply : Reply) (maxBytes : ℕ) (deadline : Seconds)
  (chunks : List (Seconds × Bytes))

/-- The states of the loop over the chunks: the chunks that are left, and the
variables. -/
inductive Reads : List (Seconds × Bytes) → Reading z → Prop
  | start : Reads chunks ⟨[], 0, none⟩
  | next {now : Seconds} {chunk : Bytes} {rest : List (Seconds × Bytes)} {r r' : Reading z} :
    Reads ((now, chunk) :: rest) r → ¬ deadline < now →
    readChunk t z reply maxBytes r chunk = .ok (r', true) → Reads rest r'

/-- The states of the loop over one chunk: the object, the data and the buffer. -/
def DecoderCall (x : z.State × Bytes × Bytes) : Prop :=
  ∃ now chunk rest r s, Reads t z reply maxBytes deadline chunks ((now, chunk) :: rest) r ∧
    ¬ deadline < now ∧ chooseDecoder t z reply chunk r.decoder = .ok (some s) ∧
      ReflTransGen (InnerStep z (maxBytes + 1)) (s, chunk, r.buf) x

end Loops

variable {deadline : Seconds} {chunks : List (Seconds × Bytes)}

/-- What holds whenever the loop over the chunks comes to its head. -/
theorem Reads.soFar (hz : z.Outputs D) {rest : List (Seconds × Bytes)} {r : Reading z}
    (h : Reads t z reply maxBytes deadline chunks rest r) :
    (r.decoder = none ∧ rest = chunks ∧ r = ⟨[], 0, none⟩) ∨
      r.decoder ≠ none ∧ ∃ format used, Chooses t reply chunks format ∧
        SoFar z maxBytes format used r := by
  induction h with
  | start => exact .inl ⟨rfl, rfl, rfl⟩
  | @next now chunk rest r r' _ _ hread ih =>
    rcases ih with ⟨hnone, hrest, rfl⟩ | ⟨hsome, format, used, hchooses, hsofar⟩
    · -- the first chunk
      obtain ⟨decoder, buf, decoder', hchoose, -, -, -⟩ := readChunk_eq_ok hread
      rw [chooseDecoder] at hchoose
      cases hformat : decompressor t reply chunk with
      | error e =>
        rw [hformat] at hchoose
        cases hchoose
      | ok format =>
        have hstart : SoFar z maxBytes format [] ⟨[], 0, none⟩ := ⟨rfl, rfl, rfl⟩
        obtain ⟨hne, -, used, -, -, hsofar, -⟩ := readChunk_soFar hz hstart (fun _ => hformat) hread
        refine .inr ⟨hne, format, used, ?_, hsofar⟩
        rw [← hrest]
        rintro _ _ _ ⟨rfl, rfl⟩
        exact hformat
    · obtain ⟨hne, -, used', -, -, hsofar', -⟩ :=
        readChunk_soFar hz hsofar (fun hnone => absurd hnone hsome) hread
      exact .inr ⟨hne, format, used', hchooses, hsofar'⟩

/-- **The cap holds at every call**: the buffer is at most one byte over it. -/
theorem decoderCall_length (hz : z.Outputs D) {x : z.State × Bytes × Bytes}
    (h : DecoderCall t z reply maxBytes deadline chunks x) : x.2.2.length ≤ maxBytes + 1 := by
  obtain ⟨now, chunk, rest, r, s, hreads, -, hchoose, hsteps⟩ := h
  have hagrees : ∃ format used, Agrees z maxBytes format used r.buf (some s) := by
    rcases hreads.soFar hz with ⟨-, -, rfl⟩ | ⟨hsome, format, used, -, hsofar⟩
    · cases hformat : decompressor t reply chunk with
      | error e =>
        rw [chooseDecoder, hformat] at hchoose
        cases hchoose
      | ok format =>
        have hstart : SoFar z maxBytes format [] ⟨[], 0, none⟩ := ⟨rfl, rfl, rfl⟩
        have hchoose' : chooseDecoder t z reply chunk none = .ok (some s) := hchoose
        exact ⟨format, [], chooseDecoder_agrees hz hstart (fun _ => hformat) hchoose'⟩
    · exact ⟨format, used, chooseDecoder_agrees hz hsofar (fun hnone => absurd hnone hsome) hchoose⟩
  obtain ⟨format, used, f, -, hfed, hroom, hsettled⟩ := hagrees
  have hinv : InnerInv z f (maxBytes + 1) (used ++ chunk) (s, chunk, r.buf) :=
    ⟨⟨used, rfl, hfed⟩, hroom, fun _ => hsettled⟩
  exact (hinv.steps hz hsteps).room

/-! ### What is returned -/

theorem readBody_eq_ok {d : Decoding} {wire : Wire} {truncate truncated : Bool} {b : Bytes}
    (h : readBody t d wire reply maxBytes deadline truncate = .ok (b, truncated)) :
    ∃ r buf, readChunks t d.zlib reply maxBytes deadline wire.ending wire.chunks ⟨[], 0, none⟩ =
        .ok r ∧ flushed d.zlib maxBytes r = .ok buf ∧
      (truncated = true ∧ truncate = true ∧ b = buf.take maxBytes ∨
        truncated = false ∧ b = buf ∧ buf.length ≤ maxBytes ∧
          r.rawRead ≤ maxBytes + rawSlackBytes) := by
  rw [readBody] at h
  split at h
  · cases h
  · cases h
  · cases hread : readChunks t d.zlib reply maxBytes deadline wire.ending wire.chunks
        ⟨[], 0, none⟩ with
    | error e => simp [hread, bind, Except.bind] at h
    | ok r =>
      cases hflush : flushed d.zlib maxBytes r with
      | error e => simp [hread, hflush, bind, Except.bind] at h
      | ok buf =>
        refine ⟨r, buf, rfl, hflush, ?_⟩
        simp only [hread, hflush, bind, Except.bind] at h
        split at h
        · split at h
          · rename_i htruncate
            cases h
            exact .inl ⟨rfl, htruncate, rfl⟩
          · cases h
        · rename_i hroom
          cases h
          rw [Bool.or_eq_true, not_or, decide_eq_true_eq, decide_eq_true_eq] at hroom
          exact .inr ⟨rfl, rfl, by omega, by omega⟩

/-- The buffer behind the flush is output of what has been used: all of it, unless it
is over the cap.  Behind the end of the stream there is nothing more. -/
theorem flushed_soFar (hz : z.Outputs D) {used : Bytes} {r : Reading z} {buf : Bytes}
    (h : SoFar z maxBytes format used r) (hflush : flushed z maxBytes r = .ok buf) :
    buf <+: D.content format used ∧ r.buf.length ≤ buf.length ∧
      (buf.length ≤ maxBytes → buf = D.content format used) ∧
        (r.object.any z.eof = true → ∀ data, D.content format (used ++ data) = buf) := by
  rw [flushed] at hflush
  rw [SoFar] at h
  rw [Reading.object] at hflush ⊢
  cases hd : r.decoder with
  | none =>
    rw [hd] at h hflush
    obtain ⟨rfl, hbuf, -⟩ := h
    cases hflush
    have hnil := D.content_nil format
    exact ⟨hbuf ▸ List.nil_prefix, Nat.le_refl _, fun _ => hbuf.trans hnil.symm,
      fun h => by cases h⟩
  | some decoder =>
    rw [hd] at h hflush
    cases decoder with
    | none =>
      obtain ⟨rfl, rfl⟩ := h
      cases hflush
      exact ⟨List.prefix_refl _, Nat.le_refl _, fun _ => rfl, fun h => by cases h⟩
    | some s =>
      obtain ⟨f, rfl, hfed, hroom, hsettled⟩ := h
      show buf <+: D.output f used ∧ _ ∧ (_ → buf = D.output f used) ∧
        (z.eof s = true → ∀ data, D.output f (used ++ data) = buf)
      simp only [Option.join_some] at hflush
      split at hflush
      · rename_i hopen
        rw [Bool.and_eq_true, Bool.not_eq_true', decide_eq_true_eq] at hopen
        cases hrest : z.flush s with
        | error m =>
          rw [hrest] at hflush
          cases hflush
        | ok rest =>
          rw [hrest] at hflush
          cases hflush
          have hall := hz.flush hfed hopen.2 hrest
          rw [hsettled (Nat.lt_succ_of_le hopen.1) hopen.2, List.append_nil] at hall
          refine ⟨hall ▸ List.prefix_refl _, ?_, fun _ => hall, fun heof => ?_⟩
          · rw [List.length_append]
            omega
          · rw [hopen.2] at heof
            cases heof
      · rename_i hclosed
        cases hflush
        rw [Bool.and_eq_true, Bool.not_eq_true', decide_eq_true_eq, not_and,
          Bool.not_eq_false] at hclosed
        refine ⟨hz.output hfed, Nat.le_refl _, fun hle => (hz.eof hfed (hclosed hle)).2, ?_⟩
        intro heof data
        obtain ⟨hended, hout⟩ := hz.eof hfed heof
        rw [(D.stop f used data (by rw [hended]; decide)).1, hout]

/-- **What is returned is the content**, or a beginning of it. -/
theorem readBody_content {d : Decoding} (hz : d.zlib.Outputs D) {wire : Wire}
    {truncate truncated : Bool} {b : Bytes}
    (h : readBody t d wire reply maxBytes deadline truncate = .ok (b, truncated)) :
    b.length ≤ maxBytes ∧ ∃ format, Chooses t reply wire.chunks format ∧
      b <+: D.content format (rawBytes wire.chunks) ∧
        (truncated = true → truncate = true) ∧
          (truncated = false → b = D.content format (rawBytes wire.chunks)) := by
  obtain ⟨r, buf, hread, hflush, hend⟩ := readBody_eq_ok h
  obtain ⟨format, hchooses⟩ := exists_chooses hread
  have hstart : SoFar d.zlib maxBytes format [] ⟨[], 0, none⟩ := ⟨rfl, rfl, rfl⟩
  obtain ⟨used, data, hraw, hsofar, hdata⟩ := readChunks_soFar hz hstart (fun _ => hchooses) hread
  rw [List.nil_append] at hraw
  obtain ⟨hbegins, hgrow, hall, hended⟩ := flushed_soFar hz hsofar hflush
  have hcontent : buf <+: D.content format (rawBytes wire.chunks) := by
    rw [hraw]
    exact hbegins.trans (D.content_grow format used data)
  rcases hend with ⟨rfl, htruncate, rfl⟩ | ⟨rfl, rfl, hroom, hraws⟩
  · refine ⟨List.length_take_le _ _, format, hchooses, (List.take_prefix _ _).trans hcontent,
      fun _ => htruncate, Bool.noConfusion⟩
  · refine ⟨hroom, format, hchooses, hcontent, Bool.noConfusion, fun _ => ?_⟩
    rcases hdata with rfl | heof | hfull | hslack
    · rw [hraw, List.append_nil]
      exact hall hroom
    · rw [hraw]
      exact (hended heof data).symm
    · exact absurd hroom (by omega)
    · exact absurd hraws (by omega)

/-- **The body reader is sound.**  The loop over a chunk terminates; at each of its
states the buffer is at most one byte over the cap, and a call has a positive limit; what
is returned as the whole body is the content of it, within the cap, and what is returned
as truncated is a beginning; a larger content is never returned as whole. -/
theorem readBody_sound {d : Decoding} (hz : d.zlib.Outputs D) (t : HostTables) (wire : Wire)
    (reply : Reply) (maxBytes : ℕ) (deadline : Seconds) (truncate : Bool) :
    WellFounded (fun y x => InnerStep d.zlib (maxBytes + 1) x y) ∧
      (∀ x, DecoderCall t d.zlib reply maxBytes deadline wire.chunks x →
        x.2.2.length ≤ maxBytes + 1 ∧
          (Guard d.zlib (maxBytes + 1) x → 0 < maxBytes + 1 - x.2.2.length)) ∧
      (∀ b, readBody t d wire reply maxBytes deadline truncate = .ok (b, false) →
        b.length ≤ maxBytes ∧ ∃ format, Chooses t reply wire.chunks format ∧
          b = D.content format (rawBytes wire.chunks)) ∧
      (∀ b, readBody t d wire reply maxBytes deadline truncate = .ok (b, true) →
        truncate = true ∧ b.length ≤ maxBytes ∧ ∃ format, Chooses t reply wire.chunks format ∧
          b <+: D.content format (rawBytes wire.chunks)) ∧
      ∀ format, Chooses t reply wire.chunks format →
        maxBytes < (D.content format (rawBytes wire.chunks)).length →
        ∀ b, readBody t d wire reply maxBytes deadline truncate ≠ .ok (b, false) := by
  refine ⟨wellFounded_innerStep _ _, ?_, ?_, ?_, ?_⟩
  · intro x hx
    refine ⟨decoderCall_length hz hx, ?_⟩
    rintro ⟨-, hroom, -⟩
    exact Nat.sub_pos_of_lt hroom
  · intro b h
    obtain ⟨hlen, format, hchooses, -, -, hall⟩ := readBody_content hz h
    exact ⟨hlen, format, hchooses, hall rfl⟩
  · intro b h
    obtain ⟨hlen, format, hchooses, hbegins, htruncate, -⟩ := readBody_content hz h
    exact ⟨htruncate rfl, hlen, format, hchooses, hbegins⟩
  · intro format hchooses hlarge b h
    obtain ⟨hlen, format', hchooses', -, -, hall⟩ := readBody_content hz h
    rw [hall rfl, Chooses.content_eq hchooses' hchooses] at hlen
    omega

/-- One byte is too many for an empty body. -/
theorem readBody_sound_sample : ¬ ∃ b, readBody asciiTables storedDecoding
    ⟨[(0, [0x78, 0x01, 0x01]), (1, storedA.drop 3)], none⟩ deflated 0 1 true = .ok (b, false) := by
  obtain ⟨-, -, -, -, hlarge⟩ := readBody_sound (d := storedDecoding) storedZlib_reports.toOutputs
    asciiTables ⟨[(0, [0x78, 0x01, 0x01]), (1, storedA.drop 3)], none⟩ deflated 0 1 true
  rintro ⟨b, hb⟩
  refine hlarge (some .wrapped) ?_ (by decide) b hb
  rintro now chunk rest hchunks
  cases hchunks
  decide

end SafeHttp
