/-
Which bodies are read as a whole, and which in one way however they are cut.

* `CompleteBody`, `LengthAgrees` — valid bodies within the cap, and their declared
  length;
* `IsCut`, `CutsAgree` — ways of cutting the raw bytes into chunks, and bytes that are
  read in one way for all of them.

Main results: `readBody_whole_iff`, `readBody_cut_iff`.
-/
import Newsforge.BodyOutcome

open PyText

namespace SafeHttp

variable {t : HostTables} {z : Zlib} {D : Decoder} {reply : Reply} {maxBytes : ℕ}
  {truncate : Bool} {deadline : Seconds} {f : Format}

/-! ### Whole bodies -/

/-- The format is one of those that the content-encoding stands for. -/
def Encodes (t : HostTables) (reply : Reply) (format : Option Format) : Prop :=
  ∃ first, decompressor t reply first = .ok format

/-- A complete and valid body, whose content is within the cap. -/
structure CompleteBody (D : Decoder) (maxBytes : ℕ) (format : Option Format) (raw : Bytes) :
    Prop where
  ended : ∀ f, format = some f → D.status f raw = .ended
  room : (D.content format raw).length ≤ maxBytes

/-- There is no `Content-Length`, or it is the number of raw bytes. -/
def LengthAgrees (d : Decoding) (reply : Reply) (n : ℕ) : Prop :=
  let declared := headerText "content-length".toList reply
  declared = [] ∨ isdigit d declared = true ∧ int d declared = .ok n

theorem lengthPasses_iff {d : Decoding} {n : ℕ} (h : LengthAgrees d reply n) :
    LengthPasses d reply maxBytes false ↔
      headerText "content-length".toList reply = [] ∨ n ≤ maxBytes := by
  rw [LengthPasses, declaredTooLarge]
  rw [LengthAgrees] at h
  generalize headerText "content-length".toList reply = declared at h ⊢
  by_cases hnil : declared = []
  · rw [hnil]
    exact iff_of_true rfl (.inl rfl)
  · obtain ⟨hdigit, hint⟩ := h.resolve_left hnil
    have hpresent : (!declared.isEmpty && isdigit d declared) = true := by
      simp [hnil, hdigit]
    rw [if_pos hpresent, hint]
    simp [hnil]

theorem lengthPasses_of_ok {d : Decoding} {wire : Wire} {result : Bytes × Bool}
    (h : readBody t d wire reply maxBytes deadline truncate = .ok result) :
    LengthPasses d reply maxBytes truncate := by
  rw [readBody] at h
  split at h
  · cases h
  · cases h
  · assumption

theorem outcome_eq_whole_iff {format : Option Format} {raw b : Bytes} :
    outcome D maxBytes truncate format raw = .ok (b, false) ↔
      (∀ f, format = some f → D.status f raw ≠ .failed) ∧
        D.content format raw = b ∧ b.length ≤ maxBytes := by
  have hcapped : ∀ content, capped maxBytes truncate content = .ok (b, false) ↔
      content = b ∧ b.length ≤ maxBytes := by
    intro content
    rw [capped]
    by_cases hroom : content.length ≤ maxBytes
    · rw [if_pos hroom]
      constructor
      · intro h
        cases h
        exact ⟨rfl, hroom⟩
      · rintro ⟨rfl, -⟩
        rfl
    · rw [if_neg hroom]
      refine iff_of_false ?_ ?_
      · intro h
        split at h <;> cases h
      · rintro ⟨rfl, hroom'⟩
        exact hroom hroom'
  cases format with
  | none =>
    refine (hcapped raw).trans ?_
    exact ⟨fun h => ⟨fun f hf => (by cases hf), h⟩, fun h => h.2⟩
  | some f =>
    rw [outcome]
    by_cases hfailed : D.status f raw = .failed
    · refine iff_of_false ?_ ?_
      · by_cases hearly : FailsEarly D maxBytes f raw
        · rw [if_pos hearly]
          intro h
          cases h
        · rw [if_neg hearly, hcapped]
          rintro ⟨rfl, hroom⟩
          exact hearly (failsEarly_of_room hfailed hroom)
      · rintro ⟨hok, -⟩
        exact hok f rfl hfailed
    · rw [if_neg fun hearly => hfailed hearly.1, hcapped]
      refine ⟨fun h => ⟨?_, h⟩, fun h => h.2⟩
      rintro _ ⟨⟩
      exact hfailed

theorem eq_ok_of_mapError {α ε ε' : Type*} {x : Except ε α} {g : ε → ε'} {a : α} :
    x.mapError g = .ok a ↔ x = .ok a := by
  cases x with
  | error e =>
    refine iff_of_false ?_ ?_ <;> intro h <;> cases h
  | ok b =>
    constructor <;> intro h <;> cases h <;> rfl

/-- **Which complete bodies are read as a whole**: those with no declared length over
the cap, and in the format that their first chunk calls for. -/
theorem readBody_whole_iff {d : Decoding} (hz : d.zlib.Reports D) (t : HostTables) (reply : Reply)
    (maxBytes : ℕ) (deadline : Seconds) {chunks : List (Seconds × Bytes)}
    (hclock : InTime deadline chunks)
    (hslack : (rawBytes chunks).length ≤ maxBytes + rawSlackBytes) {meant : Option Format}
    (hencodes : Encodes t reply meant) (hbody : CompleteBody D maxBytes meant (rawBytes chunks))
    (hlength : LengthAgrees d reply (rawBytes chunks).length) :
    readBody t d ⟨chunks, none⟩ reply maxBytes deadline false =
        .ok (D.content meant (rawBytes chunks), false) ↔
      (headerText "content-length".toList reply = [] ∨ (rawBytes chunks).length ≤ maxBytes) ∧
        ∀ format, Chooses t reply chunks format →
          (∀ f, format = some f → D.status f (rawBytes chunks) ≠ .failed) ∧
            D.content format (rawBytes chunks) = D.content meant (rawBytes chunks) := by
  rw [← lengthPasses_iff hlength]
  constructor
  · intro h
    have hpasses := lengthPasses_of_ok h
    refine ⟨hpasses, ?_⟩
    intro format hchooses
    rcases readBody_kind hz hpasses hclock hslack hchooses with houtcome | ⟨f, rfl, hborder, hkind⟩
    · rw [h] at houtcome
      obtain ⟨hstatus, hcontent, -⟩ := outcome_eq_whole_iff.mp houtcome.symm
      exact ⟨hstatus, hcontent⟩
    · rw [h, capped, if_neg (Nat.not_le.mpr hborder.lt_length)] at hkind
      cases hkind
  · rintro ⟨hpasses, hall⟩
    have hformat : ∃ format, Chooses t reply chunks format := by
      cases chunks with
      | nil => exact ⟨none, fun _ _ _ h => by cases h⟩
      | cons c rest =>
        obtain ⟨first, hfirst⟩ := hencodes
        obtain ⟨format, hformat⟩ := decompressor_ok hfirst c.2
        refine ⟨format, ?_⟩
        rintro now chunk rest' hchunks
        cases hchunks
        exact hformat
    obtain ⟨format, hchooses⟩ := hformat
    obtain ⟨hstatus, hcontent⟩ := hall format hchooses
    rcases readBody_kind hz hpasses hclock hslack hchooses with houtcome | ⟨f, hf, hborder, -⟩
    · rw [outcome_eq_whole_iff.mpr ⟨hstatus, hcontent, hbody.room⟩] at houtcome
      exact eq_ok_of_mapError.mp houtcome
    · exact absurd hborder.1.1 (hstatus f hf)

/-- Twelve raw bytes, and a cap that they are under. -/
theorem readBody_whole_iff_sample : readBody asciiTables storedDecoding
    ⟨[(0, [0x78, 0x01, 0x01]), (1, storedA.drop 3)], none⟩
    ⟨200, ("Content-Length".toList, "12".toList) :: deflated.headers⟩ 20 1 false =
      .ok ([0x61], false) := by
  have hencodes : Encodes asciiTables
      ⟨200, ("Content-Length".toList, "12".toList) :: deflated.headers⟩ (some .wrapped) :=
    ⟨storedA, by decide⟩
  refine (readBody_whole_iff (d := storedDecoding) storedZlib_reports asciiTables _ 20 1
    (by unfold InTime; decide) (by decide) hencodes ⟨?_, by decide⟩
    (.inr ⟨by decide, by decide⟩)).mpr ⟨.inr (by decide), ?_⟩
  · rintro _ ⟨⟩
    decide
  · intro format hchooses
    have hformat := hchooses _ _ _ rfl
    cases hformat
    refine ⟨?_, rfl⟩
    rintro _ ⟨⟩
    decide

/-- The sample in one piece. -/
theorem readBody_storedA (hroom : 1 ≤ maxBytes) :
    readBody asciiTables storedDecoding ⟨[(0, storedA)], none⟩ deflated maxBytes 1 false =
      .ok ([0x61], false) := by
  have hclock : InTime 1 [(0, storedA)] := by
    rintro _ hc
    rw [List.mem_singleton.mp hc]
    decide
  have hslack : (rawBytes [(0, storedA)]).length ≤ maxBytes + rawSlackBytes :=
    Nat.le_add_left_of_le (by decide)
  have hchooses : Chooses asciiTables deflated [(0, storedA)] (some .wrapped) := by
    rintro _ _ _ ⟨rfl, rfl⟩
    decide
  have hstatus : ∀ f, some Format.wrapped = some f → storedDecoder.status f storedA ≠ .failed := by
    rintro _ ⟨⟩
    decide
  have houtcome : outcome storedDecoder maxBytes false (some .wrapped) storedA =
      .ok ([0x61], false) := outcome_eq_whole_iff.mpr ⟨hstatus, by decide, hroom⟩
  have hlength : LengthPasses storedDecoding deflated maxBytes false := rfl
  rcases readBody_kind storedZlib_reports hlength hclock hslack hchooses with
    h | ⟨f, hf, hborder, -⟩
  · exact eq_ok_of_mapError.mp (h.trans houtcome)
  · exact absurd hborder.1.1 (hstatus f hf)

/-- **The declared length is compared with the cap of the content**: twelve raw bytes
whose content is one byte are too large for a cap of one byte, if their number is
declared. -/
theorem declared_length_has_no_slack :
    CompleteBody storedDecoder 1 (some .wrapped) storedA ∧
      readBody asciiTables storedDecoding ⟨[(0, storedA)], none⟩
        ⟨200, ("Content-Length".toList, "12".toList) :: deflated.headers⟩ 1 1 false =
          .error .responseTooLarge ∧
      readBody asciiTables storedDecoding ⟨[(0, storedA)], none⟩ deflated 1 1 false =
        .ok ([0x61], false) := by
  refine ⟨⟨?_, by decide⟩, rfl, readBody_storedA (Nat.le_refl 1)⟩
  rintro _ ⟨⟩
  decide

/-! ### Two cuts of one body -/

/-- A way of cutting the raw bytes into non-empty chunks, all in time. -/
structure IsCut (deadline : Seconds) (raw : Bytes) (chunks : List (Seconds × Bytes)) : Prop where
  bytes : rawBytes chunks = raw
  nonempty : ∀ c ∈ chunks, c.2 ≠ []
  clock : InTime deadline chunks

theorem isCut_map {raw : Bytes} (pieces : List Bytes) (hraw : pieces.flatten = raw)
    (hpieces : ∀ p ∈ pieces, p ≠ []) :
    IsCut deadline raw (pieces.map fun p => (deadline, p)) where
  bytes := by
    rw [rawBytes, List.map_map, ← hraw]
    exact congrArg List.flatten (List.map_id pieces)
  nonempty := by
    intro c hc
    obtain ⟨p, hp, rfl⟩ := List.mem_map.mp hc
    exact hpieces p hp
  clock := by
    intro c hc
    obtain ⟨p, -, rfl⟩ := List.mem_map.mp hc
    exact Int.lt_irrefl deadline

/-- The first chunk of a cut. -/
theorem IsCut.chooses {raw : Bytes} {chunks : List (Seconds × Bytes)} {format : Option Format}
    (h : IsCut deadline raw chunks) (hformat : decompressor t reply raw = .ok format) :
    Chooses t reply chunks format ∨
      format = some .wrapped ∧ Chooses t reply chunks (some .raw) := by
  cases chunks with
  | nil => exact .inl fun _ _ _ h => by cases h
  | cons c rest =>
    obtain ⟨now, chunk⟩ := c
    have hbegins : chunk <+: raw := h.bytes ▸ List.prefix_append chunk (rawBytes rest)
    have hne : chunk ≠ [] := h.nonempty _ List.mem_cons_self
    rcases decompressor_first hformat hbegins hne with hsame | ⟨-, hwrapped, hraw⟩
    · refine .inl ?_
      rintro _ _ _ ⟨rfl, rfl⟩
      exact hsame
    · refine .inr ⟨hwrapped, ?_⟩
      rintro _ _ _ ⟨rfl, rfl⟩
      exact hraw

/-- Behind a live object, bytes that fail early are an error. -/
theorem readChunks_failsEarly (hz : z.Reports D) (t : HostTables) (reply : Reply)
    (ending : Option ClientError) {now : Seconds} {chunk raw buf : Bytes} (n : ℕ)
    (rest : List (Seconds × Bytes)) {s : z.State} (h : Live z D maxBytes f raw buf s)
    (hclock : ¬ deadline < now)
    (hearly : FailsEarly D maxBytes f (raw ++ chunk)) :
    ∃ m, readChunks t z reply maxBytes deadline ending ((now, chunk) :: rest)
      ⟨buf, n, some (some s)⟩ = .error (.client (.httpError m)) := by
  have hafter := inflate_after hz h chunk
  generalize hx : inflate z (maxBytes + 1) s chunk buf = x at hafter
  cases hafter with
  | failed m _ => exact ⟨_, readChunks_of_error hclock hx⟩
  | full hno _ _ => exact absurd hearly hno
  | ended _ hended _ _ =>
    rw [hearly.1] at hended
    cases hended
  | live hlive => exact absurd hearly.1 hlive.status

/-- Behind a live object, bytes that do not fail but are too many fill the buffer. -/
theorem readChunks_tooMany (hz : z.Reports D) (t : HostTables) (reply : Reply)
    (ending : Option ClientError) {now : Seconds} {chunk raw buf : Bytes} (n : ℕ)
    (rest : List (Seconds × Bytes)) {s : z.State} (h : Live z D maxBytes f raw buf s)
    (hclock : ¬ deadline < now)
    (hstatus : D.status f (raw ++ chunk) ≠ .failed)
    (hlong : maxBytes < (D.output f (raw ++ chunk)).length) :
    ∃ r, readChunks t z reply maxBytes deadline ending ((now, chunk) :: rest)
      ⟨buf, n, some (some s)⟩ = .ok r ∧ maxBytes < r.buf.length ∧
        r.buf <+: D.output f (raw ++ chunk) := by
  have hafter := inflate_after hz h chunk
  generalize hx : inflate z (maxBytes + 1) s chunk buf = x at hafter
  cases hafter with
  | failed m hearly => exact absurd hearly.1 hstatus
  | @full buf' s' _ hfull hbegins =>
    rw [readChunks_of_ok hclock hx, if_pos (.inr (.inl hfull))]
    exact ⟨⟨buf', n + chunk.length, some (some s')⟩, rfl, hfull, hbegins⟩
  | ended _ _ hout hroom =>
    rw [hout] at hroom
    omega
  | live hlive =>
    have hroom := hlive.room
    rw [hlive.output] at hroom
    omega

/-- A byte that neither fails nor ends the stream, and gives no output. -/
theorem readChunks_byte (hz : z.Reports D) (t : HostTables) (reply : Reply) (maxBytes : ℕ)
    {now : Seconds} {a : UInt8} (hclock : ¬ deadline < now) (hstatus : D.status f [a] = .more) :
    ∃ s, Live z D maxBytes f [a] [] s ∧ ∀ rest,
      readChunks t z reply maxBytes deadline none ((now, [a]) :: rest)
        ⟨[], 0, some (some (z.start f))⟩ =
      readChunks t z reply maxBytes deadline none rest ⟨[], 1, some (some s)⟩ := by
  have hafter := inflate_after hz (live_start hz.toOutputs maxBytes f) [a]
  rw [List.nil_append] at hafter
  generalize hx : inflate z (maxBytes + 1) (z.start f) [a] [] = x at hafter
  cases hafter with
  | failed m hearly =>
    rw [hearly.1] at hstatus
    cases hstatus
  | full _ hfull hbegins =>
    rw [hz.first] at hbegins
    rw [List.prefix_nil.mp hbegins] at hfull
    exact absurd hfull (Nat.not_lt_zero _)
  | ended _ hended _ _ =>
    rw [hended] at hstatus
    cases hstatus
  | @live buf s hlive =>
    have hnil : buf = [] := hlive.output.trans (hz.first f a)
    rw [hnil] at hlive hx
    refine ⟨s, hlive, fun rest => ?_⟩
    rw [readChunks_of_ok hclock hx, if_neg]
    · rfl
    · rintro (heof | hfull | hslack)
      · rw [hlive.eof] at heof
        cases heof
      · exact absurd hfull (Nat.not_lt_zero _)
      · have hone : (0 : ℕ) + [a].length = 1 := rfl
        rw [hone, rawSlackBytes] at hslack
        omega

/-- In a borderline case, the bytes in one chunk are an error, and a cut in front of the
failure is not. -/
theorem Borderline.not_sameKind {d : Decoding} (hz : d.zlib.Reports D)
    (hlength : LengthPasses d reply maxBytes truncate) (before : List (Seconds × Bytes))
    {raw buf p rest : Bytes} (n : ℕ) {s : d.zlib.State} (h : Live d.zlib D maxBytes f raw buf s)
    (hbefore : ∀ c cs, c.2 = p ∨ c.2 = p ++ rest →
      readChunks t d.zlib reply maxBytes deadline none (before ++ c :: cs) ⟨[], 0, none⟩ =
        readChunks t d.zlib reply maxBytes deadline none (c :: cs) ⟨buf, n, some (some s)⟩)
    (hearly : FailsEarly D maxBytes f (raw ++ (p ++ rest)))
    (hstatus : D.status f (raw ++ p) ≠ .failed)
    (hlong : maxBytes < (D.output f (raw ++ p)).length) :
    ¬ SameKind
      (readBody t d ⟨before ++ [(deadline, p ++ rest)], none⟩ reply maxBytes deadline truncate)
      (readBody t d ⟨before ++ [(deadline, p), (deadline, rest)], none⟩ reply maxBytes deadline
        truncate) := by
  have hclock : ¬ deadline < deadline := Int.lt_irrefl deadline
  obtain ⟨m, hone⟩ := readChunks_failsEarly hz t reply none n [] h hclock hearly
  obtain ⟨r, htwo, hfull, hbegins⟩ := readChunks_tooMany hz t reply none n [(deadline, rest)] h
    hclock hstatus hlong
  rw [SameKind, readBody_of_error hlength ((hbefore _ _ (.inr rfl)).trans hone),
    readBody_of_full hlength ((hbefore _ _ (.inl rfl)).trans htwo) hfull hbegins, capped_kind,
    capped, if_neg (by omega)]
  intro h
  cases truncate <;> cases h

/-- A part that fills the buffer is longer than one byte. -/
theorem Borderline.parts (hz : z.Reports D) {raw : Bytes} (h : Borderline D maxBytes f raw) :
    ∃ p rest, raw = p ++ rest ∧ 2 ≤ p.length ∧ rest ≠ [] ∧ D.status f p ≠ .failed ∧
      maxBytes < (D.output f p).length := by
  obtain ⟨hearly, p, ⟨rest, rfl⟩, hstatus, hlong⟩ := h
  refine ⟨p, rest, rfl, ?_, ?_, hstatus, hlong⟩
  · by_contra hshort
    have hnone : D.output f p = [] := by
      match p, hshort with
      | [], _ => exact (D.nil f).1
      | [b], _ => exact hz.first f b
      | _ :: _ :: _, hshort => exact absurd (Nat.le_add_left 2 _) hshort
    rw [hnone] at hlong
    exact Nat.not_lt_zero _ hlong
  · rintro rfl
    rw [List.append_nil] at hearly
    exact hstatus hearly.1

section Cuts

variable {d : Decoding} {raw : Bytes}

/-- The bytes are read in one way, however they are cut. -/
def CutsAgree (t : HostTables) (d : Decoding) (reply : Reply) (maxBytes : ℕ) (deadline : Seconds)
    (truncate : Bool) (raw : Bytes) : Prop :=
  ∀ chunks₁ chunks₂, IsCut deadline raw chunks₁ → IsCut deadline raw chunks₂ →
    SameKind (readBody t d ⟨chunks₁, none⟩ reply maxBytes deadline truncate)
      (readBody t d ⟨chunks₂, none⟩ reply maxBytes deadline truncate)

theorem CutsAgree.not_borderline (hz : d.zlib.Reports D)
    (h : CutsAgree t d reply maxBytes deadline truncate raw)
    (hlength : LengthPasses d reply maxBytes truncate)
    (hformat : decompressor t reply raw = .ok (some f)) : ¬ Borderline D maxBytes f raw := by
  intro hborder
  obtain ⟨p, rest, rfl, hp, hrest, hstatus, hlong⟩ := hborder.parts hz
  have hp' : p ≠ [] := by
    rintro rfl
    exact absurd hp (by decide)
  have hfirst : decompressor t reply p = .ok (some f) := by
    refine (decompressor_first hformat (List.prefix_append p rest) hp').resolve_right ?_
    rintro ⟨hone, -⟩
    omega
  refine Borderline.not_sameKind hz hlength [] 0 (live_start hz.toOutputs maxBytes f) ?_
    hborder.1 hstatus hlong (h _ _ ?_ ?_)
  · rintro ⟨now, chunk⟩ cs (rfl | rfl)
    · exact readChunks_first _ _ _ _ _ _ hfirst
    · exact readChunks_first _ _ _ _ _ _ hformat
  · exact isCut_map [p ++ rest] (List.append_nil _) (by simp [hp'])
  · exact isCut_map [p, rest] (by simp) (by simp [hp', hrest])

theorem CutsAgree.not_borderline_raw (hz : d.zlib.Reports D)
    (h : CutsAgree t d reply maxBytes deadline truncate raw)
    (hlength : LengthPasses d reply maxBytes truncate)
    (hformat : decompressor t reply raw = .ok (some .wrapped)) :
    ¬ Borderline D maxBytes .raw raw := by
  intro hborder
  obtain ⟨p, rest, rfl, hp, hrest, hstatus, hlong⟩ := hborder.parts hz
  match p, hp with
  | a :: b :: p, _ =>
    have hfirst := (decompressor_wrapped hformat a).2
    have hclock : ¬ deadline < deadline := Int.lt_irrefl deadline
    have hmore : D.status .raw [a] = .more := by
      by_contra hstop
      have hsame := (D.stop .raw [a] (b :: p) hstop).1
      have hnone : D.output .raw (a :: b :: p) = [] := hsame.trans (hz.first .raw a)
      rw [hnone] at hlong
      exact Nat.not_lt_zero _ hlong
    obtain ⟨s, hlive, hbyte⟩ := readChunks_byte hz t reply maxBytes hclock hmore
    refine Borderline.not_sameKind (p := b :: p) hz hlength [(deadline, [a])] 1 hlive ?_
      hborder.1 hstatus hlong (h _ _ ?_ ?_)
    · intro c cs _
      exact (readChunks_first _ _ _ _ _ _ hfirst).trans (hbyte (c :: cs))
    · exact isCut_map [[a], b :: p ++ rest] (by simp) (by simp)
    · exact isCut_map [[a], b :: p, rest] (by simp) (by simp [hrest])

/-- The result for a cut, away from the borderline. -/
theorem IsCut.kind_eq (hz : d.zlib.Reports D) (hlength : LengthPasses d reply maxBytes truncate)
    (hraw : raw.length ≤ maxBytes) {chunks : List (Seconds × Bytes)} {format : Option Format}
    (h : IsCut deadline raw chunks) (hchooses : Chooses t reply chunks format)
    (hno : ∀ f, format = some f → ¬ Borderline D maxBytes f raw) :
    (readBody t d ⟨chunks, none⟩ reply maxBytes deadline truncate).mapError BodyError.kind =
      outcome D maxBytes truncate format raw := by
  have hslack : (rawBytes chunks).length ≤ maxBytes + rawSlackBytes := by
    rw [h.bytes]
    exact hraw.trans (Nat.le_add_right _ _)
  have hkind := readBody_kind hz hlength h.clock hslack hchooses
  rw [h.bytes] at hkind
  rcases hkind with houtcome | ⟨f, hf, hborder, -⟩
  · exact houtcome
  · exact absurd hborder (hno f hf)

/-- A response that is refused for its headers. -/
theorem readBody_refused (hno : ¬ LengthPasses d reply maxBytes truncate) (wire₁ wire₂ : Wire) :
    readBody t d wire₁ reply maxBytes deadline truncate =
      readBody t d wire₂ reply maxBytes deadline truncate := by
  rw [LengthPasses] at hno
  rw [readBody, readBody]
  cases hdeclared : declaredTooLarge d (headerText "content-length".toList reply) maxBytes
      truncate with
  | error m => rfl
  | ok tooLarge =>
    cases tooLarge with
    | true => rfl
    | false => exact absurd hdeclared hno

/-- A body in an encoding that is not supported. -/
theorem IsCut.unsupported (hlength : LengthPasses d reply maxBytes truncate) {e : BodyError}
    (hformat : ∀ first, decompressor t reply first = .error e) (hraw : raw ≠ [])
    {chunks : List (Seconds × Bytes)} (h : IsCut deadline raw chunks) :
    readBody t d ⟨chunks, none⟩ reply maxBytes deadline truncate = .error e := by
  refine readBody_of_error hlength ?_
  cases chunks with
  | nil => exact absurd h.bytes.symm hraw
  | cons c rest =>
    obtain ⟨now, chunk⟩ := c
    have hnow : ¬ deadline < now := h.clock _ List.mem_cons_self
    have hchunk : readChunk t d.zlib reply maxBytes ⟨[], 0, none⟩ chunk = .error e := by
      simp only [readChunk, chooseDecoder, hformat chunk]
      rfl
    show readChunks t d.zlib reply maxBytes deadline none ((now, chunk) :: rest) ⟨[], 0, none⟩ = _
    rw [readChunks, if_neg hnow, hchunk]

/-- Only no chunks at all are a cut of nothing. -/
theorem IsCut.eq_nil {chunks : List (Seconds × Bytes)} (h : IsCut deadline [] chunks) :
    chunks = [] := by
  cases chunks with
  | nil => rfl
  | cons c rest =>
    have hnil : c.2 ++ rawBytes rest = [] := h.bytes
    exact absurd (List.append_eq_nil_iff.mp hnil).1 (h.nonempty c List.mem_cons_self)

/-- An encoding that is not supported is refused whatever the body begins with. -/
theorem decompressor_refuses {e : BodyError} (h : decompressor t reply raw = .error e)
    (first : Bytes) : decompressor t reply first = .error e := by
  rcases decompressor_cases t reply with ⟨e', hall⟩ | ⟨format, -, hall⟩ | hall
  · rw [hall] at h ⊢
    exact h
  · rw [hall] at h
    cases h
  · rw [hall] at h
    cases h

/-- A wrapped body in one piece, and with its first byte in front. -/
theorem CutsAgree.outcome_eq (hz : d.zlib.Reports D)
    (h : CutsAgree t d reply maxBytes deadline truncate raw)
    (hlength : LengthPasses d reply maxBytes truncate) (hraw : raw.length ≤ maxBytes)
    (hformat : decompressor t reply raw = .ok (some .wrapped)) :
    outcome D maxBytes truncate (some .raw) raw =
      outcome D maxBytes truncate (some .wrapped) raw := by
  have hno := h.not_borderline hz hlength hformat
  have hnoraw := h.not_borderline_raw hz hlength hformat
  match raw, (decompressor_wrapped hformat 0).1 with
  | a :: b :: rest, _ =>
    have hone : IsCut deadline (a :: b :: rest) _ :=
      isCut_map [a :: b :: rest] (by simp) (by simp)
    have htwo : IsCut deadline (a :: b :: rest) _ :=
      isCut_map [[a], b :: rest] (by simp) (by simp)
    have hchoose₁ : Chooses t reply [(deadline, a :: b :: rest)] (some .wrapped) := by
      rintro _ _ _ ⟨rfl, rfl⟩
      exact hformat
    have hchoose₂ : Chooses t reply [(deadline, [a]), (deadline, b :: rest)] (some .raw) := by
      rintro _ _ _ ⟨rfl, rfl⟩
      exact (decompressor_wrapped hformat a).2
    have hkind₁ := hone.kind_eq hz hlength hraw hchoose₁ (by rintro _ ⟨⟩; exact hno)
    have hkind₂ := htwo.kind_eq hz hlength hraw hchoose₂ (by rintro _ ⟨⟩; exact hnoraw)
    exact hkind₂.symm.trans ((h _ _ htwo hone).trans hkind₁)

/-- **Which bodies are read in one way for every cut**: those for which no decoder that a
first chunk may call for comes to a borderline case, and, with a zlib wrapper, both of
them give one result. -/
theorem readBody_cut_iff (hz : d.zlib.Reports D) (t : HostTables) (reply : Reply)
    (maxBytes : ℕ) (deadline : Seconds) (truncate : Bool) (hraw : raw.length ≤ maxBytes) :
    CutsAgree t d reply maxBytes deadline truncate raw ↔
      (LengthPasses d reply maxBytes truncate →
        ∀ format, decompressor t reply raw = .ok format →
          (∀ f, format = some f → ¬ Borderline D maxBytes f raw) ∧
            (format = some .wrapped → ¬ Borderline D maxBytes .raw raw ∧
              outcome D maxBytes truncate (some .raw) raw =
                outcome D maxBytes truncate (some .wrapped) raw)) := by
  constructor
  · intro h hlength format hformat
    constructor
    · rintro f rfl
      exact h.not_borderline hz hlength hformat
    · rintro rfl
      exact ⟨h.not_borderline_raw hz hlength hformat, h.outcome_eq hz hlength hraw hformat⟩
  · intro h c₁ c₂ h₁ h₂
    by_cases hlength : LengthPasses d reply maxBytes truncate
    · cases hformat : decompressor t reply raw with
      | error e =>
        have hall := decompressor_refuses hformat
        by_cases hnil : raw = []
        · subst hnil
          rw [h₁.eq_nil, h₂.eq_nil, SameKind]
        · rw [SameKind, h₁.unsupported hlength hall hnil, h₂.unsupported hlength hall hnil]
      | ok format =>
        obtain ⟨hno, hwrapped⟩ := h hlength format hformat
        have hkind : ∀ chunks, IsCut deadline raw chunks →
            (readBody t d ⟨chunks, none⟩ reply maxBytes deadline truncate).mapError
              BodyError.kind = outcome D maxBytes truncate format raw := by
          intro chunks hcut
          rcases hcut.chooses hformat with hchooses | ⟨rfl, hchooses⟩
          · exact hcut.kind_eq hz hlength hraw hchooses hno
          · obtain ⟨hnoraw, hsame⟩ := hwrapped rfl
            rw [← hsame]
            refine hcut.kind_eq hz hlength hraw hchooses ?_
            rintro _ ⟨⟩
            exact hnoraw
        rw [SameKind, hkind c₁ h₁, hkind c₂ h₂]
    · rw [SameKind, readBody_refused hlength ⟨c₁, none⟩ ⟨c₂, none⟩]

/-- Without a wrapper every cut is read alike. -/
theorem readBody_cut_iff_sample : CutsAgree asciiTables storedDecoding deflated 8 1 false
    [0x01, 0x01, 0x00, 0xfe, 0xff, 0x61] := by
  refine (readBody_cut_iff (d := storedDecoding) storedZlib_reports asciiTables deflated 8 1 false
    (by decide)).mpr ?_
  intro _ format hformat
  cases hformat
  refine ⟨?_, fun h => by cases h⟩
  rintro _ ⟨⟩ ⟨hearly, -⟩
  revert hearly
  decide

/-- **A first chunk of one byte hides the wrapper**: in one piece the body is read, and
behind its first byte it is an error. -/
theorem first_byte_hides_the_wrapper :
    readBody asciiTables storedDecoding ⟨[(0, storedA)], none⟩ deflated 100 1 false =
        .ok ([0x61], false) ∧
      (readBody asciiTables storedDecoding ⟨[(0, [0x78]), (0, storedA.drop 1)], none⟩ deflated 100 1
        false).mapError BodyError.kind = .error (.client (.httpError [])) := by
  refine ⟨readBody_storedA (by decide), ?_⟩
  have hcut : IsCut 1 storedA [(0, [0x78]), (0, storedA.drop 1)] :=
    ⟨rfl, by decide, by unfold InTime; decide⟩
  have hchooses : Chooses asciiTables deflated [(0, [0x78]), (0, storedA.drop 1)] (some .raw) := by
    rintro _ _ _ ⟨rfl, rfl⟩
    decide
  have hlength : LengthPasses storedDecoding deflated 100 false := rfl
  refine (hcut.kind_eq storedZlib_reports hlength (by decide) hchooses ?_).trans (by decide)
  rintro _ ⟨⟩ hborder
  exact absurd hborder.lt_length (by decide)

end Cuts

end SafeHttp
