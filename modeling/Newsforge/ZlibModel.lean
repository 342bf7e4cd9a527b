/-
What a decompressor has to do with the bytes it is given.

* `Decoder` — what the formats mean: the output of raw bytes, up to the end of the
  compressed stream, how they ended, and the room in which a failure shows;
* `Zlib.Fed` — what an object has been given, and what it has returned for it;
* `Zlib.Outputs` — outputs and flush together are the output of what was given;
* `Zlib.Reports` — failures are reported, and no output is held back;
* `InnerStep` — a call in the loop over one chunk.

Main results: `wellFounded_innerStep`, `inflate_calls`, `inflate_fed`.
-/
import Mathlib.Logic.Relation
import Newsforge.BodyReader
import Newsforge.Transducer

open Transducer Relation

namespace SafeHttp

/-! ### What the formats mean -/

/-- The output of raw bytes, how they ended, and the room for output in which a failure
shows: some show where the output ends, some only if one byte more could be written. -/
structure Decoder where
  output : Format → Bytes → Bytes
  status : Format → Bytes → Status
  reach : Format → Bytes → ℕ
  nil : ∀ f, output f [] = [] ∧ status f [] = .more
  /-- more bytes give more output -/
  grow : ∀ f raw more, output f raw <+: output f (raw ++ more)
  /-- behind the end of the stream, or a failure, nothing is read -/
  stop : ∀ f raw more, status f raw ≠ .more →
    output f (raw ++ more) = output f raw ∧ status f (raw ++ more) = status f raw ∧
      reach f (raw ++ more) = reach f raw
  le_reach : ∀ f raw, (output f raw).length ≤ reach f raw
  reach_le : ∀ f raw, reach f raw ≤ (output f raw).length + 1

/-- The content of a raw body; without a format it is the body. -/
def Decoder.content (D : Decoder) (format : Option Format) (raw : Bytes) : Bytes :=
  match format with
  | none => raw
  | some f => D.output f raw

theorem Decoder.content_nil (D : Decoder) (format : Option Format) : D.content format [] = [] := by
  cases format with
  | none => rfl
  | some f => exact (D.nil f).1

theorem Decoder.content_grow (D : Decoder) (format : Option Format) (raw more : Bytes) :
    D.content format raw <+: D.content format (raw ++ more) := by
  cases format with
  | none => exact List.prefix_append _ _
  | some f => exact D.grow f raw more

/-! ### What an object has been given -/

variable {z : Zlib} {D : Decoder} {f : Format}

variable (z f) in
/-- The object has used the bytes `raw` and returned `out`: each call uses its data up
to the unconsumed tail. -/
inductive Zlib.Fed : Bytes → Bytes → z.State → Prop
  | start : Zlib.Fed [] [] (z.start f)
  | decompress {raw out used more : Bytes} {s s' : z.State} {n : ℕ} :
    Zlib.Fed raw out s → 0 < n → z.eof s = false →
    z.decompress s (used ++ z.unconsumedTail s') n = .ok (more, s') →
    Zlib.Fed (raw ++ used) (out ++ more) s'

/-- The outputs of an object, with the final flush, are the output of the bytes it has
been given. -/
structure Zlib.Outputs (z : Zlib) (D : Decoder) : Prop where
  tail_start : ∀ f, z.unconsumedTail (z.start f) = []
  tail : ∀ {s data n more s'}, 0 < n → z.decompress s data n = .ok (more, s') →
    z.unconsumedTail s' <:+ data
  output : ∀ {f raw out s}, z.Fed f raw out s → out <+: D.output f raw
  eof : ∀ {f raw out s}, z.Fed f raw out s → z.eof s = true →
    D.status f raw = .ended ∧ out = D.output f raw
  flush : ∀ {f raw out s rest}, z.Fed f raw out s → z.eof s = false → z.flush s = .ok rest →
    out ++ rest = D.output f (raw ++ z.unconsumedTail s)

/-- Moreover it goes on for as long as there is input and room for the output: a call
fails exactly if its room reaches a failure, and returns less than it may only when there
is no more.  The first byte of a stream gives no output. -/
structure Zlib.Reports (z : Zlib) (D : Decoder) : Prop extends Zlib.Outputs z D where
  first : ∀ f b, D.output f [b] = []
  fails : ∀ {f raw out s data n}, z.Fed f raw out s → 0 < n → z.eof s = false →
    ((∃ m, z.decompress s data n = .error m) ↔
      D.status f (raw ++ data) = .failed ∧ D.reach f (raw ++ data) ≤ out.length + n)
  all : ∀ {f raw out s data n more s'}, z.Fed f raw out s → 0 < n → z.eof s = false →
    z.decompress s data n = .ok (more, s') → more.length < n →
    out ++ more = D.output f (raw ++ data)
  flush_ok : ∀ {f raw out s}, z.Fed f raw out s → z.eof s = false →
    D.status f (raw ++ z.unconsumedTail s) ≠ .failed → ∃ rest, z.flush s = .ok rest

/-! ### The inner loop -/

/-- One call in the loop over a chunk: the object, the data and the buffer. -/
inductive InnerStep (z : Zlib) (limit : ℕ) :
    z.State × Bytes × Bytes → z.State × Bytes × Bytes → Prop
  | call {s s' : z.State} {data buf out : Bytes} (hdata : data ≠ []) (hroom : buf.length < limit)
      (heof : z.eof s = false) (hcall : z.decompress s data (limit - buf.length) = .ok (out, s')) :
      InnerStep z limit (s, data, buf) (s', z.unconsumedTail s', buf ++ out)

/-- The guard of the loop. -/
def Guard (z : Zlib) (limit : ℕ) (x : z.State × Bytes × Bytes) : Prop :=
  x.2.1 ≠ [] ∧ x.2.2.length < limit ∧ z.eof x.1 = false

/-- **The inner loop terminates**: a call uses up the room, or the data. -/
theorem wellFounded_innerStep (z : Zlib) (limit : ℕ) :
    WellFounded fun y x => InnerStep z limit x y := by
  refine Subrelation.wf ?_ (InvImage.wf (fun x : z.State × Bytes × Bytes =>
    (limit - x.2.2.length, x.2.1.length)) (Prod.lex Nat.lt_wfRel Nat.lt_wfRel).wf)
  intro y x h
  cases h with
  | @call s s' data buf out hdata hroom heof hcall =>
    show Prod.Lex _ _ (limit - (buf ++ out).length, (z.unconsumedTail s').length)
      (limit - buf.length, data.length)
    have hpos := List.length_pos_of_ne_nil hdata
    rw [Prod.lex_def, List.length_append]
    by_cases htail : z.unconsumedTail s' = []
    · rw [htail, List.length_nil]
      show limit - (buf.length + out.length) < limit - buf.length ∨
        limit - (buf.length + out.length) = limit - buf.length ∧ 0 < data.length
      omega
    · have hfull := z.length_eq (by omega) hcall htail
      show limit - (buf.length + out.length) < limit - buf.length ∨ _
      omega

theorem not_guard_iff {limit : ℕ} {s : z.State} {data buf : Bytes} :
    ¬ Guard z limit (s, data, buf) ↔ data = [] ∨ limit ≤ buf.length ∨ z.eof s = true := by
  rw [Guard, not_and_or, not_and_or, not_not, Nat.not_lt, Bool.not_eq_false]

theorem inflate_stop {limit : ℕ} {s : z.State} {data buf : Bytes}
    (h : ¬ Guard z limit (s, data, buf)) : inflate z limit s data buf = .ok (buf, s) := by
  rw [inflate, if_pos (not_guard_iff.mp h)]

theorem inflate_call {limit : ℕ} {s s' : z.State} {data buf out : Bytes}
    (h : Guard z limit (s, data, buf))
    (hcall : z.decompress s data (limit - buf.length) = .ok (out, s')) :
    inflate z limit s data buf = inflate z limit s' (z.unconsumedTail s') (buf ++ out) := by
  rw [inflate, if_neg fun hstop => not_guard_iff.mpr hstop h]
  split
  · rename_i m hcall'
    rw [hcall] at hcall'
    cases hcall'
  · rename_i out' s'' hcall'
    rw [hcall] at hcall'
    cases hcall'
    rfl

theorem inflate_fail {limit : ℕ} {s : z.State} {data buf : Bytes} {m : Text}
    (h : Guard z limit (s, data, buf))
    (hcall : z.decompress s data (limit - buf.length) = .error m) :
    inflate z limit s data buf = .error m := by
  rw [inflate, if_neg fun hstop => not_guard_iff.mpr hstop h]
  split
  · rename_i m' hcall'
    rw [hcall] at hcall'
    cases hcall'
    rfl
  · rename_i out' s'' hcall'
    rw [hcall] at hcall'
    cases hcall'

/-- **The loop is its calls**: up to a state that stops it, or to a call that fails. -/
theorem inflate_calls (z : Zlib) (limit : ℕ) (x : z.State × Bytes × Bytes) :
    ∃ s data buf, ReflTransGen (InnerStep z limit) x (s, data, buf) ∧
      (¬ Guard z limit (s, data, buf) ∧ inflate z limit x.1 x.2.1 x.2.2 = .ok (buf, s) ∨
        ∃ m, Guard z limit (s, data, buf) ∧
          z.decompress s data (limit - buf.length) = .error m ∧
            inflate z limit x.1 x.2.1 x.2.2 = .error m) := by
  induction x using (wellFounded_innerStep z limit).induction with
  | _ x ih =>
    obtain ⟨s, data, buf⟩ := x
    by_cases hguard : Guard z limit (s, data, buf)
    · cases hcall : z.decompress s data (limit - buf.length) with
      | error m => exact ⟨s, data, buf, .refl, .inr ⟨m, hguard, hcall, inflate_fail hguard hcall⟩⟩
      | ok r =>
        obtain ⟨out, s'⟩ := r
        have hstep : InnerStep z limit (s, data, buf) (s', z.unconsumedTail s', buf ++ out) :=
          .call hguard.1 hguard.2.1 hguard.2.2 hcall
        obtain ⟨s₁, data₁, buf₁, hsteps, hend⟩ := ih _ hstep
        refine ⟨s₁, data₁, buf₁, .head hstep hsteps, ?_⟩
        rwa [inflate_call hguard hcall]
    · exact ⟨s, data, buf, .refl, .inl ⟨hguard, inflate_stop hguard⟩⟩

/-! ### What the loop keeps -/

/-- Unless there is no more room, or the stream is at its end, nothing is left over. -/
def UsedUp (z : Zlib) (limit : ℕ) (buf : Bytes) (s : z.State) : Prop :=
  buf.length < limit → z.eof s = false → z.unconsumedTail s = []

/-- What the object has used and what is left make up the bytes, and what it has
returned is the buffer. -/
structure InnerInv (z : Zlib) (f : Format) (limit : ℕ) (all : Bytes) (x : z.State × Bytes × Bytes) :
    Prop where
  fed : ∃ used, all = used ++ x.2.1 ∧ z.Fed f used x.2.2 x.1
  room : x.2.2.length ≤ limit
  settled : x.2.1 = [] → UsedUp z limit x.2.2 x.1

theorem InnerInv.step (hz : z.Outputs D) {limit : ℕ} {all : Bytes} {x y : z.State × Bytes × Bytes}
    (h : InnerInv z f limit all x) (hstep : InnerStep z limit x y) : InnerInv z f limit all y := by
  cases hstep with
  | @call s s' data buf out hdata hroom heof hcall =>
    obtain ⟨used, rfl, hfed⟩ := h.fed
    have hn : 0 < limit - buf.length := Nat.sub_pos_of_lt hroom
    obtain ⟨now, hnow⟩ := hz.tail hn hcall
    refine ⟨⟨used ++ now, ?_, hfed.decompress hn heof (hnow ▸ hcall)⟩, ?_, fun htail _ _ => htail⟩
    · rw [List.append_assoc, hnow]
    · have hlen := z.length_le hn hcall
      rw [List.length_append]
      omega

theorem InnerInv.steps (hz : z.Outputs D) {limit : ℕ} {all : Bytes} {x y : z.State × Bytes × Bytes}
    (h : InnerInv z f limit all x) (hsteps : ReflTransGen (InnerStep z limit) x y) :
    InnerInv z f limit all y := by
  induction hsteps with
  | refl => exact h
  | tail _ hstep ih => exact ih.step hz hstep

/-- What the loop over a chunk ends with. -/
theorem inflate_fed (hz : z.Outputs D) {limit : ℕ} {raw chunk buf buf' : Bytes} {s s' : z.State}
    (hfed : z.Fed f raw buf s) (hroom : buf.length ≤ limit) (hsettled : UsedUp z limit buf s)
    (h : inflate z limit s chunk buf = .ok (buf', s')) :
    ∃ used data, raw ++ chunk = used ++ data ∧ z.Fed f used buf' s' ∧ buf'.length ≤ limit ∧
      UsedUp z limit buf' s' ∧ (data = [] ∨ limit ≤ buf'.length ∨ z.eof s' = true) := by
  obtain ⟨s₁, data, buf₁, hsteps, hend⟩ := inflate_calls z limit (s, chunk, buf)
  have hinv : InnerInv z f limit (raw ++ chunk) (s, chunk, buf) :=
    ⟨⟨raw, rfl, hfed⟩, hroom, fun _ => hsettled⟩
  have hlast := hinv.steps hz hsteps
  rcases hend with ⟨hstop, hok⟩ | ⟨m, -, -, herror⟩
  · rw [h] at hok
    cases hok
    obtain ⟨used, hused, hfed'⟩ := hlast.fed
    refine ⟨used, data, hused, hfed', hlast.room, ?_, not_guard_iff.mp hstop⟩
    intro hlt heof
    rcases not_guard_iff.mp hstop with hnil | hfull | hend
    · exact hlast.settled hnil hlt heof
    · exact absurd hlt (Nat.not_lt.mpr hfull)
    · exact absurd hend (by rw [heof]; exact Bool.false_ne_true)
  · rw [h] at herror
    cases herror

end SafeHttp
