/-
The body reader of `apps/core/safe_http.py`.

* `Zlib` — `zlib.decompressobj`, as far as the code relies on it;
* `decompressor` — which decoder the first chunk of a body calls for;
* `inflate`, `readChunk`, `readChunks` — one compressed chunk, one chunk, the
  chunks;
* `readBody` — `_read_body`.

The chunks come from a `Wire`, each with the reading of the clock after it, and
a `ValueError` of `int()` is one of the errors that are no `httpx.HTTPError`.
-/
import Newsforge.SafeHttp

open PyText

namespace SafeHttp

/-! ### What lies outside -/

/-- `RAW_SLACK_BYTES`. -/
def rawSlackBytes : ℕ := 64 * 1024

/-- The formats of `zlib.decompressobj`: `16 + MAX_WBITS`, `MAX_WBITS` and
`-MAX_WBITS`. -/
inductive Format
  | gzip
  | wrapped
  | raw
  deriving DecidableEq, Repr

/-- `zlib.decompressobj`; an error is the text of a `zlib.error`. -/
structure Zlib where
  State : Type
  start : Format → State
  /-- `decompress(data, max_length)`: the output, and what the object is then -/
  decompress : State → Bytes → ℕ → Except Text (Bytes × State)
  unconsumedTail : State → Bytes
  eof : State → Bool
  flush : State → Except Text Bytes
  /-- no more than `max_length` bytes, unless that is 0 -/
  length_le : ∀ {s data n out s'}, 0 < n → decompress s data n = .ok (out, s') → out.length ≤ n
  /-- input is left over only for want of room -/
  length_eq : ∀ {s data n out s'}, 0 < n → decompress s data n = .ok (out, s') →
    unconsumedTail s' ≠ [] → out.length = n

/-- What reading a body takes from outside: decompression, and `str.isdigit` and
`int` for text that is not ASCII. -/
structure Decoding where
  zlib : Zlib
  isdigit : Text → Bool
  int : Text → Except Text ℕ

/-- The raw body: its chunks, with the clock after each, and what is raised
behind the last of them. -/
structure Wire where
  chunks : List (Seconds × Bytes)
  ending : Option ClientError

/-! ### Content-Length -/

/-- `text.isdigit()`. -/
def isdigit (d : Decoding) (text : Text) : Bool :=
  if isAscii text then isDecimal text else d.isdigit text

/-- `int(text)`, for text of which `isdigit` is true. -/
def int (d : Decoding) (text : Text) : Except Text ℕ :=
  if isAscii text then
    if maxStrDigits < text.length then .error (tooManyDigits text.length)
    else .ok (decValue text)
  else d.int text

/-- `declared and declared.isdigit() and int(declared) > max_bytes and not truncate`. -/
def declaredTooLarge (d : Decoding) (declared : Text) (maxBytes : ℕ) (truncate : Bool) :
    Except Text Bool :=
  if !declared.isEmpty && isdigit d declared then
    match int d declared with
    | .error m => .error m
    | .ok n => .ok (decide (maxBytes < n) && !truncate)
  else .ok false

/-! ### Decompression -/

/-- `httpx.Headers.get(name, "")`. -/
def headerText (name : Text) (reply : Reply) : Text := (headerGet name reply.headers).getD []

/-- A first byte that a zlib wrapper can have, and a second one that checks it. -/
def isWrapped : Bytes → Bool
  | a :: b :: _ => a.toNat % 16 == 8 && (a.toNat * 256 + b.toNat) % 31 == 0
  | _ => false

/-- `_decompressor`: the format the body is decoded from, if any. -/
def decompressor (t : HostTables) (reply : Reply) (first : Bytes) :
    Except BodyError (Option Format) :=
  let encoding := lower t.unicode (strip isSpace (headerText "content-encoding".toList reply))
  if encoding = [] ∨ encoding = "identity".toList then .ok none
  else if encoding = "gzip".toList ∨ encoding = "x-gzip".toList then .ok (some .gzip)
  else if encoding = "deflate".toList then .ok (some (if isWrapped first then .wrapped else .raw))
  else .error (.client (.httpError ("unsupported content-encoding: ".toList ++ encoding)))

/-- `while data and len(buf) < limit and not decoder.eof`. -/
def inflate (z : Zlib) (limit : ℕ) (s : z.State) (data buf : Bytes) :
    Except Text (Bytes × z.State) :=
  if data = [] ∨ limit ≤ buf.length ∨ z.eof s = true then .ok (buf, s)
  else
    match _h : z.decompress s data (limit - buf.length) with
    | .error m => .error m
    | .ok (out, s') => inflate z limit s' (z.unconsumedTail s') (buf ++ out)
  termination_by (limit - buf.length, data.length)
  decreasing_by
    rename_i hgo
    rw [not_or, not_or, Nat.not_le] at hgo
    obtain ⟨hdata, hroom, -⟩ := hgo
    have hpos : 0 < data.length := List.length_pos_of_ne_nil hdata
    rw [Prod.lex_def, List.length_append]
    by_cases htail : z.unconsumedTail s' = []
    · -- all input is used up
      simp only [htail, List.length_nil]
      omega
    · -- the room is
      have hfull := z.length_eq (by omega) _h htail
      omega

/-! ### The body -/

/-- The variables of the loop; `decoder` is there from the first chunk on, and
holds an object if the body is compressed. -/
structure Reading (z : Zlib) where
  buf : Bytes
  rawRead : ℕ
  decoder : Option (Option z.State)

/-- The decoding object, if there is one. -/
def Reading.object {z : Zlib} (r : Reading z) : Option z.State := r.decoder.join

/-- A `zlib.error`. -/
def orDecodingError {α : Type*} : Except Text α → Except BodyError α
  | .ok a => .ok a
  | .error m => .error (.client (.httpError ("invalid compressed body: ".toList ++ m)))

/-- The decoder, chosen by the first chunk. -/
def chooseDecoder (t : HostTables) (z : Zlib) (reply : Reply) (chunk : Bytes) :
    Option (Option z.State) → Except BodyError (Option z.State)
  | some decoder => .ok decoder
  | none => (decompressor t reply chunk).map fun format => format.map z.start

/-- The chunk goes into the buffer, through the decoder if there is one; at most
up to the cap, so the rest of a bomb is never expanded. -/
def extend (z : Zlib) (maxBytes : ℕ) (buf chunk : Bytes) :
    Option z.State → Except BodyError (Bytes × Option z.State)
  | none => .ok (buf ++ chunk, none)
  | some s =>
    (orDecodingError (inflate z (maxBytes + 1) s chunk buf)).map fun out => (out.1, some out.2)

/-- The loop body behind the look at the clock: the variables then, and whether
the loop goes on. -/
def readChunk (t : HostTables) (z : Zlib) (reply : Reply) (maxBytes : ℕ) (r : Reading z)
    (chunk : Bytes) : Except BodyError (Reading z × Bool) := do
  let rawRead := r.rawRead + chunk.length
  let decoder ← chooseDecoder t z reply chunk r.decoder
  let (buf, decoder) ← extend z maxBytes r.buf chunk decoder
  -- the end of the compressed stream, or of what may be read
  let stop := decoder.any z.eof || maxBytes < buf.length || maxBytes + rawSlackBytes < rawRead
  return (⟨buf, rawRead, some decoder⟩, !stop)

/-- `for chunk in resp.iter_raw()`. -/
def readChunks (t : HostTables) (z : Zlib) (reply : Reply) (maxBytes : ℕ) (deadline : Seconds)
    (ending : Option ClientError) :
    List (Seconds × Bytes) → Reading z → Except BodyError (Reading z)
  | [], r =>
    match ending with
    | some e => .error (.client e)
    | none => .ok r
  | (now, chunk) :: rest, r =>
    if deadline < now then .error .deadlineExceeded
    else
      match readChunk t z reply maxBytes r chunk with
      | .error e => .error e
      | .ok (r, true) => readChunks t z reply maxBytes deadline ending rest r
      | .ok (r, false) => .ok r

/-- What the decoder still holds when the chunks have ended. -/
def flushed (z : Zlib) (maxBytes : ℕ) (r : Reading z) : Except BodyError Bytes :=
  match r.object with
  | some s =>
    if r.buf.length ≤ maxBytes && !z.eof s then
      (orDecodingError (z.flush s)).map fun out => r.buf ++ out
    else .ok r.buf
  | none => .ok r.buf

/-- `_read_body`. -/
def readBody (t : HostTables) (d : Decoding) (wire : Wire) (reply : Reply) (maxBytes : ℕ)
    (deadline : Seconds) (truncate : Bool) : Except BodyError (Bytes × Bool) :=
  match declaredTooLarge d (headerText "content-length".toList reply) maxBytes truncate with
  | .error m => .error (.client (.other m))
  | .ok true => .error .responseTooLarge
  | .ok false => do
    let r ← readChunks t d.zlib reply maxBytes deadline wire.ending wire.chunks ⟨[], 0, none⟩
    let buf ← flushed d.zlib maxBytes r
    if maxBytes < buf.length || maxBytes + rawSlackBytes < r.rawRead then
      if truncate then return (buf.take maxBytes, true)
      else .error .responseTooLarge
    else return (buf, false)

section Reading

variable (net : Internet) (t : HostTables) (d : Decoding) (wire : ℕ → Wire)

end Reading

end SafeHttp
