/-
Decompression of stored blocks.

* `Decoder.ofMachine`, `Zlib.ofMachine` — the formats that a machine of bytes reads,
  and the objects that read them piece by piece;
* `storedStep` — the machine that reads DEFLATE streams of stored blocks, bare or in a
  zlib wrapper;
* `storedZlib`, `storedDecoder` — the objects that it gives, and what they return.

Main result: `ofMachine_reports`.
-/
import Newsforge.ZlibModel

open PyText Transducer

namespace SafeHttp

/-! ### Machines of bytes -/

section Machines

variable {σ : Type} (m : Machine σ UInt8 UInt8 Text) (start : Format → σ)

/-- The formats that a machine reads; it fails before it asks for room. -/
def Decoder.ofMachine (hstart : ∀ f, m.final (start f) = false) : Decoder where
  output f raw := (run m (start f) raw).1
  status f raw := (run m (start f) raw).2
  reach f raw := (run m (start f) raw).1.length
  nil f := by
    rw [run, hstart]
    exact ⟨rfl, rfl⟩
  grow f raw more := (run_append m (start f) raw more).1
  stop f raw more hstop := by
    rw [(run_append m (start f) raw more).2 hstop]
    exact ⟨rfl, rfl, rfl⟩
  le_reach _ _ := Nat.le_refl _
  reach_le _ _ := Nat.le_succ _

/-- The objects: the state of the machine, and the unconsumed tail. -/
def Zlib.ofMachine : Zlib where
  State := σ × Bytes
  start f := (start f, [])
  decompress s data n := feed m s.1 data n
  unconsumedTail s := s.2
  eof s := m.final s.1
  flush s :=
    if (run m s.1 s.2).2 = .failed then .error "Error -3 while finishing decompression".toList
    else .ok (run m s.1 s.2).1
  length_le := fun _ h => (feed_run h).2.1
  length_eq := fun _ h => (feed_run h).2.2.1

variable {m start}

/-- The machine goes on from the state of the object. -/
theorem Zlib.Fed.run_eq {f : Format} {raw out : Bytes} {s : (Zlib.ofMachine m start).State}
    (h : (Zlib.ofMachine m start).Fed f raw out s) (more : Bytes) :
    run m (start f) (raw ++ more) = (out ++ (run m s.1 more).1, (run m s.1 more).2) := by
  induction h generalizing more with
  | start => rfl
  | @decompress raw out used out' s s' n _ _ _ hcall ih =>
    rw [List.append_assoc, ih, (feed_run hcall).2.2.2 used rfl more, List.append_assoc]

/-- **The objects of a machine** return its output, piece by piece. -/
theorem ofMachine_reports (hstart : ∀ f, m.final (start f) = false)
    (hfirst : ∀ f b, (run m (start f) [b]).1 = []) :
    (Zlib.ofMachine m start).Reports (Decoder.ofMachine m start hstart) where
  tail_start _ := rfl
  tail := fun _ h => (feed_run h).1
  output := by
    intro f raw out s hfed
    have hrun := hfed.run_eq []
    rw [List.append_nil] at hrun
    show out <+: (run m (start f) raw).1
    rw [hrun]
    exact List.prefix_append _ _
  eof := by
    intro f raw out s hfed heof
    have hrun := hfed.run_eq []
    rw [List.append_nil, run_final heof, List.append_nil] at hrun
    show (run m (start f) raw).2 = .ended ∧ out = (run m (start f) raw).1
    rw [hrun]
    exact ⟨rfl, rfl⟩
  flush := by
    intro f raw out s rest hfed _ hflush
    have hrun := hfed.run_eq s.2
    show out ++ rest = (run m (start f) (raw ++ s.2)).1
    rw [hrun]
    simp only [Zlib.ofMachine] at hflush
    split at hflush
    · cases hflush
    · cases hflush
      rfl
  first := hfirst
  fails := by
    intro f raw out s data n hfed _ _
    show (∃ e, feed m s.1 data n = .error e) ↔ (run m (start f) (raw ++ data)).2 = .failed ∧
      (run m (start f) (raw ++ data)).1.length ≤ out.length + n
    rw [feed_failed_iff, hfed.run_eq data]
    refine and_congr_right fun _ => ?_
    show _ ↔ (out ++ (run m s.1 data).1).length ≤ out.length + n
    rw [List.length_append]
    omega
  all := by
    intro f raw out s data n more s' hfed _ _ hcall hshort
    obtain ⟨-, -, hfull, hrun⟩ := feed_run hcall
    have hnil : s'.2 = [] := by
      by_contra hne
      exact Nat.lt_irrefl _ (hfull hne ▸ hshort)
    have hall := hrun data (by rw [hnil, List.append_nil]) []
    rw [List.append_nil] at hall
    show out ++ more = (run m (start f) (raw ++ data)).1
    rw [hfed.run_eq data, hall, run]
    exact congrArg (out ++ ·) (List.append_nil more).symm
  flush_ok := by
    intro f raw out s hfed _ hok
    have hrun := hfed.run_eq s.2
    have hok' : (run m s.1 s.2).2 ≠ .failed := by
      intro hfailed
      exact hok ((congrArg Prod.snd hrun).trans hfailed)
    exact ⟨(run m s.1 s.2).1, if_neg hok'⟩

end Machines

/-! ### Stored blocks -/

/-- Where the reader is in the stream. -/
inductive Place
  | gzip
  | cmf
  | flg (cmf : ℕ)
  | block
  | lengths (last : Bool) (bytes : List ℕ)
  | copy (last : Bool) (left : ℕ)
  | check (bytes : List ℕ)
  | done
  deriving DecidableEq

/-- The reader: whether there is a wrapper, the place, and the two sums of the
Adler-32 checksum. -/
structure Stored where
  wrapped : Bool
  place : Place
  a : ℕ
  b : ℕ
  deriving DecidableEq

/-- Behind a block. -/
def Stored.afterBlock (r : Stored) (last : Bool) : Stored :=
  { r with place := if !last then .block else if r.wrapped then .check [] else .done }

/-- The text of a `zlib.error`. -/
def dataError (message : String) : Text :=
  "Error -3 while decompressing data: ".toList ++ message.toList

/-- One byte.  Compressed blocks and the gzip format are not read. -/
def storedStep (r : Stored) (byte : UInt8) : Except Text (Option UInt8 × Stored) :=
  let n := byte.toNat
  match r.place with
  | .gzip => .error (dataError "incorrect header check")
  | .cmf => .ok (none, { r with place := .flg n })
  | .flg cmf =>
    if (cmf * 256 + n) % 31 ≠ 0 then .error (dataError "incorrect header check")
    else if cmf % 16 ≠ 8 then .error (dataError "unknown compression method")
    else if 7 < cmf / 16 then .error (dataError "invalid window size")
    else if n / 32 % 2 = 1 then .error "Error 2 while decompressing data".toList
    else .ok (none, { r with place := .block })
  | .block =>
    if n / 2 % 4 = 0 then .ok (none, { r with place := .lengths (n % 2 == 1) [] })
    else .error (dataError "invalid block type")
  | .lengths last [b₁, b₂, b₃] =>
    if b₁ + b₂ * 256 + (b₃ + n * 256) ≠ 65535 then .error (dataError "invalid stored block lengths")
    else if b₁ + b₂ * 256 = 0 then .ok (none, r.afterBlock last)
    else .ok (none, { r with place := .copy last (b₁ + b₂ * 256) })
  | .lengths last bytes => .ok (none, { r with place := .lengths last (bytes ++ [n]) })
  | .copy last left =>
    let a := (r.a + n) % 65521
    let r := { r with a := a, b := (r.b + a) % 65521 }
    .ok (some byte,
      if left ≤ 1 then r.afterBlock last else { r with place := .copy last (left - 1) })
  | .check [b₁, b₂, b₃] =>
    if ((b₁ * 256 + b₂) * 256 + b₃) * 256 + n ≠ r.b * 65536 + r.a then
      .error (dataError "incorrect data check")
    else .ok (none, { r with place := .done })
  | .check bytes => .ok (none, { r with place := .check (bytes ++ [n]) })
  | .done => .ok (none, r)

def storedMachine : Machine Stored UInt8 UInt8 Text where
  step := storedStep
  final r := decide (r.place = .done)

/-- A reader in front of a stream. -/
def storedStart : Format → Stored
  | .gzip => ⟨true, .gzip, 1, 0⟩
  | .wrapped => ⟨true, .cmf, 1, 0⟩
  | .raw => ⟨false, .block, 1, 0⟩

def storedZlib : Zlib := .ofMachine storedMachine storedStart

theorem storedStart_final (f : Format) : storedMachine.final (storedStart f) = false := by
  cases f <;> rfl

def storedDecoder : Decoder := .ofMachine storedMachine storedStart storedStart_final

theorem storedZlib_reports : storedZlib.Reports storedDecoder := by
  refine ofMachine_reports storedStart_final ?_
  intro f b
  cases f with
  | gzip => rfl
  | wrapped => rfl
  | raw =>
    show (run storedMachine ⟨false, .block, 1, 0⟩ [b]).1 = []
    by_cases hstored : b.toNat / 2 % 4 = 0
    · simp [run, storedMachine, storedStep, hstored]
    · simp [run, storedMachine, storedStep, hstored]

/-- `b"a"`, stored, in a zlib wrapper. -/
def storedA : Bytes := [0x78, 0x01, 0x01, 0x01, 0x00, 0xfe, 0xff, 0x61, 0x00, 0x62, 0x00, 0x62]

example : storedDecoder.output .wrapped storedA = [0x61] := by decide

/-- Reading bodies of stored blocks, with ASCII headers. -/
def storedDecoding : Decoding := ⟨storedZlib, fun _ => false, fun _ => .error []⟩

/-- A response with a DEFLATE body. -/
def deflated : Reply := ⟨200, [("Content-Encoding".toList, "deflate".toList)]⟩

end SafeHttp
