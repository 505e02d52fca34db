import DbStorage.Core.PageWalk
import DbStorage.Parquet.Footer
import DbStorage.Parquet.Snappy

/-!
# Page bodies (`mod.rs` and `zstd.rs` in `src/column/parquet/compression`)

`decompress` takes a page's body and the uncompressed size of its header. The
ZSTD decoder is that of another crate: a parameter that gives some bytes or
an error.

Result: `decompress_length_iff` (the output has the size of the header
exactly when the length that the body itself states is that size: only the
ZSTD path compares the two).
-/
namespace DbStorage.Parquet.Compression
open Bytes
open PageWalk (mapError_eq_ok_iff)

inductive ZstdError where
  | frame (e : String)
  | read (e : String)
  | sizeMismatch (expected actual : Nat)
  | panicked
  deriving DecidableEq

inductive CompressionError where
  | unsupportedCodec (c : Int32)
  | snappy (e : Snappy.SnappyError)
  | zstd (e : ZstdError)
  deriving DecidableEq

/-- `ruzstd::StreamingDecoder`: the frame's header, then all of its content. -/
structure StreamingDecoder where
  new : Bytes → Except String Unit
  readToEnd : Bytes → Except String Bytes

/-- mirrors zstd.rs:37-50 -/
def zstdDecompress (Z : StreamingDecoder) (data : Bytes) (uncompressedSize : Nat) : Except ZstdError Bytes :=
  match Z.new data with
  | .error e => .error (.frame e)
  | .ok _ =>
    if 2 ^ 63 ≤ uncompressedSize then .error .panicked
    else
      match Z.readToEnd data with
      | .error e => .error (.read e)
      | .ok out =>
        if out.length ≠ uncompressedSize then .error (.sizeMismatch uncompressedSize out.length) else .ok out

/-- mirrors compression/mod.rs:54-68 -/
def decompress (Z : StreamingDecoder) (codec : Codec) (compressed : Bytes) (uncompressedSize : Nat) :
    Except CompressionError Bytes :=
  match codec with
  | .uncompressed => .ok compressed
  | .snappy => (Snappy.decompress compressed uncompressedSize).mapError .snappy
  | .zstd => (zstdDecompress Z compressed uncompressedSize).mapError .zstd
  | .other c => .error (.unsupportedCodec c)

/-- The length a body states apart from the page header: its own, or the
preamble of a Snappy block. -/
def statedLength : Codec → Bytes → Option Nat
  | .uncompressed, compressed => some compressed.length
  | .snappy, compressed => (Snappy.readVarint compressed).toOption.map Prod.fst
  | _, _ => none

theorem zstdDecompress_length {Z : StreamingDecoder} {data out : Bytes} {size : Nat}
    (h : zstdDecompress Z data size = .ok out) : out.length = size := by
  rw [zstdDecompress] at h
  split at h
  · cases h
  · split at h
    · cases h
    · split at h
      · cases h
      · split at h
        · cases h
        · rename_i hlen
          cases h
          exact not_not.1 hlen

/-- A Snappy block has the length of its preamble, whatever size is passed. -/
theorem snappy_length {data out : Bytes} {size : Nat} (h : Snappy.decompress data size = .ok out) :
    statedLength .snappy data = some out.length := by
  obtain ⟨⟨preamble, es, hleb, hlen, -, rfl, -⟩, -⟩ := Snappy.decompress_ok h
  rw [statedLength, Snappy.readVarint_leb hleb hlen]
  rfl

/-- **The size of the page header** is that of the output exactly when the
body does not state another one. -/
theorem decompress_length_iff (Z : StreamingDecoder) (codec : Codec) (compressed out : Bytes) (size : Nat)
    (h : decompress Z codec compressed size = .ok out) :
    out.length = size ↔ ∀ n, statedLength codec compressed = some n → n = size := by
  cases codec with
  | uncompressed =>
    cases h
    refine ⟨fun hs n hn => ?_, fun hs => hs _ rfl⟩
    cases hn
    exact hs
  | snappy =>
    have hstated := snappy_length (mapError_eq_ok_iff.1 h)
    refine ⟨fun hs n hn => ?_, fun hs => hs _ hstated⟩
    rw [hstated] at hn
    cases hn
    exact hs
  | zstd =>
    have hlen := zstdDecompress_length (mapError_eq_ok_iff.1 h)
    refine ⟨fun _ n hn => ?_, fun _ => hlen⟩
    cases hn
  | other c => cases h

/-- A decoder that returns its input. -/
def identityDecoder : StreamingDecoder where
  new _ := .ok ()
  readToEnd := .ok

/-- A Snappy block of one byte, where the header says one. -/
theorem snappy_byte_length :
    (∀ n, statedLength .snappy [1, 0, 7] = some n → n = 1) ∧ ([7] : Bytes).length = 1 :=
  have h : decompress identityDecoder .snappy [1, 0, 7] 1 = .ok [7] := by decide
  ⟨(decompress_length_iff identityDecoder .snappy [1, 0, 7] [7] 1 h).1 rfl, rfl⟩

/-- An uncompressed body and a Snappy block, both of one byte where the
header says two. -/
theorem size_not_checked :
    decompress identityDecoder .uncompressed [7] 2 = .ok [7] ∧
      decompress identityDecoder .snappy [1, 0, 7] 2 = .ok [7] := by
  decide

end DbStorage.Parquet.Compression
