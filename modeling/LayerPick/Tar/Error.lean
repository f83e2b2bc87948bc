import LayerPick.Stream.Source
import LayerPick.SystemError
import LayerPick.Tar.Number

/-!
# Errors in an archive

Why an archive, or the records of one of its entries, cannot be read.
-/
namespace LayerPick.Tar

inductive SparseField where
  | offset
  | length
  deriving Repr, DecidableEq

/-- Why reading an archive stops. -/
inductive ReadError where
  | incompleteBlock
  | endedInSkip
  | skipTooFar
  | checksumField (e : NumberError) (path : String)
  | checksumMismatch
  | sizeField (e : NumberError) (path : String)
  | sizeOverflow
  | twoLongNames
  | twoExtended
  /-- A member that describes the next one is the last one. -/
  | nothingDescribed
  | malformedPax
  | sparseForm
  | sparseField (f : SparseField) (e : NumberError)
  | sparseAlignment
  | sparseOrder
  | sparseOverflow
  | sparseTooLong
  | sparseExtensionMissing
  | sparseRealSize (e : NumberError) (group user : String)
  | sparseSizeMismatch
  | sparseDataMismatch
  | stream (f : Fault)
  | system (e : SystemError)
  deriving Repr, DecidableEq

def ReadError.message : ReadError → String
  | incompleteBlock => "failed to read entire block"
  | endedInSkip => "unexpected EOF during skip"
  | skipTooFar => "seek position out of bounds"
  | checksumField e path => e.message ++ " when getting cksum for " ++ path
  | checksumMismatch => "archive header checksum mismatch"
  | sizeField e path => e.message ++ " when getting size for " ++ path
  | sizeOverflow => "size overflow"
  | twoLongNames => "two long name entries describing the same member"
  | twoExtended => "two pax extensions entries describing the same member"
  | nothingDescribed =>
    "members found describing a future member but no future member found"
  | malformedPax => "malformed pax extension"
  | sparseForm => "sparse entry type listed but not GNU header"
  | sparseField .offset e => e.message ++ " when getting offset from sparse header"
  | sparseField .length e => e.message ++ " when getting length from sparse header"
  | sparseAlignment => "previous block in sparse file was not aligned to 512-byte boundary"
  | sparseOrder => "out of order or overlapping sparse blocks"
  | sparseOverflow => "more bytes listed in sparse file than u64 can hold"
  | sparseTooLong => "sparse file consumed more data than the header listed"
  | sparseExtensionMissing => "failed to read extension"
  | sparseRealSize e group user =>
    e.message ++ " when getting real_size for " ++ group ++ ":" ++ user
  | sparseSizeMismatch => "mismatch in sparse file chunks and size in header"
  | sparseDataMismatch => "mismatch in sparse file chunks and entry size in header"
  | stream f => f.message
  | system e => e.message

end LayerPick.Tar
