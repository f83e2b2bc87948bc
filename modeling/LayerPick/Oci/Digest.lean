/-!
# Digests

A digest names a blob by an algorithm and a value, `algorithm:value`. The algorithm is a row of
lowercase words with single separators between them. For the algorithms that are registered, the
value is of fixed length and hexadecimal.
-/
namespace LayerPick.Oci

def isWordChar (c : Char) : Bool := ('a' ≤ c && c ≤ 'z') || ('0' ≤ c && c ≤ '9')

def isWordSeparator (c : Char) : Bool := c == '+' || c == '.' || c == '_' || c == '-'

/-- Is this a row of words? `wordOpen` says that the last character before belongs to a word. -/
def isAlgorithmFrom : (wordOpen : Bool) → List Char → Bool
  | wordOpen, [] => wordOpen
  | wordOpen, c :: cs =>
    if isWordChar c then isAlgorithmFrom true cs
    else wordOpen && isWordSeparator c && isAlgorithmFrom false cs

def isEncodedChar (c : Char) : Bool :=
  ('a' ≤ c && c ≤ 'z') || ('A' ≤ c && c ≤ 'Z') || ('0' ≤ c && c ≤ '9') ||
    c == '=' || c == '_' || c == '-'

def isHexChar (c : Char) : Bool := ('a' ≤ c && c ≤ 'f') || ('0' ≤ c && c ≤ '9')

/-- The number of digits that a registered algorithm has. -/
def registeredLength? (algorithm : List Char) : Option Nat :=
  if algorithm = "sha256".toList then some 64
  else if algorithm = "sha384".toList then some 96
  else if algorithm = "sha512".toList then some 128
  else none

def isEncoded (algorithm value : List Char) : Bool :=
  match registeredLength? algorithm with
  | some n => value.length == n && value.all isHexChar
  | none => !value.isEmpty && value.all isEncodedChar

structure Digest where
  algorithm : List Char
  value : List Char
  algorithm_valid : isAlgorithmFrom false algorithm = true
  value_valid : isEncoded algorithm value = true
  deriving DecidableEq

namespace Digest

/-- Reads a digest. The first colon ends the algorithm. -/
def ofText? (s : String) : Option Digest :=
  let algorithm := s.toList.takeWhile (· ≠ ':')
  let value := (s.toList.dropWhile (· ≠ ':')).drop 1
  if h : isAlgorithmFrom false algorithm = true ∧ isEncoded algorithm value = true then
    some ⟨algorithm, value, h.1, h.2⟩
  else none

def text (d : Digest) : String := String.ofList (d.algorithm ++ ':' :: d.value)

/-- The name of the blob that the digest stands for. -/
def blobName (d : Digest) : String :=
  "blobs/" ++ String.ofList d.algorithm ++ "/" ++ String.ofList d.value

end Digest

end LayerPick.Oci
