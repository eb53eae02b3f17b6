/-
  Parameter ids: 64-bit names of the variables of problems.

  An id is a hash of the name of a problem and the name of a variable, so the same pair has the same
  id everywhere.  The hashed bytes are the two names in UTF-8 with a byte between them that UTF-8
  never uses, so the bytes determine the pair.
-/

namespace BlockAdmm

/-- The name of a variable of a problem in a store. -/
abbrev ParameterId := UInt64

namespace ParameterId

/-- `basis`: the hash of no bytes. -/
def basis : UInt64 := 0xcbf29ce484222325

/-- `prime`: the odd factor of the hash. -/
def prime : UInt64 := 0x100000001b3

/-- `absorb h b`: the hash after one more byte. -/
def absorb (h : UInt64) (b : UInt8) : UInt64 := (h ^^^ b.toUInt64) * prime

/-- `hash bytes`: the hash of bytes, from the first to the last. -/
def hash (bytes : List UInt8) : UInt64 := bytes.foldl absorb basis

theorem hash_append (xs ys : List UInt8) : hash (xs ++ ys) = ys.foldl absorb (hash xs) :=
  List.foldl_append

/-- `utf8 s`: the bytes of a text. -/
def utf8 (s : String) : List UInt8 := s.toList.flatMap String.utf8EncodeChar

/-- `separator`: the byte between the two names. -/
def separator : UInt8 := 0xff

/-- `bytes problemId variableId`: the bytes of a pair of names. -/
def bytes (problemId variableId : String) : List UInt8 :=
  utf8 problemId ++ separator :: utf8 variableId

/-- `of problemId variableId`: the id of a variable of a problem. -/
def of (problemId variableId : String) : ParameterId := hash (bytes problemId variableId)

/-- `hex id`: the id in sixteen hexadecimal digits. -/
def hex (id : ParameterId) : String :=
  let ds := Nat.toDigits 16 id.toNat
  String.ofList (List.replicate (16 - ds.length) '0' ++ ds)

end ParameterId

end BlockAdmm
