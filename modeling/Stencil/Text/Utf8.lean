/-!
UTF-8. Bytes that form no character are replaced: each longest run that some character starts with,
or else each single byte, gives one replacement character.
-/

namespace Stencil.Text

def encode (s : String) : List UInt8 := s.toList.flatMap String.utf8EncodeChar

def replacementChar : Char := '\ufffd'

def isContinuation (b : UInt8) : Bool := 0x80 ≤ b && b ≤ 0xbf

-- The number of bytes of the character that a first byte announces, with the range of the second
-- byte. The range leaves out longer forms of short characters, and code points without a character.
def announced? (b : UInt8) : Option (Nat × UInt8 × UInt8) :=
  if 0xc2 ≤ b && b ≤ 0xdf then some (2, 0x80, 0xbf)
  else if b = 0xe0 then some (3, 0xa0, 0xbf)
  else if b = 0xed then some (3, 0x80, 0x9f)
  else if 0xe1 ≤ b && b ≤ 0xef then some (3, 0x80, 0xbf)
  else if b = 0xf0 then some (4, 0x90, 0xbf)
  else if 0xf1 ≤ b && b ≤ 0xf3 then some (4, 0x80, 0xbf)
  else if b = 0xf4 then some (4, 0x80, 0x8f)
  else none

-- The longest run of continuation bytes at the front, up to the given number.
def continuations : Nat → List UInt8 → List UInt8
  | 0, _ => []
  | _, [] => []
  | n + 1, b :: bs => if isContinuation b then b :: continuations n bs else []

def codePoint (lead : Nat) (rest : List UInt8) : Nat :=
  rest.foldl (fun n b => n * 64 + (b.toNat - 0x80)) lead

-- Reads one character, or one run of bytes to replace, after the first byte `b`: the character if
-- there is one, and how many bytes of the rest belong to it.
def readChar (b : UInt8) (bs : List UInt8) : Option Char × Nat :=
  if b < 0x80 then (some (Char.ofNat b.toNat), 0)
  else
    match announced? b with
    | none => (none, 0)
    | some (size, lo, hi) =>
      match bs with
      | c :: _ =>
        if lo ≤ c && c ≤ hi then
          let rest := continuations (size - 1) bs
          if rest.length = size - 1 then
            let lead := b.toNat - (if size = 2 then 0xc0 else if size = 3 then 0xe0 else 0xf0)
            (some (Char.ofNat (codePoint lead rest)), rest.length)
          else (none, rest.length)
        else (none, 0)
      | [] => (none, 0)

-- The characters of some bytes, `none` for each that is to be replaced. `skip` bytes belong to a
-- character already read.
def readChars : Nat → List UInt8 → List (Option Char)
  | _, [] => []
  | skip + 1, _ :: bs => readChars skip bs
  | 0, b :: bs =>
    let (c, size) := readChar b bs
    c :: readChars size bs

def decodeLossy (bytes : List UInt8) : String :=
  String.ofList ((readChars 0 bytes).map (·.getD replacementChar))

-- The text of bytes that are all well formed.
def decode? (bytes : List UInt8) : Option String :=
  (readChars 0 bytes).mapM id |>.map String.ofList

end Stencil.Text
