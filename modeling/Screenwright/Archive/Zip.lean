import Screenwright.Files.Content

namespace Screenwright

namespace Archive

/-- A number in some bytes, the lowest first. -/
def littleEndian (width n : Nat) : List UInt8 :=
  (List.range width).map fun i => UInt8.ofNat (n >>> (8 * i))

/-- The remainder of a polynomial over bits as the next bit is shifted out. -/
def remainderShift (r : UInt32) : UInt32 :=
  if r &&& 1 = 1 then (r >>> 1) ^^^ 0xEDB88320 else r >>> 1

def remainderByte (r : UInt32) (b : UInt8) : UInt32 :=
  Nat.repeat remainderShift 8 (r ^^^ b.toUInt32)

def checksum (bytes : ByteArray) : UInt32 :=
  bytes.foldl remainderByte 0xFFFFFFFF ^^^ 0xFFFFFFFF

def blockLimit : Nat := 65535

/-- A block that holds bytes as they are: whether it is the last one, its length, and the
length with every bit turned. -/
def block (isLast : Bool) (bytes : ByteArray) : ByteArray :=
  ⟨((if isLast then 1 else 0) ::
    (littleEndian 2 bytes.size ++ littleEndian 2 (blockLimit - bytes.size))).toArray⟩ ++ bytes

/-- Deflated data, put in blocks that hold it as it is; one block at least. -/
def deflate (bytes : ByteArray) : ByteArray :=
  let last := (bytes.size - 1) / blockLimit
  (List.range (last + 1)).foldl (fun out i =>
    out ++ block (i = last) (bytes.extract (blockLimit * i) (blockLimit * (i + 1)))) .empty

def Method.code : Method → Nat
  | .stored => 0
  | .deflated => 8

def Method.pack : Method → ByteArray → ByteArray
  | .stored => id
  | .deflated => deflate

/-- What a header tells of an entry: the version of the format, that names are in UTF-8, the
method, the first day of the calendar, and sizes. -/
def headerFields (e : Entry ByteArray) : List UInt8 :=
  let content := e.content.getD .empty
  littleEndian 2 20 ++ littleEndian 2 0x800 ++ littleEndian 2 e.method.code ++
    littleEndian 4 0x210000 ++ littleEndian 4 (checksum content).toNat ++
    littleEndian 4 (e.method.pack content).size ++ littleEndian 4 content.size ++
    littleEndian 2 e.name.utf8ByteSize ++ littleEndian 2 0

def entryBytes (e : Entry ByteArray) : ByteArray :=
  ⟨(littleEndian 4 0x04034B50 ++ headerFields e).toArray⟩ ++ e.name.toUTF8 ++
    e.method.pack (e.content.getD .empty)

/-- What others may do with an entry: a directory is listed, a file is read. -/
def permissions (e : Entry ByteArray) : Nat :=
  if e.content.isNone then 0x41ED0010 else 0x81A40000

/-- The directory's record of an entry that begins at an offset. -/
def directoryBytes (e : Entry ByteArray) (offset : Nat) : ByteArray :=
  ⟨(littleEndian 4 0x02014B50 ++ littleEndian 2 0x314 ++ headerFields e ++ littleEndian 6 0 ++
    littleEndian 4 (permissions e) ++ littleEndian 4 offset).toArray⟩ ++ e.name.toUTF8

/-- The last record: the number of entries, and the size and the place of the directory. -/
def endBytes (count size offset : Nat) : ByteArray :=
  ⟨(littleEndian 4 0x06054B50 ++ littleEndian 4 0 ++ littleEndian 2 count ++
    littleEndian 2 count ++ littleEndian 4 size ++ littleEndian 4 offset ++
    littleEndian 2 0).toArray⟩

/-- An archive in the zip format, of less than `2 ^ 16` entries and `2 ^ 32` bytes: the entries, a
directory that repeats their headers with their places, and a last record. -/
def zip (entries : List (Entry ByteArray)) : ByteArray :=
  let (body, directory) := entries.foldl (fun (acc : ByteArray × ByteArray) e =>
    (acc.1 ++ entryBytes e, acc.2 ++ directoryBytes e acc.1.size)) (.empty, .empty)
  body ++ directory ++ endBytes entries.length directory.size body.size

end Archive

mutual

def Content.toBytes : Content → ByteArray
  | .bytes b => b
  | .archive entries => Archive.zip (Content.entriesToBytes entries)

def Content.entriesToBytes : List (Archive.Entry Content) → List (Archive.Entry ByteArray)
  | [] => []
  | ⟨name, method, content⟩ :: entries =>
    ⟨name, method, Content.innerToBytes content⟩ :: Content.entriesToBytes entries

def Content.innerToBytes : Option Content → Option ByteArray
  | none => none
  | some content => some content.toBytes

end

end Screenwright
