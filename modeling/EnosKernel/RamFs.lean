import EnosKernel.MachineArith

/-! The RAM filesystem of `fs.rs`: a vector of named files behind one lock, each operation
as a function of the vector. -/
namespace EnosKernel
namespace RamFs

open MachineArith

def maxFiles : ℕ := 64
def maxFileNameLen : ℕ := 32
def maxFileSize : ℕ := 2048

structure FileEntry where
  name : String
  contents : String
  deriving DecidableEq, Repr

structure FileInfo where
  name : String
  size : ℕ
  deriving DecidableEq, Repr

structure FsStats where
  fileCount : ℕ
  totalBytes : ℕ
  maxFiles : ℕ
  maxFileSize : ℕ
  deriving DecidableEq, Repr

/-- ASCII letters and digits, underscore, hyphen and full stop. -/
def isNameByte (b : UInt8) : Bool :=
  (97 ≤ b && b ≤ 122) || (65 ≤ b && b ≤ 90) || (48 ≤ b && b ≤ 57) || b == 95 || b == 45 || b == 46

def isValidName (name : String) : Bool :=
  if name.utf8ByteSize = 0 ∨ maxFileNameLen < name.utf8ByteSize then false
  else name.toUTF8.data.all isNameByte

abbrev Files := List FileEntry

def createFile (name : String) (files : Files) : Except String Unit × Files :=
  if ¬ isValidName name then (.error "invalid file name",files)
  else if files.any (·.name == name) then (.error "file already exists",files)
  else if maxFiles ≤ files.length then (.error "file table is full",files)
  else (.ok (),files++[⟨name,""⟩])

def deleteFile (name : String) (files : Files) : Except String Unit × Files :=
  match files.findIdx? (·.name == name) with
  | none => (.error "file not found",files)
  | some idx => (.ok (),files.eraseIdx idx)

/-- The first file of that name is overwritten in place. -/
def writeFile (name content : String) (files : Files) : Except String Unit × Files :=
  if maxFileSize < content.utf8ByteSize then (.error "content too large",files)
  else match files.findIdx? (·.name == name) with
    | none => (.error "file not found",files)
    | some idx => (.ok (),files.modify idx fun file => { file with contents := content })

def readFile (name : String) (files : Files) : Except String String :=
  match files.find? (·.name == name) with
  | none => .error "file not found"
  | some file => .ok file.contents

def listFiles (files : Files) : List FileInfo :=
  files.map fun file => ⟨file.name,file.contents.utf8ByteSize⟩

def stats (files : Files) : FsStats where
  fileCount := files.length
  totalBytes := files.foldl (fun total file => saturatingAdd 32 total file.contents.utf8ByteSize) 0
  maxFiles := RamFs.maxFiles
  maxFileSize := RamFs.maxFileSize

inductive Op
  | createFile (name : String)
  | writeFile (name content : String)
  | deleteFile (name : String)
  | readFile (name : String)
  | listFiles
  | stats

/-- What a call returns; `Listing` is how the listing is compared. -/
inductive Reply (Listing : Type)
  | done (result : Except String Unit)
  | contents (result : Except String String)
  | listing (infos : Listing)
  | stats (stats : FsStats)

def Reply.failed {Listing : Type} : Reply Listing → Prop
  | .done (.error _) => True
  | .contents (.error _) => True
  | _ => False

def Op.exec (files : Files) : Op → Reply (List FileInfo) × Files
  | .createFile name => (.done (RamFs.createFile name files).1,(RamFs.createFile name files).2)
  | .writeFile name content =>
    (.done (RamFs.writeFile name content files).1,(RamFs.writeFile name content files).2)
  | .deleteFile name => (.done (RamFs.deleteFile name files).1,(RamFs.deleteFile name files).2)
  | .readFile name => (.contents (RamFs.readFile name files),files)
  | .listFiles => (.listing (RamFs.listFiles files),files)
  | .stats => (.stats (RamFs.stats files),files)

def run (files : Files) : List Op → List (Reply (List FileInfo)) × Files
  | [] => ([],files)
  | op::ops => ((op.exec files).1::(run (op.exec files).2 ops).1,(run (op.exec files).2 ops).2)

end RamFs
end EnosKernel
