namespace Hadris

/-- The kinds of errors every file system reports. -/
inductive ErrorKind where
  | io
  | notRecognized
  | corrupt
  | notFound
  | alreadyExists
  | notADirectory
  | isADirectory
  | directoryNotEmpty
  | noSpace
  | readOnly
  | invalidInput
  | unsupported
  | limitExceeded
  | nameTooLong
  | fileTooLarge
  | symlink
  | invalidHandle
  | busy
deriving DecidableEq, Repr

def ErrorKind.description : ErrorKind → String
  | .io => "I/O error"
  | .notRecognized => "not a recognized format"
  | .corrupt => "corrupt filesystem data"
  | .notFound => "not found"
  | .alreadyExists => "already exists"
  | .notADirectory => "not a directory"
  | .isADirectory => "is a directory"
  | .directoryNotEmpty => "directory not empty"
  | .noSpace => "no space left on volume"
  | .readOnly => "read-only"
  | .invalidInput => "invalid input"
  | .unsupported => "unsupported operation"
  | .limitExceeded => "value exceeds a limit"
  | .nameTooLong => "name too long"
  | .fileTooLarge => "file too large"
  | .symlink => "too many symbolic links, or a symbolic link where none is allowed"
  | .invalidHandle => "invalid node handle"
  | .busy => "resource busy"

/-- A format crate's code for what is wrong with a volume. -/
structure DetailCode where
  source : String
  code : Nat
deriving DecidableEq, Repr

structure Error where
  kind : ErrorKind
  message : String
  detail : Option DetailCode
deriving DecidableEq, Repr

namespace Error

def new (kind : ErrorKind) (message : String) : Error := ⟨kind, message, none⟩

def withDetail (e : Error) (detail : DetailCode) : Error := { e with detail := some detail }

def ofKind (kind : ErrorKind) : Error := new kind kind.description

end Error

/-- An error with the path it is about. -/
structure PathError where
  context : Error
  path : Option (List UInt8)
deriving DecidableEq, Repr

namespace PathError

def new (kind : ErrorKind) (message : String) : PathError := ⟨Error.new kind message, none⟩

def withPath (e : PathError) (path : List UInt8) : PathError := { e with path := some path }

end PathError

/-- How a run ends early: with an error of the source, or because a loop of
the model used up the steps it was given. -/
inductive Stop where
  | error (e : Error)
  | diverged
deriving DecidableEq, Repr

namespace Stop

def ofKind (kind : ErrorKind) : Stop := .error (Error.ofKind kind)

end Stop

end Hadris

namespace Hadris

/-- What a node is. -/
inductive FileType where
  | file
  | dir
  | symlink
  | charDevice
  | blockDevice
  | fifo
  | socket
deriving DecidableEq, Repr

def permissionMask : UInt32 := 0o7777

structure Permissions where
  bits : UInt32
  masked : bits &&& permissionMask = bits
deriving DecidableEq, Repr

namespace Permissions

def new (mode : UInt32) : Permissions :=
  ⟨mode &&& permissionMask, by rw [UInt32.and_assoc, UInt32.and_self]⟩

end Permissions

structure Owner where
  uid : UInt32
  gid : UInt32
deriving DecidableEq, Repr

structure DeviceNumber where
  major : UInt32
  minor : UInt32
deriving DecidableEq, Repr

/-- An instant, in seconds and nanoseconds since 1970. -/
structure DateTime where
  unixSeconds : Int
  nanoseconds : Nat
deriving DecidableEq, Repr

namespace DateTime

/-- The seconds of the earliest and the latest supported instant, in the years
-32768 and 32767. -/
def minSeconds : Int := -1096225401600

def maxSeconds : Int := 971890963199

def fromUnixSeconds (seconds : Int) : Option DateTime :=
  if seconds < minSeconds ∨ maxSeconds < seconds then none else some ⟨seconds, 0⟩

end DateTime

/-- A set of changes to a node's metadata. -/
structure SetAttr where
  accessed : Option DateTime
  modified : Option DateTime
  created : Option DateTime
  permissions : Option Permissions
  owner : Option Owner
  attributes : Option UInt32
deriving DecidableEq, Repr

def SetAttr.new : SetAttr := ⟨none, none, none, none, none, none⟩

/-- A part of what writers write, in bytes. -/
structure Extent where
  offset : Nat
  len : Nat
deriving DecidableEq, Repr

end Hadris

namespace Hadris

/-- The data of a file. Lazy content is that of a host file or a node of a
volume, which reading does not change; stored content and that of the other mode
are read by no writer of this mode. -/
inductive Content where
  | bytes (data : List UInt8)
  | lazy (data : List UInt8)
  | stored (len : Nat)
  | otherMode (len : Nat)
deriving DecidableEq, Repr

namespace Content

def empty : Content := .bytes []

def len : Content → Nat
  | bytes data => data.length
  | lazy data => data.length
  | stored len => len
  | otherMode len => len

def data : Content → List UInt8
  | bytes data => data
  | lazy data => data
  | stored _ => []
  | otherMode _ => []

def check : Content → Except PathError Unit
  | bytes _ => .ok ()
  | lazy _ => .ok ()
  | stored _ => .error (.new .unsupported "content stored on the output device")
  | otherMode _ =>
    .error (.new .unsupported "lazy content is read only by writers of the mode that produced it")

theorem data_length {content : Content} (h : content.check = .ok ()) :
    content.data.length = content.len := by
  cases content with
  | bytes data => rfl
  | lazy data => rfl
  | stored len => cases h
  | otherMode len => cases h

end Content

namespace Node

inductive Kind where
  | file (content : Content)
  | dir
  | symlink (target : List UInt8)
  | special (fileType : FileType) (device : Option DeviceNumber)
deriving DecidableEq, Repr

end Node

/-- A node of a tree, with the attributes it should get. -/
structure Node where
  kind : Node.Kind
  attrs : SetAttr
deriving DecidableEq, Repr

namespace Node

def file (content : Content) : Node := ⟨.file content, .new⟩

def dir : Node := ⟨.dir, .new⟩

def symlink (target : List UInt8) : Node := ⟨.symlink target, .new⟩

def special (fileType : FileType) (device : Option DeviceNumber) : Node :=
  ⟨.special fileType device, .new⟩

def withAttrs (node : Node) (attrs : SetAttr) : Node := { node with attrs := attrs }

def fileType (node : Node) : FileType :=
  match node.kind with
  | .file _ => .file
  | .dir => .dir
  | .symlink _ => .symlink
  | .special fileType _ => fileType

def content (node : Node) : Option Content :=
  match node.kind with
  | .file content => some content
  | _ => none

def target (node : Node) : Option (List UInt8) :=
  match node.kind with
  | .symlink target => some target
  | _ => none

def device (node : Node) : Option DeviceNumber :=
  match node.kind with
  | .special _ device => device
  | _ => none

def isDir (node : Node) : Bool :=
  match node.kind with
  | .dir => true
  | _ => false

def check (node : Node) : Except ErrorKind Unit :=
  match node.kind with
  | .special .charDevice (some _) => .ok ()
  | .special .blockDevice (some _) => .ok ()
  | .special .fifo none => .ok ()
  | .special .socket none => .ok ()
  | .special _ _ => .error .invalidInput
  | _ => .ok ()

end Node

end Hadris
