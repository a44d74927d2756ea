import TreeQuery.Store.Basic

/-!
# Failures reported by an operating system

A call to the system that fails gives a number; `systemText` has the texts that
go with these numbers. For a store only three kinds of failure matter: that
something is missing, that it may not be touched, and all others.
-/

namespace TreeQuery

/-- The kinds of failure that a store tells apart. -/
inductive FailureKind
  | notFound
  | permissionDenied
  | other
  deriving DecidableEq, Repr, Inhabited

/-- A failure: its kind, and a text that does not name the path. -/
structure SystemError where
  kind : FailureKind
  text : String
  deriving DecidableEq, Repr, Inhabited

/-- The texts of the numbered failures. -/
def systemTexts : List (Int × String) :=
  [ (0, "Success"),
    (1, "Operation not permitted"),
    (2, "No such file or directory"),
    (3, "No such process"),
    (4, "Interrupted system call"),
    (5, "Input/output error"),
    (6, "No such device or address"),
    (7, "Argument list too long"),
    (8, "Exec format error"),
    (9, "Bad file descriptor"),
    (10, "No child processes"),
    (11, "Resource temporarily unavailable"),
    (12, "Cannot allocate memory"),
    (13, "Permission denied"),
    (14, "Bad address"),
    (15, "Block device required"),
    (16, "Device or resource busy"),
    (17, "File exists"),
    (18, "Invalid cross-device link"),
    (19, "No such device"),
    (20, "Not a directory"),
    (21, "Is a directory"),
    (22, "Invalid argument"),
    (23, "Too many open files in system"),
    (24, "Too many open files"),
    (25, "Inappropriate ioctl for device"),
    (26, "Text file busy"),
    (27, "File too large"),
    (28, "No space left on device"),
    (29, "Illegal seek"),
    (30, "Read-only file system"),
    (31, "Too many links"),
    (32, "Broken pipe"),
    (33, "Numerical argument out of domain"),
    (34, "Numerical result out of range"),
    (35, "Resource deadlock avoided"),
    (36, "File name too long"),
    (37, "No locks available"),
    (38, "Function not implemented"),
    (39, "Directory not empty"),
    (40, "Too many levels of symbolic links"),
    (42, "No message of desired type"),
    (43, "Identifier removed"),
    (44, "Channel number out of range"),
    (45, "Level 2 not synchronized"),
    (46, "Level 3 halted"),
    (47, "Level 3 reset"),
    (48, "Link number out of range"),
    (49, "Protocol driver not attached"),
    (50, "No CSI structure available"),
    (51, "Level 2 halted"),
    (52, "Invalid exchange"),
    (53, "Invalid request descriptor"),
    (54, "Exchange full"),
    (55, "No anode"),
    (56, "Invalid request code"),
    (57, "Invalid slot"),
    (59, "Bad font file format"),
    (60, "Device not a stream"),
    (61, "No data available"),
    (62, "Timer expired"),
    (63, "Out of streams resources"),
    (64, "Machine is not on the network"),
    (65, "Package not installed"),
    (66, "Object is remote"),
    (67, "Link has been severed"),
    (68, "Advertise error"),
    (69, "Srmount error"),
    (70, "Communication error on send"),
    (71, "Protocol error"),
    (72, "Multihop attempted"),
    (73, "RFS specific error"),
    (74, "Bad message"),
    (75, "Value too large for defined data type"),
    (76, "Name not unique on network"),
    (77, "File descriptor in bad state"),
    (78, "Remote address changed"),
    (79, "Can not access a needed shared library"),
    (80, "Accessing a corrupted shared library"),
    (81, ".lib section in a.out corrupted"),
    (82, "Attempting to link in too many shared libraries"),
    (83, "Cannot exec a shared library directly"),
    (84, "Invalid or incomplete multibyte or wide character"),
    (85, "Interrupted system call should be restarted"),
    (86, "Streams pipe error"),
    (87, "Too many users"),
    (88, "Socket operation on non-socket"),
    (89, "Destination address required"),
    (90, "Message too long"),
    (91, "Protocol wrong type for socket"),
    (92, "Protocol not available"),
    (93, "Protocol not supported"),
    (94, "Socket type not supported"),
    (95, "Operation not supported"),
    (96, "Protocol family not supported"),
    (97, "Address family not supported by protocol"),
    (98, "Address already in use"),
    (99, "Cannot assign requested address"),
    (100, "Network is down"),
    (101, "Network is unreachable"),
    (102, "Network dropped connection on reset"),
    (103, "Software caused connection abort"),
    (104, "Connection reset by peer"),
    (105, "No buffer space available"),
    (106, "Transport endpoint is already connected"),
    (107, "Transport endpoint is not connected"),
    (108, "Cannot send after transport endpoint shutdown"),
    (109, "Too many references: cannot splice"),
    (110, "Connection timed out"),
    (111, "Connection refused"),
    (112, "Host is down"),
    (113, "No route to host"),
    (114, "Operation already in progress"),
    (115, "Operation now in progress"),
    (116, "Stale file handle"),
    (117, "Structure needs cleaning"),
    (118, "Not a XENIX named type file"),
    (119, "No XENIX semaphores available"),
    (120, "Is a named type file"),
    (121, "Remote I/O error"),
    (122, "Disk quota exceeded"),
    (123, "No medium found"),
    (124, "Wrong medium type"),
    (125, "Operation canceled"),
    (126, "Required key not available"),
    (127, "Key has expired"),
    (128, "Key has been revoked"),
    (129, "Key was rejected by service"),
    (130, "Owner died"),
    (131, "State not recoverable"),
    (132, "Operation not possible due to RF-kill"),
    (133, "Memory page has hardware error") ]

/-- The text of a numbered failure. -/
def systemText (number : Int) : String :=
  (systemTexts.lookup number).getD s!"Unknown error {number}"

/-- The kind of a numbered failure: 2 is a missing entry, 1 and 13 refuse. -/
def FailureKind.ofNumber (number : Int) : FailureKind :=
  if number = 2 then .notFound
  else if number = 1 ∨ number = 13 then .permissionDenied
  else .other

namespace SystemError

/-- A numbered failure. -/
def ofNumber (number : Int) : SystemError :=
  ⟨.ofNumber number, s!"{systemText number} (os error {number})"⟩

/-- No such entry. -/
def noEntry : SystemError := ofNumber 2

/-- Something other than a directory stands where one is needed. -/
def notDirectory : SystemError := ofNumber 20

/-- A directory stands where a file is needed. -/
def isDirectory : SystemError := ofNumber 21

/-- A name, or a whole path, is too long. -/
def nameTooLong : SystemError := ofNumber 36

/-- Too many links on the way. -/
def tooManyLinks : SystemError := ofNumber 40

/-- A path that no system call can take. -/
def nulInPath : SystemError :=
  ⟨.other, "file name contained an unexpected NUL byte"⟩

end SystemError

/-- A failure of a disk at something that is there: a number that does not say that it
is missing. 13 and 1 refuse, 5 and 116 are failures of what the data is kept on. -/
structure DiskFault where
  number : Int
  present : FailureKind.ofNumber number ≠ .notFound := by decide
  deriving DecidableEq, Repr

/-- The failure as the system reports it. -/
def DiskFault.error (f : DiskFault) : SystemError :=
  .ofNumber f.number

theorem DiskFault.kind_error_ne_notFound (f : DiskFault) : f.error.kind ≠ .notFound :=
  f.present

/-- A failure on a path, as a store reports it. -/
def AccessError.ofSystem (p : Path) (e : SystemError) : AccessError :=
  let subject := s!"{p}: {e.text}"
  match e.kind with
  | .notFound => .notFound subject
  | .permissionDenied => .permissionDenied subject
  | .other => .io subject

/-- The same failure as the refusal of a call, which comes so late. -/
def Refusal.ofSystem (late : Nat) (p : Path) (e : SystemError) : Refusal :=
  ⟨.ofSystem p e, late⟩

end TreeQuery
