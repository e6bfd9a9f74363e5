import RookLang.Command

/-! The program: runs a command line against the file system of the machine. -/
namespace RookLang

/-- The number and the words of an error of the machine; some calls report the number negated. -/
def machineError : IO.Error → UInt32 × String
  | .alreadyExists _ code details | .noFileOrDirectory _ code details
  | .inappropriateType _ code details | .permissionDenied _ code details
  | .resourceExhausted _ code details | .invalidArgument _ code details
  | .interrupted _ code details | .resourceBusy code details | .resourceVanished code details
  | .unsupportedOperation code details | .hardwareFault code details
  | .unsatisfiedConstraints code details | .illegalOperation code details
  | .protocolError code details | .timeExpired code details | .otherError code details
  | .noSuchThing _ code details => (code, details)
  | .unexpectedEof => (0, "unexpected end of file")
  | .userError details => (0, details)

def OsError.ofMachine (e : IO.Error) : OsError :=
  let (code, details) := machineError e
  match code.toInt32.toInt.natAbs with
  | 2 => .notFound
  | 17 => .exists_
  | 20 => .notDirectory
  | 21 => .isDirectory
  | 36 => .nameTooLong
  | n => .other details n

def attempt {α : Type} (act : IO α) : IO (Except OsError α) := do
  try return .ok (← act)
  catch e => return .error (.ofMachine e)

def metadataOnMachine (path : String) : IO (Except OsError Metadata) :=
  attempt do
    let found ← (← IO.FS.realPath path).metadata
    return ⟨found.type == .file, found.byteSize.toNat⟩

def isDirectoryOnMachine (path : String) : IO Bool := do
  match ← attempt do return (← (← IO.FS.realPath path).metadata).type == .dir with
  | .ok found => return found
  | .error _ => return false

/-- The machine that the program runs on. -/
def machine : OperatingSystem IO where
  metadata := metadataOnMachine
  read path := attempt (IO.FS.readBinFile path)
  createDirectories path :=
    makeChain (fun path => attempt (IO.FS.createDir path)) isDirectoryOnMachine
      (Path.ancestors path)
  write path content := attempt (IO.FS.writeBinFile path content)

def Complaint.print : Complaint → IO Unit
  | .silent => return
  | .text line => IO.eprintln line
  | .usage => IO.eprint helpText
  | .fault file _ d => IO.eprintln (d.render file)

def LogEvent.print : LogEvent → IO Unit
  | .savedTable path tokens =>
    IO.eprintln ("INFO saved token table path=" ++ path ++ " tokens=" ++ toString tokens)

def Outcome.report (o : Outcome) : IO UInt32 := do
  o.log.forM LogEvent.print
  IO.print o.output
  o.complaint.print
  return o.exit.toUInt32

end RookLang

open RookLang in
def main (words : List String) : IO UInt32 := do
  let environment ← IO.getEnv "ROOK_TABLE_DIR"
  (← (Invocation.ofWords words).answer machine environment).report
