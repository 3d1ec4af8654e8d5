import SetCover.CommandLine.Run

/-!
# The program

Carries a request of the command line out: real files, the real clock, and the exit code.
-/

namespace SetCover.Main

open CommandLine

/-- Time since some moment, in nanoseconds. -/
def since (start : Nat) : IO Nat := do return (← IO.monoNanosNow) - start

/-- Rounds of a heuristic against the real clock. The journal is not kept. -/
partial def rounds {State : Type} (h : Anytime State) (limit : Option Nat) (start done : Nat)
    (timer : Timer) (s : State) (session : Session) : IO (Except Fault State × Session) := do
  if limit.any (· ≤ done) || timer.stopped || !h.live s then return (.ok s, session)
  match (h.round done s).run { session with journal := [] } with
  | .ok s session => rounds h limit start (done + 1) (timer.tick (← since start)) s session
  | .error fault session => return (.error fault, session)

/-- A heuristic from its start to its answer against the real clock. -/
def perform (job : Job) (session : Session) :
    IO (Except Fault (Selection × Span) × Session) := do
  let start ← IO.monoNanosNow
  match job.start.run session with
  | .error fault session => return (.error fault, session)
  | .ok s session =>
      match ← rounds job.rounds job.limit start 0 (Timer.start job.budget) s session with
      | (.error fault, session) => return (.error fault, session)
      | (.ok s, session) =>
          match (job.answer s).run session with
          | .error fault session => return (.error fault, session)
          | .ok answer session => return (.ok (answer, ⟨← since start⟩), session)

/-- The trouble that the system reports. -/
def troubleOf : IO.Error → FileTrouble
  | .noFileOrDirectory .. => .notFound
  | .permissionDenied .. => .notPermitted
  | .inappropriateType _ 20 _ => .notDirectory
  | .invalidArgument _ 36 _ => .nameTooLong
  | _ => .isDirectory

/-- What a path leads to among the real files. -/
def readFile (path : String) : IO FileContent := do
  return (← (IO.FS.readBinFile path).toBaseIO).mapError troubleOf

/-- Puts a text into a real file. -/
def writeFile (path text : String) : IO (Except FileTrouble Unit) := do
  return (← (IO.FS.writeFile path text).toBaseIO).mapError troubleOf

/-- A seed from the machine's entropy. -/
def freshSeed : IO UInt64 := do
  let bytes ← IO.getRandomBytes 8
  return bytes.toList.foldl (fun n b => n * 256 + b.toUInt64) 0

/-- The real surroundings. -/
def host : Host IO where
  read := readFile
  write := writeFile
  say := fun line => IO.println line
  freshSeed := freshSeed
  perform := perform

/-- How the program is called. -/
def usage : String :=
  "Usage: scp-heuristics [-c FILE] [-o FILE] [-s SEED] [-t MILLISECONDS] INSTANCE..."

end SetCover.Main

open SetCover CommandLine in
/-- Runs the program and gives its exit code. -/
def main (arguments : List String) : IO UInt32 := do
  match Request.parse arguments with
  | .version =>
      IO.println versionText
      return 0
  | .help =>
      IO.println SetCover.Main.usage
      return 0
  | .misuse =>
      IO.eprintln SetCover.Main.usage
      return 2
  | .run options =>
      match ← (execute SetCover.Main.host options).run with
      | .ok () => return 0
      | .error fault =>
          IO.eprintln (faultText fault)
          return exitCode fault
