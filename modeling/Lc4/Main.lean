import Lc4.CommandLine

/-!
# The program

The outer layer: it reads lines and files, hands them to the shell, and writes what comes back.
Reports of the machine go to standard error.
-/
namespace Lc4.Program

open CommandLine

/-- More instructions than a run can take in practice. -/
def fuel : Nat := 0x4000000000000000

/-- An error by its number, which may come as the complement of a word of 32 bits. -/
def numberedError (code : UInt32) (text : String) : FileError :=
  .ofNumber (if code < 0x80000000 then code else 0 - code).toNat text

def fileError : IO.Error → FileError
  | .otherError code text | .resourceBusy code text | .resourceVanished code text
  | .unsupportedOperation code text | .hardwareFault code text
  | .unsatisfiedConstraints code text | .illegalOperation code text | .protocolError code text
  | .timeExpired code text | .alreadyExists _ code text | .invalidArgument _ code text
  | .permissionDenied _ code text | .resourceExhausted _ code text
  | .inappropriateType _ code text | .noSuchThing _ code text | .interrupted _ code text
  | .noFileOrDirectory _ code text => numberedError code text
  | .unexpectedEof => ⟨"unexpected end of file", none⟩
  | .userError text => ⟨text, none⟩

def readFile (path : String) : IO (Except FileError (List UInt8)) := do
  match pathFault? path with
  | some e => return .error e
  | none =>
    match ← (IO.FS.readBinFile path).toBaseIO with
    | .ok bytes => return .ok bytes.toList
    | .error e => return .error (fileError e)

/-- The file that a line is going to load. -/
def filesFor (text : String) : IO ReadFile := do
  match Shell.Command.parse text with
  | .ok (some (.load path)) =>
    let content ← readFile path
    return fun _ => content
  | _ => return fun _ => .error .notFound

def write (text : String) : IO Unit := do
  let out ← IO.getStdout
  out.putStr text
  out.flush

def report (o : Options) (events : Level → List Event) : IO Unit := do
  if let some least := o.logLevel? then
    for e in (events least).filter (·.reaches least) do
      IO.eprintln e.text

/-- Takes one turn; the result is the machine for the next one or the exit code. -/
def takeTurn (o : Options) (colours : Bool) (m : Machine) (text : String)
    (turn : Shell → Machine → Option Turn) : IO (Except UInt32 Machine) := do
  let sh := o.shell (← filesFor text) fuel colours
  report o fun least => sh.lineEvents least m text
  match turn sh m with
  | none => return .error 1
  | some (.goOn m output) =>
    write output
    return .ok m
  | some (.leave e) =>
    write e.output
    return .error (UInt32.ofNat e.code)

def runCommands (o : Options) (colours : Bool) : Machine → List String → IO UInt32
  | _, [] => return 0
  | m, text :: rest => do
    match ← takeTurn o colours m text fun sh m => Turn.ofText sh m text with
    | .ok m => runCommands o colours m rest
    | .error code => return code

/-- The bytes up to the next line end and with it, in front of which the reversed `acc` comes. -/
partial def readLineOnto (stdin : IO.FS.Stream) (acc : List UInt8) : IO (List UInt8) := do
  match (← stdin.read 1).toList with
  | [] => return acc.reverse
  | b :: _ => if b = 10 then return (b :: acc).reverse else readLineOnto stdin (b :: acc)

partial def dialogue (o : Options) (colours : Bool) (stdin : IO.FS.Stream) (m : Machine) :
    IO UInt32 := do
  write prompt
  let bytes ← readLineOnto stdin []
  let text := Text.Utf8.decode bytes
  match ← takeTurn o colours m text fun sh m => Turn.ofBytes sh m bytes with
  | .ok m => dialogue o colours stdin m
  | .error code =>
    if code = 1 then IO.eprintln "i/o error: stream did not contain valid UTF-8"
    return code

def colours : IO Bool := do
  return takesColours (← IO.getEnv "CLICOLOR_FORCE") (← IO.getEnv "NO_COLOR")
    (← IO.getEnv "CLICOLOR") (← (← IO.getStdout).isTty)

def start (o : Options) : IO UInt32 := do
  let colours ← colours
  let content ← match o.objectFile with
    | some path => readFile path
    | none => pure (.error .notFound)
  let sh := o.shell (fun _ => content) fuel colours
  if let some path := o.objectFile then
    report o fun least => sh.events least (Machine.new o.flags) (.load path)
  let (m, output) := opening sh o
  write output
  match o.commands with
  | some text => runCommands o colours m (text.splitOn ";")
  | none =>
    write banner
    dialogue o colours (← IO.getStdin) m

end Lc4.Program

def main (args : List String) : IO UInt32 := do
  match Lc4.CommandLine.Options.parse args with
  | .ok o => Lc4.Program.start o
  | .error .info =>
    Lc4.Program.write Lc4.CommandLine.usage
    return 0
  | .error .usage =>
    IO.eprint Lc4.CommandLine.usage
    return 2
